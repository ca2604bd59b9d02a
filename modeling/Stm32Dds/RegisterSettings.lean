import Stm32Dds.PhysicalUnits
import Stm32Dds.SettingsReadback

set_option autoImplicit false

namespace Stm32Dds.Scpi
open BitFields Ad9910 Commands Rounding

inductive RegisterSetting
  | outputFrequency | outputAmplitude | rampBoundaryMinimum | rampBoundaryMaximum | rampStepUp
  | rampStepDown | rampRateUp | rampRateDown
  deriving DecidableEq, Repr

namespace RegisterSetting

def field : RegisterSetting → RegisterBit
  | .outputFrequency => Field.profileFrequency
  | .outputAmplitude => Field.profileAmplitude
  | .rampBoundaryMinimum => Field.rampLowerLimit
  | .rampBoundaryMaximum => Field.rampUpperLimit
  | .rampStepUp => Field.rampIncrementStep
  | .rampStepDown => Field.rampDecrementStep
  | .rampRateUp => Field.rampPositiveRate
  | .rampRateDown => Field.rampNegativeRate

inductive Quantity
  | frequency | amplitude | ramp | rampRate
  deriving DecidableEq, Repr

def quantity : RegisterSetting → Quantity
  | .outputFrequency => .frequency
  | .outputAmplitude => .amplitude
  | .rampBoundaryMinimum | .rampBoundaryMaximum | .rampStepUp | .rampStepDown => .ramp
  | .rampRateUp | .rampRateDown => .rampRate

def Quantity.param {K : Type} [NatCast K] [LT K] [DecidableLT K] (k : ConversionsOver K) :
    Quantity → Option (NumberOf K) → Except ScpiError (BitVec 32)
  | .frequency => scpiParamFrequency k
  | .amplitude => scpiParamAmplitude k
  | .ramp => scpiParamRamp k
  | .rampRate => scpiParamRampRate k

def Quantity.bits : Quantity → Nat
  | .frequency | .ramp => 32
  | .amplitude => 14
  | .rampRate => 16

theorem bits_field (s : RegisterSetting) : s.field.bits = s.quantity.bits := by
  cases s <;> rfl

def callback (v : Option ScpiNumber) : RegisterSetting → Callback
  | .outputFrequency => .outputFrequency v
  | .outputAmplitude => .outputAmplitude v
  | .rampBoundaryMinimum => .rampBoundaryMinimum v
  | .rampBoundaryMaximum => .rampBoundaryMaximum v
  | .rampStepUp => .rampStepUp v
  | .rampStepDown => .rampStepDown v
  | .rampRateUp => .rampRateUp v
  | .rampRateDown => .rampRateDown v

theorem callback_commands (s : RegisterSetting) (lay : Layout) (k : Conversions) (p : Parallel)
    (v : Option ScpiNumber) : (s.callback v).commands lay k p =
      scpiParseRegisterCommand lay s.field (s.quantity.param k v) := by
  cases s <;> rfl

end RegisterSetting

theorem inRange_ok {K : Type} [NatCast K] [LinearOrder K] {value low high : K} {word w : BitVec 32}
    (h : inRange value low high word = .ok w) : low ≤ value ∧ value ≤ high ∧ word = w := by
  rw [inRange] at h
  split at h
  · cases h
  · rename_i hrange
    rw [not_or,not_lt,gt_iff_lt,not_lt] at hrange
    exact ⟨hrange.1,hrange.2,Except.ok.inj h⟩

section Words
variable {K : Type} [Field K] [LinearOrder K] [FloorRing K] (toReal : K → ℝ)

/-- The number a parameter stands for, before anything is stored in a machine word. -/
noncomputable def RegisterSetting.Quantity.ideal : RegisterSetting.Quantity → NumberOf K → ℤ
  | .frequency, .special .max => frequencyWord (400000000 : K)
  | .amplitude, .special .max => 16383
  | .rampRate, .special .min => 65535
  | .rampRate, .special _ => 1
  | _, .special _ => 0
  | .frequency, .plain v .hertz | .ramp, .plain v .hertz => frequencyWord v
  | .rampRate, .plain v .hertz => rampRateWord v
  | .amplitude, .plain v .dbm => amplitudeWord (toReal v)
  | .ramp, .plain v .dbm => amplitudeWord (toReal v)*2^18
  | _, .plain v _ => truncate v

/-- The word is the number itself, and the number fits the field. -/
structure Holds (bits : ℕ) (z : ℤ) (word : BitVec 32) : Prop where
  fits : FitsWord bits z
  exact : (word.toNat : ℤ) = z

theorem Holds.natCast (bits n : ℕ) (hn : n < 2^bits) (hbits : bits ≤ 32) :
    Holds bits n (BitVec.ofNat 32 n) := by
  have hword : n < 2^32 := hn.trans_le (Nat.pow_le_pow_right (by decide) hbits)
  exact ⟨⟨Int.natCast_nonneg n,by exact_mod_cast hn⟩,by rw [BitVec.toNat_ofNat,Nat.mod_eq_of_lt hword]⟩

theorem Holds.ofInt {bits : ℕ} {low high z : ℤ} (h : Between low high z) (hlow : 0 ≤ low)
    (hhigh : high < 2^bits) (hbits : bits ≤ 32) : Holds bits z (BitVec.ofInt 32 z) :=
  ⟨h.fitsWord hlow hhigh,toNat_ofInt_of_fits ((h.fitsWord hlow hhigh).mono hbits)⟩

variable {toReal} {w : BitVec 32}

theorem param_none (q : RegisterSetting.Quantity) :
    q.param (exactConversions toReal) none = .error .parameter := by
  cases q <;> rfl

theorem holds_amplitude {v : K} (hreal : ∀ v : K, v ≤ 0 → toReal v ≤ 0)
    (hv : ¬ v > ((0 : ℕ) : K)) : Holds 14 (amplitudeWord (toReal v))
      ((exactConversions toReal).convertAmplitude v) := by
  have hbetween := amplitudeWord_between (hreal v (by simpa using hv))
  exact ⟨hbetween.fitsWord le_rfl (by norm_num),amplitude_masked hbetween⟩

theorem holds_amplitude_aligned {v : K} (hreal : ∀ v : K, v ≤ 0 → toReal v ≤ 0)
    (hv : ¬ v > ((0 : ℕ) : K)) : Holds 32 (amplitudeWord (toReal v)*2^18)
      ((exactConversions toReal).convertAmplitude v <<< 18) := by
  have hbetween := amplitudeWord_between (hreal v (by simpa using hv))
  have haligned : Between 0 (16383*2^18) (amplitudeWord (toReal v)*2^18) := by
    have hlow := hbetween.1
    have hhigh := hbetween.2
    constructor <;> omega
  exact ⟨haligned.fitsWord le_rfl (by norm_num),amplitude_aligned hbetween⟩

variable [IsStrictOrderedRing K]

theorem holds_truncate {v : K} {high : ℕ} {bits : ℕ} (hhigh : (high : ℤ) < 2^bits)
    (hbits : bits ≤ 32)
    (h : inRange v ((0 : ℕ) : K) (high : K) ((exactConversions toReal).toUInt32 v) = .ok w) :
    Holds bits (truncate v) w := by
  obtain ⟨hlow,hle,rfl⟩ := inRange_ok h
  exact .ofInt (truncate_between (by simpa using hlow) hle) le_rfl hhigh hbits

theorem holds_frequency {v : K} (h : inRange v ((0 : ℕ) : K) ((400000000 : ℕ) : K)
    ((exactConversions toReal).convertFrequency v) = .ok w) : Holds 32 (frequencyWord v) w := by
  obtain ⟨hlow,hle,rfl⟩ := inRange_ok h
  exact .ofInt (frequencyWord_between (by simpa using hlow) (by simpa using hle)) le_rfl
    (by norm_num) le_rfl

theorem scpiParamFrequency_holds {n : NumberOf K}
    (h : scpiParamFrequency (exactConversions toReal) (some n) = .ok w) :
    Holds 32 (RegisterSetting.Quantity.frequency.ideal toReal n) w := by
  cases n with
  | special tag =>
    cases tag with
    | min =>
      cases h
      exact .natCast 32 0 (by decide) le_rfl
    | max =>
      cases h
      have hcast : ((400000000 : ℕ) : K) = 400000000 := by norm_num
      rw [exactConversions,hcast]
      exact .ofInt frequencyWord_four_hundred le_rfl (by norm_num) le_rfl
    | _ => cases h
  | plain v unit =>
    cases unit with
    | none => exact holds_truncate (by norm_num [maxFrequency]) le_rfl h
    | hertz => exact holds_frequency h
    | _ => cases h

theorem scpiParamAmplitude_holds (hreal : ∀ v : K, v ≤ 0 → toReal v ≤ 0) {n : NumberOf K}
    (h : scpiParamAmplitude (exactConversions toReal) (some n) = .ok w) :
    Holds 14 (RegisterSetting.Quantity.amplitude.ideal toReal n) w := by
  cases n with
  | special tag =>
    cases tag with
    | min =>
      cases h
      exact .natCast 14 0 (by decide) (by decide)
    | max =>
      cases h
      exact .natCast 14 16383 (by decide) (by decide)
    | _ => cases h
  | plain v unit =>
    cases unit with
    | none => exact holds_truncate (by norm_num [maxAmplitude]) (by norm_num) h
    | dbm =>
      rw [scpiParamAmplitude] at h
      split at h
      · cases h
      · rename_i hv
        cases h
        exact holds_amplitude hreal hv
    | _ => cases h

theorem scpiParamRampRate_holds {n : NumberOf K}
    (h : scpiParamRampRate (exactConversions toReal) (some n) = .ok w) :
    Holds 16 (RegisterSetting.Quantity.rampRate.ideal toReal n) w := by
  cases n with
  | special tag =>
    cases tag with
    | min =>
      cases h
      exact .natCast 16 65535 (by decide) (by decide)
    | max =>
      cases h
      exact .natCast 16 1 (by decide) (by decide)
    | _ => cases h
  | plain v unit =>
    cases unit with
    | none => exact holds_truncate (by norm_num) (by norm_num) h
    | hertz =>
      obtain ⟨hlow,hhigh,rfl⟩ := inRange_ok h
      exact .ofInt (rampRateWord_between hlow (by simpa using hhigh)) (by norm_num) (by norm_num)
        (by norm_num)
    | _ => cases h

theorem scpiParamRamp_holds (hreal : ∀ v : K, v ≤ 0 → toReal v ≤ 0) {n : NumberOf K}
    (h : scpiParamRamp (exactConversions toReal) (some n) = .ok w) :
    Holds 32 (RegisterSetting.Quantity.ramp.ideal toReal n) w := by
  cases n with
  | special tag => cases h
  | plain v unit =>
    cases unit with
    | none => exact holds_truncate (by norm_num [maxFrequency]) le_rfl h
    | dbm =>
      rw [scpiParamRamp] at h
      split at h
      · cases h
      · rename_i hv
        rw [← Except.ok.inj h,RegisterSetting.Quantity.ideal]
        exact holds_amplitude_aligned hreal hv
    | hertz => exact holds_frequency h
    | _ => cases h

theorem param_holds (hreal : ∀ v : K, v ≤ 0 → toReal v ≤ 0) (q : RegisterSetting.Quantity)
    {n : NumberOf K} (h : q.param (exactConversions toReal) (some n) = .ok w) :
    Holds q.bits (q.ideal toReal n) w := by
  cases q with
  | frequency => exact scpiParamFrequency_holds h
  | amplitude => exact scpiParamAmplitude_holds hreal h
  | ramp => exact scpiParamRamp_holds hreal h
  | rampRate => exact scpiParamRampRate_holds h

end Words

section Execution
variable {f : RegisterBit} {z : ℤ} {w : BitVec 32}

theorem Holds.getValue_setValue (h : Holds f.bits z w) (s : Dds) :
    getValue f (setValue f (w.setWidth 64) s) = w.setWidth 64 := by
  have hlt : (w.setWidth 64).toNat < 2^f.bits := by
    have hfits := h.fits.2
    rw [← h.exact] at hfits
    rw [BitVec.toNat_setWidth,Nat.mod_eq_of_lt (by omega)]
    exact_mod_cast hfits
  rw [Ad9910.getValue_setValue,and_fieldMask_of_lt f.bits_lt hlt]

theorem Holds.getValue_execute (h : Holds f.bits z w) (s : Dds) :
    getValue f (executeCommandRegister f w s) = w.setWidth 64 ∧
      getValue f (executeCommandRegisterOnly f w s) = w.setWidth 64 :=
  ⟨h.getValue_setValue s,h.getValue_setValue s⟩

variable {lay : Layout} {dev : Device}

theorem processCommand_register (hf : lay.env.field (lay.fieldAddr f) = f)
    (h : dev.mode ≠ .program) (w : BitVec 32) :
    processCommand lay dev (registerCommand lay f w) =
      { dev with dds := executeCommandRegister f w dev.dds } := by
  have hexecute : (registerCommand lay f w).execute (lay.envOf dev.parallel) dev.dds =
      executeCommandRegister f w dev.dds := execute_registerCommand hf dev.parallel w dev.dds
  rw [processCommand]
  split
  · contradiction
  · rw [hexecute]

end Execution

noncomputable def rationalConversions : Conversions := exactConversions ((↑) : ℚ → ℝ)

theorem rational_nonpos (v : ℚ) (h : v ≤ 0) : (v : ℝ) ≤ 0 := by exact_mod_cast h

theorem run_accepted (lay : Layout) (s : RegisterSetting) (k : Conversions) {v : Option ScpiNumber}
    {w : BitVec 32} (h : s.quantity.param k v = .ok w) (dev : Device) :
    (s.callback v).run lay k dev = (.ok,processCommand lay dev (registerCommand lay s.field w)) := by
  rw [Callback.run,s.callback_commands,h]
  rfl

theorem run_rejected (lay : Layout) (s : RegisterSetting) (k : Conversions) {v : Option ScpiNumber}
    {e : ScpiError} (h : s.quantity.param k v = .error e) (dev : Device) :
    (s.callback v).run lay k dev = (.err,{ dev with errors := dev.errors ++ [e] }) := by
  rw [Callback.run,s.callback_commands,h]
  rfl

theorem accepted_parameters_fit (lay : Layout) (s : RegisterSetting)
    (hlay : lay.env.field (lay.fieldAddr s.field) = s.field) (v : Option ScpiNumber) (dev : Device) :
    (∀ w, s.quantity.param rationalConversions v = .ok w →
      ∃ n, v = some n ∧
        FitsWord s.field.bits (s.quantity.ideal ((↑) : ℚ → ℝ) n) ∧
        (w.toNat : ℤ) = s.quantity.ideal ((↑) : ℚ → ℝ) n ∧
        (∀ t, getValue s.field (executeCommandRegister s.field w t) = w.setWidth 64 ∧
          getValue s.field (executeCommandRegisterOnly s.field w t) = w.setWidth 64) ∧
        (s.callback v).run lay rationalConversions dev =
          (.ok,processCommand lay dev (registerCommand lay s.field w)) ∧
        (dev.mode ≠ .program →
          getValue s.field ((s.callback v).run lay rationalConversions dev).2.dds = w.setWidth 64)) ∧
    ∀ e, s.quantity.param rationalConversions v = .error e →
      (s.callback v).run lay rationalConversions dev =
        (.err,{ dev with errors := dev.errors ++ [e] }) := by
  refine ⟨?_,fun e h => run_rejected lay s _ h dev⟩
  intro w h
  cases v with
  | none =>
    have hnone : s.quantity.param rationalConversions none = .error .parameter :=
      param_none s.quantity
    exact absurd (h.symm.trans hnone) (by simp)
  | some n =>
    have hholds := param_holds rational_nonpos s.quantity h
    rw [← s.bits_field] at hholds
    have hrun := run_accepted lay s rationalConversions h dev
    refine ⟨n,rfl,hholds.fits,hholds.exact,hholds.getValue_execute,hrun,?_⟩
    intro hmode
    rw [hrun,processCommand_register hlay hmode]
    exact (hholds.getValue_execute dev.dds).1

def Layout.only (f : RegisterBit) : Layout :=
  { Layout.plain with env := { Layout.plain.env with field := fun _ => f } }

theorem highest_amplitude_fits :
    getValue Field.profileAmplitude ((Callback.outputAmplitude (some (.special .max))).run
      (Layout.only Field.profileAmplitude) rationalConversions (Device.reset fun _ => 0)).2.dds =
        16383 := by
  obtain ⟨_,_,_,_,_,_,hread⟩ :=
    (accepted_parameters_fit (Layout.only Field.profileAmplitude) .outputAmplitude rfl
      (some (.special .max)) (Device.reset fun _ => 0)).1 16383 rfl
  exact hread (by decide)

end Stm32Dds.Scpi
