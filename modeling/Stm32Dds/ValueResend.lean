import Stm32Dds.RegisterSettings

set_option autoImplicit false

namespace Stm32Dds.Scpi
open BitFields Ad9910 Commands Rounding

/-- A printed value. Without a value the text is -inf, which is no number to
SCPI_ParamNumber. -/
structure Printed where
  value : Option ℝ
  unit : ScpiUnit

def Printed.resent (p : Printed) : Option (NumberOf ℝ) := p.value.map fun v => .plain v p.unit

noncomputable section

def scpiPrintFrequency (f : BitVec 32) : Printed := ⟨some (backconvertFrequency f),.hertz⟩

def scpiPrintAmplitude (a : BitVec 32) : Printed := ⟨backconvertAmplitude a,.dbm⟩

/-- Radian is one of the units no parser looks for. -/
def scpiPrintPhase (v : BitVec 32) : Printed := ⟨some (backconvertPhase v),.other⟩

/-- A destination without a case gives SCPI_RES_ERR and prints nothing. -/
def scpiPrintRamp (dev : Device) (value : BitVec 32) : Option Printed :=
  let dest := fieldValue Field.digitalRampDestination dev
  if dest = RampTarget.frequency.code then some (scpiPrintFrequency value)
  else if dest = RampTarget.phase.code then some (scpiPrintPhase value)
  else if dest = RampTarget.amplitude.code then some (scpiPrintAmplitude value)
  else none

def getProfileValue (profile : Nat) (f : RegisterBit) (s : Dds) : Option (BitVec 64) :=
  (f.reg.plus profile).map fun r => getField (s.regs r) f.bits f.offset

namespace RegisterSetting

/-- The eight query callbacks. The ramp rates are printed like frequencies. -/
def query (dev : Device) : RegisterSetting → Option Printed
  | .outputFrequency => do
    let freq ← getProfileValue 0 Field.profileFrequency dev.dds
    return scpiPrintFrequency (freq.setWidth 32)
  | .outputAmplitude => do
    let ampl ← getProfileValue 0 Field.profileAmplitude dev.dds
    return scpiPrintAmplitude (ampl.setWidth 32)
  | .rampBoundaryMinimum => scpiPrintRamp dev (fieldValue Field.rampLowerLimit dev)
  | .rampBoundaryMaximum => scpiPrintRamp dev (fieldValue Field.rampUpperLimit dev)
  | .rampStepUp => scpiPrintRamp dev (fieldValue Field.rampIncrementStep dev)
  | .rampStepDown => scpiPrintRamp dev (fieldValue Field.rampDecrementStep dev)
  | .rampRateUp => some (scpiPrintFrequency (fieldValue Field.rampPositiveRate dev))
  | .rampRateDown => some (scpiPrintFrequency (fieldValue Field.rampNegativeRate dev))

def Quantity.print (dev : Device) (word : BitVec 32) : Quantity → Option Printed
  | .frequency | .rampRate => some (scpiPrintFrequency word)
  | .amplitude => some (scpiPrintAmplitude word)
  | .ramp => scpiPrintRamp dev word

theorem query_eq (s : RegisterSetting) (dev : Device) :
    s.query dev = s.quantity.print dev (fieldValue s.field dev) := by
  cases s <;> rfl

def set {K : Type} [NatCast K] [LT K] [DecidableLT K] (s : RegisterSetting) (lay : Layout)
    (k : ConversionsOver K) (v : Option (NumberOf K)) (dev : Device) : ScpiResult × Device :=
  match s.quantity.param k v with
  | .error e => (.err,{ dev with errors := dev.errors ++ [e] })
  | .ok w => (.ok,processCommand lay dev (registerCommand lay s.field w))

end RegisterSetting

def realConversions : ConversionsOver ℝ := exactConversions id

/-- Setting a value, asking for it and setting what was printed: the second parameter is
accepted too, and the field has the same word before and after it. -/
def Resends (lay : Layout) (s : RegisterSetting) (v : ℝ) (unit : ScpiUnit) (dev : Device) : Prop :=
  let dev₁ := (s.set lay realConversions (some (.plain v unit)) dev).2
  ∃ p, s.query dev₁ = some p ∧
    (s.set lay realConversions p.resent dev₁).1 = .ok ∧
    getValue s.field (s.set lay realConversions p.resent dev₁).2.dds = getValue s.field dev₁.dds

def TargetMatches (s : RegisterSetting) (unit : ScpiUnit) (dev : Device) : Prop :=
  s.quantity = .ramp → fieldValue Field.digitalRampDestination dev =
    if unit = .hertz then RampTarget.frequency.code else RampTarget.amplitude.code

section Words
variable {w : BitVec 32}

theorem frequencyWord_backconvert (w : BitVec 32) : frequencyWord (backconvertFrequency w) = w.toNat := by
  have hexact : backconvertFrequency w/1000000000*(maxFrequency : ℝ) = w.toNat := by
    norm_num [backconvertFrequency,maxFrequency]
    ring
  rw [frequencyWord,hexact,nearbyint_natCast]

theorem param_backconvertFrequency (hw : w.toNat ≤ 1717986918) :
    inRange (backconvertFrequency w) ((0 : ℕ) : ℝ) ((400000000 : ℕ) : ℝ)
      (realConversions.convertFrequency (backconvertFrequency w)) = .ok w := by
  have hword : realConversions.convertFrequency (backconvertFrequency w) = w := by
    simp only [realConversions,exactConversions,frequencyWord_backconvert]
    simp
  have hreal : (w.toNat : ℝ) ≤ 1717986918 := by exact_mod_cast hw
  have hlow : ¬ backconvertFrequency w < ((0 : ℕ) : ℝ) := by
    rw [backconvertFrequency]
    push_cast
    exact not_lt.mpr (by positivity)
  have hhigh : ¬ backconvertFrequency w > ((400000000 : ℕ) : ℝ) := by
    norm_num [backconvertFrequency,maxFrequency]
    rw [div_le_iff₀ (by norm_num)]
    linarith
  rw [inRange,if_neg (not_or.mpr ⟨hlow,hhigh⟩),hword]

/-- The highest rate is printed as 1/65537 GHz, below the lowest that is accepted. -/
theorem param_rampRate_backconvert (hw : w.toNat ≤ 65535) :
    scpiParamRampRate realConversions (scpiPrintFrequency w).resent = .error .dataOutOfRange := by
  have hreal : (w.toNat : ℝ) ≤ 65535 := by exact_mod_cast hw
  have hlow : backconvertFrequency w < realConversions.lowestRampRate := by
    norm_num [backconvertFrequency,maxFrequency,realConversions,exactConversions]
    rw [div_lt_iff₀ (by norm_num)]
    linarith
  exact if_pos (.inl hlow)

theorem amplitudeWord_backconvert {a : ℕ} (ha : a ≠ 0) :
    amplitudeWord (20*Real.logb 10 (a/maxAmplitude)) = a := by
  have hpos : (0 : ℝ) < a/maxAmplitude :=
    div_pos (by exact_mod_cast Nat.pos_of_ne_zero ha) (by norm_num [maxAmplitude])
  have hexact : (10 : ℝ)^(20*Real.logb 10 (a/maxAmplitude)/20)*maxAmplitude = a := by
    rw [mul_div_cancel_left₀ _ (by norm_num),Real.rpow_logb (by norm_num) (by norm_num) hpos]
    norm_num [maxAmplitude]
  rw [amplitudeWord,hexact,nearbyint_natCast]

theorem backconvertAmplitude_zero {a : BitVec 32} (ha : a &&& 0x3FFF = 0) :
    backconvertAmplitude a = none := by
  simp only [backconvertAmplitude,ha]
  simp [log10]

theorem printAmplitude_resent (h : w &&& 0x3FFF ≠ 0) :
    ∃ x : ℝ, x ≤ 0 ∧ x = 20*Real.logb 10 ((w &&& 0x3FFF).toNat/maxAmplitude) ∧
      (scpiPrintAmplitude w).resent = some (.plain x .dbm) := by
  have hnat : (w &&& 0x3FFF).toNat ≠ 0 := fun hzero => h (BitVec.eq_of_toNat_eq hzero)
  have hsmall : (w &&& 0x3FFF).toNat ≤ maxAmplitude := by
    rw [BitVec.toNat_and]
    exact Nat.and_le_right
  have hreal : ((w &&& 0x3FFF).toNat : ℝ) ≤ maxAmplitude := by exact_mod_cast hsmall
  have hratio : ((w &&& 0x3FFF).toNat : ℝ)/maxAmplitude ≠ 0 :=
    div_ne_zero (by exact_mod_cast hnat) (by norm_num [maxAmplitude])
  refine ⟨_,?_,rfl,?_⟩
  · have hone : ((w &&& 0x3FFF).toNat : ℝ)/maxAmplitude ≤ 1 :=
      div_le_one_of_le₀ hreal (by positivity)
    have := Real.logb_nonpos (b := 10) (by norm_num) (by positivity) hone
    linarith
  · simp only [scpiPrintAmplitude,Printed.resent,backconvertAmplitude,log10,if_neg hratio,
      Option.map_some]

theorem printAmplitude_none (h : w &&& 0x3FFF = 0) : (scpiPrintAmplitude w).resent = none := by
  rw [Printed.resent,scpiPrintAmplitude,backconvertAmplitude_zero h]
  rfl

theorem param_backconvertAmplitude (hw : w.toNat ≤ 16383) (hne : w ≠ 0) :
    scpiParamAmplitude realConversions (scpiPrintAmplitude w).resent = .ok w := by
  have hmask : w &&& 0x3FFF = w := by
    apply BitVec.eq_of_toNat_eq
    rw [BitVec.toNat_and]
    exact Nat.and_two_pow_sub_one_of_lt_two_pow (n := 14) (by omega)
  have hnat : w.toNat ≠ 0 := fun h => hne (BitVec.eq_of_toNat_eq h)
  obtain ⟨x,hle,hx,hprinted⟩ := printAmplitude_resent (w := w) (by rwa [hmask])
  rw [hmask] at hx
  have hword : realConversions.convertAmplitude x = w := by
    simp only [realConversions,exactConversions,id,hx,amplitudeWord_backconvert hnat]
    rw [BitVec.ofInt_natCast,BitVec.ofNat_toNat,BitVec.setWidth_eq,BitVec.and_comm,hmask]
  have hrange : ¬ x > ((0 : ℕ) : ℝ) := by
    rw [Nat.cast_zero]
    exact not_lt.mpr hle
  rw [hprinted,scpiParamAmplitude,if_neg hrange,hword]

end Words

def RegisterSetting.written (s : RegisterSetting) (w : BitVec 32) (dev : Device) : Device :=
  { dev with dds := executeCommandRegister s.field w dev.dds }

section Resending
variable {lay : Layout} {s : RegisterSetting} {dev : Device} {w : BitVec 32}

theorem set_accepted (hlay : lay.env.field (lay.fieldAddr s.field) = s.field)
    (hmode : dev.mode ≠ .program) {n : Option (NumberOf ℝ)}
    (h : s.quantity.param realConversions n = .ok w) :
    s.set lay realConversions n dev = (.ok,s.written w dev) := by
  rw [RegisterSetting.set,h]
  exact congrArg (Prod.mk ScpiResult.ok) (processCommand_register hlay hmode w)

theorem getValue_written {n : Option (NumberOf ℝ)}
    (h : s.quantity.param realConversions n = .ok w) (dev : Device) :
    getValue s.field (s.written w dev).dds = w.setWidth 64 := by
  cases n with
  | none => exact absurd (h.symm.trans (param_none s.quantity)) (by simp)
  | some n =>
    have hholds := param_holds (fun _ hv => hv) s.quantity h
    rw [← s.bits_field] at hholds
    exact (hholds.getValue_execute dev.dds).1

theorem destination_written (s : RegisterSetting) (w : BitVec 32) (dev : Device) :
    fieldValue Field.digitalRampDestination (s.written w dev) =
      fieldValue Field.digitalRampDestination dev := by
  have hapart : s.field.Apart Field.digitalRampDestination := by cases s <;> decide
  exact congrArg (BitVec.setWidth 32) (getValue_setValue_apart hapart _ dev.dds)

theorem setWidth_injective {w w' : BitVec 32} (h : w.setWidth 64 = w'.setWidth 64) : w = w' := by
  have hback := congrArg (BitVec.setWidth 32) h
  simpa using hback

theorem resends_iff_param (hlay : lay.env.field (lay.fieldAddr s.field) = s.field)
    (hmode : dev.mode ≠ .program) {v : ℝ} {unit : ScpiUnit}
    (h : s.quantity.param realConversions (some (.plain v unit)) = .ok w) {p : Printed}
    (hp : s.quantity.print (s.written w dev) w = some p) :
    Resends lay s v unit dev ↔ s.quantity.param realConversions p.resent = .ok w := by
  have hfirst := getValue_written h dev
  have hmode' : (s.written w dev).mode ≠ .program := hmode
  have hquery : s.query (s.written w dev) = some p := by
    have hword : fieldValue s.field (s.written w dev) = w := by
      rw [fieldValue,hfirst]
      simp
    rw [s.query_eq,hword,hp]
  simp only [Resends,set_accepted hlay hmode h,hquery,Option.some.injEq,exists_eq_left']
  constructor
  · rintro ⟨hok,hsame⟩
    cases hparam : s.quantity.param realConversions p.resent with
    | error e =>
      rw [RegisterSetting.set,hparam] at hok
      cases hok
    | ok w' =>
      rw [set_accepted hlay hmode' hparam,hfirst,getValue_written hparam] at hsame
      rw [setWidth_injective hsame]
  · intro hparam
    rw [set_accepted hlay hmode' hparam,hfirst]
    exact ⟨rfl,getValue_written hparam _⟩

end Resending

/-- Hz come back for the settings whose query divides by the clock, and dBm for the
amplitude of the output unless it is rounded to 0. -/
def Recoverable (v : ℝ) : RegisterSetting.Quantity → ScpiUnit → Prop
  | .frequency, _ => True
  | .amplitude, _ => 0 < amplitudeWord v
  | .ramp, .hertz => True
  | .ramp, _ => False
  | .rampRate, _ => False

section Cases
variable {w : BitVec 32} {v : ℝ} {unit : ScpiUnit}

theorem frequency_word (h : inRange v ((0 : ℕ) : ℝ) ((400000000 : ℕ) : ℝ)
    (realConversions.convertFrequency v) = .ok w) : w.toNat ≤ 1717986918 := by
  obtain ⟨hlow,hhigh,_⟩ := inRange_ok h
  have hbetween := frequencyWord_between (f := v) (by simpa using hlow) (by simpa using hhigh)
  have hexact := (holds_frequency h).exact
  have := hbetween.2
  omega

/-- The low bits of an amplitude ramp are empty, so its query always sees 0. -/
theorem aligned_low_bits (a : BitVec 32) : (a <<< 18) &&& 0x3FFF = 0 := by
  apply BitVec.eq_of_getLsbD_eq
  intro i hi
  have hmask : (0x3FFF : BitVec 32).getLsbD i = decide (i < 14) := by
    have := getLsbD_fieldMask 32 14 i (by decide)
    simpa [fieldMask] using this
  rw [BitVec.getLsbD_and,BitVec.getLsbD_shiftLeft,hmask]
  simp only [BitVec.ofNat_eq_ofNat,BitVec.getLsbD_zero]
  by_cases hlow : i < 14
  · have : i < 18 := by omega
    simp [this]
  · simp [hlow]

variable {lay : Layout} {s : RegisterSetting} {dev : Device}
  (hlay : lay.env.field (lay.fieldAddr s.field) = s.field) (hmode : dev.mode ≠ .program)
include hlay hmode

theorem resends_hertz (h : inRange v ((0 : ℕ) : ℝ) ((400000000 : ℕ) : ℝ)
      (realConversions.convertFrequency v) = .ok w)
    (hparam : ∀ x, s.quantity.param realConversions (some (.plain x .hertz)) =
      inRange x ((0 : ℕ) : ℝ) ((400000000 : ℕ) : ℝ) (realConversions.convertFrequency x))
    (hprint : s.quantity.print (s.written w dev) w = some (scpiPrintFrequency w)) :
    Resends lay s v .hertz dev := by
  apply (resends_iff_param hlay hmode ((hparam v).trans h) hprint).mpr
  exact (hparam _).trans (param_backconvertFrequency (frequency_word h))

theorem resends_frequency_iff (hq : s.quantity = .frequency)
    (h : s.quantity.param realConversions (some (.plain v unit)) = .ok w)
    (hunit : unit = .hertz ∨ unit = .dbm) :
    Resends lay s v unit dev ↔ Recoverable v s.quantity unit := by
  obtain rfl | rfl := hunit
  · have hrange : inRange v ((0 : ℕ) : ℝ) ((400000000 : ℕ) : ℝ)
        (realConversions.convertFrequency v) = .ok w := by
      rwa [hq] at h
    rw [hq]
    exact iff_of_true (resends_hertz hlay hmode hrange (by rw [hq]; exact fun _ => rfl)
      (by rw [hq]; rfl)) trivial
  · rw [hq] at h
    cases h

theorem resends_amplitude_iff (hq : s.quantity = .amplitude)
    (h : s.quantity.param realConversions (some (.plain v unit)) = .ok w)
    (hunit : unit = .hertz ∨ unit = .dbm) :
    Resends lay s v unit dev ↔ Recoverable v s.quantity unit := by
  obtain rfl | rfl := hunit
  · rw [hq] at h
    cases h
  · have hprint : s.quantity.print (s.written w dev) w = some (scpiPrintAmplitude w) := by
      rw [hq]
      rfl
    rw [resends_iff_param hlay hmode h hprint,hq]
    rw [hq] at h
    have hholds := param_holds (fun _ hv => hv) .amplitude h
    have hexact : (w.toNat : ℤ) = amplitudeWord v := hholds.exact
    have hsmall : w.toNat ≤ 16383 := by
      have hlt : amplitudeWord v < 2^14 := hholds.fits.2
      omega
    constructor
    · intro hresent
      -- the word 0 is printed as -inf
      by_contra hzero
      rw [Recoverable] at hzero
      have hw : w = 0 := BitVec.eq_of_toNat_eq (by simp; omega)
      rw [hw] at hresent
      rw [printAmplitude_none (by decide)] at hresent
      cases hresent
    · intro hword
      rw [Recoverable] at hword
      apply param_backconvertAmplitude hsmall
      rintro rfl
      simp at hexact
      omega

theorem resends_ramp_iff (hq : s.quantity = .ramp) (htarget : TargetMatches s unit dev)
    (h : s.quantity.param realConversions (some (.plain v unit)) = .ok w)
    (hunit : unit = .hertz ∨ unit = .dbm) :
    Resends lay s v unit dev ↔ Recoverable v s.quantity unit := by
  have hdest := (destination_written s w dev).trans (htarget hq)
  obtain rfl | rfl := hunit
  · have hprint : s.quantity.print (s.written w dev) w = some (scpiPrintFrequency w) := by
      rw [hq]
      exact if_pos hdest
    have hrange : inRange v ((0 : ℕ) : ℝ) ((400000000 : ℕ) : ℝ)
        (realConversions.convertFrequency v) = .ok w := by
      rwa [hq] at h
    have hparam (x : ℝ) : s.quantity.param realConversions (some (.plain x .hertz)) =
        inRange x ((0 : ℕ) : ℝ) ((400000000 : ℕ) : ℝ) (realConversions.convertFrequency x) := by
      rw [hq]
      rfl
    rw [hq]
    exact iff_of_true (resends_hertz hlay hmode hrange hparam hprint) trivial
  · have hprint : s.quantity.print (s.written w dev) w = some (scpiPrintAmplitude w) := by
      simp only [hq,RegisterSetting.Quantity.print,scpiPrintRamp,hdest]
      rfl
    have hword : w &&& 0x3FFF = 0 := by
      rw [hq] at h
      simp only [RegisterSetting.Quantity.param,scpiParamRamp] at h
      split at h
      · cases h
      · rw [← Except.ok.inj h]
        exact aligned_low_bits _
    rw [resends_iff_param hlay hmode h hprint,printAmplitude_none hword,hq]
    exact iff_of_false (fun hresent => absurd (hresent.symm.trans (param_none .ramp)) (by simp)) id

theorem resends_rampRate_iff (hq : s.quantity = .rampRate)
    (h : s.quantity.param realConversions (some (.plain v unit)) = .ok w)
    (hunit : unit = .hertz ∨ unit = .dbm) :
    Resends lay s v unit dev ↔ Recoverable v s.quantity unit := by
  obtain rfl | rfl := hunit
  · have hprint : s.quantity.print (s.written w dev) w = some (scpiPrintFrequency w) := by
      rw [hq]
      rfl
    rw [resends_iff_param hlay hmode h hprint,hq]
    rw [hq] at h
    have hholds := param_holds (fun _ hv => hv) .rampRate h
    have hsmall : w.toNat ≤ 65535 := by
      have hlt := hholds.fits.2
      rw [← hholds.exact] at hlt
      simp only [RegisterSetting.Quantity.bits] at hlt
      omega
    exact iff_of_false (fun hresent => absurd (hresent.symm.trans (param_rampRate_backconvert hsmall))
      (by simp)) id
  · rw [hq] at h
    cases h

end Cases

/-- What the query answers now would be accepted as a parameter. -/
def AnswerAccepted (s : RegisterSetting) (dev : Device) : Prop :=
  ∃ p w, s.query dev = some p ∧ s.quantity.param realConversions p.resent = .ok w

/-- In program mode both commands are queued, and the query is about the word from before. -/
theorem resends_program_iff {lay : Layout} {s : RegisterSetting} {dev : Device}
    (hmode : dev.mode = .program) {v : ℝ} {unit : ScpiUnit} {w : BitVec 32}
    (h : s.quantity.param realConversions (some (.plain v unit)) = .ok w) :
    Resends lay s v unit dev ↔ AnswerAccepted s dev := by
  have hqueued : ∀ q n w', s.quantity.param realConversions n = .ok w' →
      ∃ q', s.set lay realConversions n { dev with queue := q } =
        (.ok,{ dev with queue := q' }) := by
    intro q n w' hn
    rw [RegisterSetting.set,hn]
    simp only [processCommand,hmode]
    exact ⟨_,rfl⟩
  obtain ⟨q,hq⟩ := hqueued dev.queue _ w h
  have hquery : s.query { dev with queue := q } = s.query dev := by cases s <;> rfl
  simp only [Resends,hq,hquery]
  constructor
  · rintro ⟨p,hp,hok,-⟩
    cases hparam : s.quantity.param realConversions p.resent with
    | error e =>
      rw [RegisterSetting.set,hparam] at hok
      cases hok
    | ok w' => exact ⟨p,w',hp,hparam⟩
  · rintro ⟨p,w',hp,hparam⟩
    obtain ⟨q',hq'⟩ := hqueued q _ w' hparam
    refine ⟨p,hp,?_,?_⟩
    · rw [hq']
    · rw [hq']

/-- The words that are printed as something the parser of the setting accepts: 1717986918
is 400 MHz, and an amplitude is printed from the low 14 bits. A phase is printed in a unit
that no parser takes, and a rate as a frequency below the lowest rate. -/
def RegisterSetting.Quantity.Answerable (dest word : BitVec 32) : RegisterSetting.Quantity → Prop
  | .frequency => word.toNat ≤ 1717986918
  | .amplitude => word &&& 0x3FFF ≠ 0
  | .ramp => dest = RampTarget.frequency.code ∧ word.toNat ≤ 1717986918 ∨
      dest = RampTarget.amplitude.code ∧ word &&& 0x3FFF ≠ 0
  | .rampRate => False

section Answers
variable {w : BitVec 32}

theorem frequency_accepted_iff :
    (∃ w', inRange (backconvertFrequency w) ((0 : ℕ) : ℝ) ((400000000 : ℕ) : ℝ)
      (realConversions.convertFrequency (backconvertFrequency w)) = .ok w') ↔
      w.toNat ≤ 1717986918 := by
  constructor
  · rintro ⟨w',h⟩
    obtain ⟨-,hhigh,-⟩ := inRange_ok h
    norm_num [backconvertFrequency,maxFrequency] at hhigh
    rw [div_le_iff₀ (by norm_num)] at hhigh
    have hreal : (w.toNat : ℝ) ≤ (1717986918 : ℕ) := by
      push_cast
      linarith
    exact_mod_cast hreal
  · intro h
    exact ⟨w,param_backconvertFrequency h⟩

theorem amplitude_accepted_iff {q : RegisterSetting.Quantity} (hq : q = .amplitude ∨ q = .ramp) :
    (∃ w', q.param realConversions (scpiPrintAmplitude w).resent = .ok w') ↔
      w &&& 0x3FFF ≠ 0 := by
  by_cases h : w &&& 0x3FFF = 0
  · rw [printAmplitude_none h]
    refine iff_of_false ?_ (not_not.mpr h)
    rintro ⟨w',hw'⟩
    exact absurd (hw'.symm.trans (param_none q)) (by simp)
  · obtain ⟨x,hle,-,hprinted⟩ := printAmplitude_resent h
    have hrange : ¬ x > ((0 : ℕ) : ℝ) := by
      rw [Nat.cast_zero]
      exact not_lt.mpr hle
    rw [hprinted]
    refine iff_of_true ?_ h
    obtain rfl | rfl := hq
    · exact ⟨_,if_neg hrange⟩
    · exact ⟨_,if_neg hrange⟩

theorem accepted_ramp_iff (dev : Device) :
    (∃ p w', scpiPrintRamp dev w = some p ∧ scpiParamRamp realConversions p.resent = .ok w') ↔
      RegisterSetting.Quantity.ramp.Answerable (fieldValue Field.digitalRampDestination dev) w := by
  rw [scpiPrintRamp,RegisterSetting.Quantity.Answerable]
  generalize fieldValue Field.digitalRampDestination dev = dest
  split
  next hdest =>
    have hother : RampTarget.frequency.code ≠ RampTarget.amplitude.code := by decide
    simp only [Option.some.injEq,exists_eq_left',hdest,hother,true_and,false_and,or_false,
      exists_and_left]
    exact frequency_accepted_iff
  next hfrequency =>
    split
    next hdest =>
      -- radians
      subst hdest
      have hother : RampTarget.phase.code ≠ RampTarget.amplitude.code := by decide
      simp only [hfrequency,hother,false_and,or_self,iff_false]
      rintro ⟨p,w',hp,hparam⟩
      rw [← Option.some.inj hp] at hparam
      cases hparam
    next =>
      split
      next hdest =>
        subst hdest
        simp only [Option.some.injEq,exists_eq_left',hfrequency,true_and,false_and,false_or,
          exists_and_left]
        exact amplitude_accepted_iff (.inr rfl)
      next hamplitude => simp [hfrequency,hamplitude]

theorem fieldValue_rate {s : RegisterSetting} (hs : s.quantity = .rampRate) (dev : Device) :
    (fieldValue s.field dev).toNat ≤ 65535 := by
  have hbits : s.field.bits = 16 := by rw [s.bits_field,hs]; rfl
  have hlt : (getValue s.field dev.dds).toNat < 2^s.field.bits :=
    getField_lt _ _ _ (by rw [hbits]; decide)
  rw [hbits] at hlt
  have hle : (fieldValue s.field dev).toNat ≤ (getValue s.field dev.dds).toNat := by
    rw [fieldValue,BitVec.toNat_setWidth]
    exact Nat.mod_le _ _
  omega

theorem answerAccepted_iff (s : RegisterSetting) (dev : Device) :
    AnswerAccepted s dev ↔ s.quantity.Answerable
      (fieldValue Field.digitalRampDestination dev) (fieldValue s.field dev) := by
  rw [AnswerAccepted,s.query_eq]
  cases hq : s.quantity with
  | frequency =>
    simp only [RegisterSetting.Quantity.print,Option.some.injEq,exists_eq_left',exists_and_left]
    exact frequency_accepted_iff
  | amplitude =>
    simp only [RegisterSetting.Quantity.print,Option.some.injEq,exists_eq_left',exists_and_left]
    exact amplitude_accepted_iff (.inl rfl)
  | ramp => exact accepted_ramp_iff dev
  | rampRate =>
    refine iff_of_false ?_ id
    rintro ⟨p,w',hp,hparam⟩
    rw [← Option.some.inj hp] at hparam
    exact absurd (hparam.symm.trans (param_rampRate_backconvert (fieldValue_rate hq dev)))
      (by simp)

end Answers

theorem resends_iff (lay : Layout) (s : RegisterSetting)
    (hlay : lay.env.field (lay.fieldAddr s.field) = s.field) (dev : Device) (v : ℝ)
    (unit : ScpiUnit) (hunit : unit = .hertz ∨ unit = .dbm) (htarget : TargetMatches s unit dev)
    (w : BitVec 32) (h : s.quantity.param realConversions (some (.plain v unit)) = .ok w) :
    Resends lay s v unit dev ↔
      if dev.mode = .program then
        s.quantity.Answerable (fieldValue Field.digitalRampDestination dev) (fieldValue s.field dev)
      else Recoverable v s.quantity unit := by
  by_cases hmode : dev.mode = .program
  · rw [if_pos hmode,← answerAccepted_iff]
    exact resends_program_iff hmode h
  · rw [if_neg hmode]
    cases hq : s.quantity with
    | frequency => exact hq ▸ resends_frequency_iff hlay hmode hq h hunit
    | amplitude => exact hq ▸ resends_amplitude_iff hlay hmode hq h hunit
    | ramp => exact hq ▸ resends_ramp_iff hlay hmode hq htarget h hunit
    | rampRate => exact hq ▸ resends_rampRate_iff hlay hmode hq h hunit

theorem resends_hundred_megahertz :
    Resends (Layout.only Field.profileFrequency) .outputFrequency 100000000 .hertz
      (Device.reset fun _ => 0) ∧
    Resends (Layout.only Field.profileFrequency) .outputFrequency 100000000 .hertz
      { Device.reset fun _ => 0 with mode := .program } := by
  have hparam : RegisterSetting.outputFrequency.quantity.param realConversions
      (some (.plain 100000000 .hertz)) = .ok (realConversions.convertFrequency 100000000) :=
    if_neg (by norm_num)
  constructor
  · exact (resends_iff (Layout.only Field.profileFrequency) .outputFrequency rfl
      (Device.reset fun _ => 0) 100000000 .hertz (.inl rfl) (by intro h; cases h) _ hparam).mpr
        (by rw [if_neg (by decide)]; trivial)
  · exact (resends_iff (Layout.only Field.profileFrequency) .outputFrequency rfl
      { Device.reset fun _ => 0 with mode := .program } 100000000 .hertz (.inl rfl)
      (by intro h; cases h) _ hparam).mpr
        (by rw [if_pos rfl]; exact show (_ : Nat) ≤ _ by decide +kernel)

/-- A ramp rate of 1 MHz is set as 1000 and printed as 232.8 Hz, which is refused. -/
theorem ramp_rate_not_resent :
    scpiParamRampRate realConversions (some (.plain 1000000 .hertz)) = .ok 1000 ∧
    ¬ Resends (Layout.only Field.rampPositiveRate) .rampRateUp 1000000 .hertz
      (Device.reset fun _ => 0) := by
  have hword : rampRateWord (1000000 : ℝ) = 1000 := by
    have hquotient : (1000000000 : ℝ)/1000000 = ((1000 : ℤ) : ℝ) := by norm_num
    rw [rampRateWord,hquotient,nearbyint_intCast]
  have hparam : scpiParamRampRate realConversions (some (.plain 1000000 .hertz)) = .ok 1000 := by
    have hrange : ¬ ((1000000 : ℝ) < realConversions.lowestRampRate ∨
        (1000000 : ℝ) > ((1000000000 : ℕ) : ℝ)) := by
      norm_num [realConversions,exactConversions]
    rw [scpiParamRampRate,inRange,if_neg hrange]
    simp only [realConversions,exactConversions,hword]
    rfl
  have hiff : Resends (Layout.only Field.rampPositiveRate) .rampRateUp 1000000 .hertz
      (Device.reset fun _ => 0) ↔ False :=
    resends_rampRate_iff (s := .rampRateUp) rfl (by decide) rfl hparam (.inl rfl)
  exact ⟨hparam,hiff.mp⟩

end

end Stm32Dds.Scpi
