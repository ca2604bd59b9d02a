import Stm32Dds.ScpiCallbacks
import Stm32Dds.Rounding

/-! Frequencies in Hz, amplitudes in dBm and ramp rates as the words that stand for
them, and back. The conversions of ad9910.c and scpi.c over exact numbers: K holds
the parameter, and the power of ten is a real number. -/

set_option autoImplicit false

namespace Stm32Dds.Scpi
open Ad9910 Rounding

section
variable {K : Type} [Field K] [LinearOrder K] [FloorRing K]

/-- ad9910_convert_frequency before it is stored in 32 bits. -/
def frequencyWord (f : K) : ℤ := nearbyint (f/1000000000*maxFrequency)

/-- The rate of scpi_param_ramp_rate before it is stored in 32 bits. -/
def rampRateWord (f : K) : ℤ := nearbyint (1000000000/f)

end

/-- ad9910_convert_amplitude before it is stored in 32 bits and masked. -/
noncomputable def amplitudeWord (f : ℝ) : ℤ := nearbyint ((10 : ℝ)^(f/20)*maxAmplitude)

noncomputable def exactConversions {K : Type} [Field K] [LinearOrder K] [FloorRing K]
    (toReal : K → ℝ) : ConversionsOver K where
  toUInt32 v := BitVec.ofInt 32 (truncate v)
  convertFrequency f := BitVec.ofInt 32 (frequencyWord f)
  convertAmplitude f := 0x3FFF &&& BitVec.ofInt 32 (amplitudeWord (toReal f))
  rampRate f := BitVec.ofInt 32 (rampRateWord f)
  lowestRampRate := 1000000000/65535
  milliseconds v := BitVec.ofInt 32 (truncate (v*1000))

noncomputable section

/-- log10f on numbers that are not negative. -/
def log10 (x : ℝ) : Option ℝ := if x = 0 then none else some (Real.logb 10 x)

def backconvertFrequency (f : BitVec 32) : ℝ := f.toNat*1000000000/maxFrequency

def backconvertAmplitude (a : BitVec 32) : Option ℝ :=
  (log10 ((a &&& 0x3FFF).toNat/maxAmplitude)).map fun x => 20*x

def backconvertPhase (v : BitVec 32) : ℝ := (2 : ℕ)*Real.pi*(v &&& 0xFFFF).toNat/65535

end

section
variable {K : Type} [Field K] [LinearOrder K] [FloorRing K] [IsStrictOrderedRing K]

def Between (low high z : ℤ) : Prop := low ≤ z ∧ z ≤ high

theorem Between.fitsWord {low high z : ℤ} (h : Between low high z) {w : ℕ} (hlow : 0 ≤ low)
    (hhigh : high < 2^w) : FitsWord w z :=
  ⟨hlow.trans h.1,h.2.trans_lt hhigh⟩

/-- 400 MHz are two fifths of the clock, a whole number of steps. -/
theorem frequencyWord_between {f : K} (hlow : 0 ≤ f) (hhigh : f ≤ 400000000) :
    Between 0 1717986918 (frequencyWord f) := by
  have hscaled : f/1000000000*(maxFrequency : K) = f*(4294967295/1000000000) := by
    norm_num [maxFrequency]
    ring
  rw [frequencyWord,hscaled]
  constructor
  · apply le_nearbyint
    push_cast
    positivity
  · apply nearbyint_le
    push_cast
    linarith

theorem frequencyWord_four_hundred : Between 0 1717986918 (frequencyWord (400000000 : K)) :=
  frequencyWord_between (by norm_num) le_rfl

theorem amplitudeWord_between {f : ℝ} (hf : f ≤ 0) : Between 0 16383 (amplitudeWord f) := by
  have hpos : 0 ≤ (10 : ℝ)^(f/20) := Real.rpow_nonneg (by norm_num) _
  have hone : (10 : ℝ)^(f/20) ≤ 1 :=
    Real.rpow_le_one_of_one_le_of_nonpos (by norm_num) (by linarith)
  constructor
  · apply le_nearbyint
    push_cast
    positivity
  · apply nearbyint_le
    norm_num [maxAmplitude]
    linarith

theorem rampRateWord_between {f : K} (hlow : 1000000000/65535 ≤ f) (hhigh : f ≤ 1000000000) :
    Between 1 65535 (rampRateWord f) := by
  have hpos : 0 < f := lt_of_lt_of_le (by norm_num) hlow
  constructor
  · apply le_nearbyint
    rw [le_div_iff₀ hpos]
    push_cast
    linarith
  · apply nearbyint_le
    rw [div_le_iff₀ hpos]
    push_cast
    linarith

theorem truncate_between {v : K} {high : ℕ} (hlow : 0 ≤ v) (hhigh : v ≤ high) :
    Between 0 high (truncate v) := by
  rw [truncate_of_nonneg hlow]
  refine ⟨Int.floor_nonneg.mpr hlow,?_⟩
  have hle : (⌊v⌋ : K) ≤ ((high : ℤ) : K) := (Int.floor_le v).trans (by exact_mod_cast hhigh)
  exact_mod_cast hle

end

theorem amplitude_masked {z : ℤ} (h : Between 0 16383 z) :
    ((0x3FFF &&& BitVec.ofInt 32 z : BitVec 32).toNat : ℤ) = z := by
  have hword := toNat_ofInt_of_fits (h.fitsWord (w := 32) le_rfl (by norm_num))
  have hsmall : (BitVec.ofInt 32 z).toNat < 2^14 := by
    have := h.2
    omega
  have hmask : (0x3FFF &&& BitVec.ofInt 32 z : BitVec 32).toNat = (BitVec.ofInt 32 z).toNat := by
    rw [BitVec.toNat_and,Nat.and_comm]
    exact Nat.and_two_pow_sub_one_of_lt_two_pow (n := 14) hsmall
  rw [hmask,hword]

theorem amplitude_aligned {z : ℤ} (h : Between 0 16383 z) :
    (((0x3FFF &&& BitVec.ofInt 32 z : BitVec 32) <<< 18).toNat : ℤ) = z*2^18 := by
  have hword := amplitude_masked h
  have hsmall := h.2
  rw [BitVec.toNat_shiftLeft,Nat.shiftLeft_eq,Nat.mod_eq_of_lt (by omega),Nat.cast_mul,hword]
  norm_num

end Stm32Dds.Scpi
