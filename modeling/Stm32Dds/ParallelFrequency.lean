import Stm32Dds.ScpiCallbacks
import Stm32Dds.Rounding

/-! PARallel:FREQuency and the timer it programs, with exact numbers in place of
floats. The timer counts half the processor clock and starts over after period + 1
ticks. -/

set_option autoImplicit false

namespace Stm32Dds.Ad9910
open Rounding

def coreClockSpeed : Nat := 168000000

/-- The ticks between two updates, before and after they are stored in 32 bits. -/
def parallelTicks (freq : ℚ) : ℤ := nearbyint (((coreClockSpeed/2 : Nat) : ℚ)/freq)

def parallelInterval (freq : ℚ) : BitVec 32 := BitVec.ofInt 32 (parallelTicks freq)

/-- ad9910_set_parallel_frequency: what goes into the auto-reload register. -/
def parallelPeriod (freq : ℚ) : BitVec 32 := parallelInterval freq-1

def getParallelFrequency (arr : BitVec 32) : ℚ := ((coreClockSpeed/2 : Nat) : ℚ)/(arr+1).toNat

structure TimerFrequency (freq : ℚ) : Prop where
  positive : 0 < freq
  highest : freq ≤ 1000000
  ticks : parallelTicks freq ≤ 2^32-1

theorem TimerFrequency.fitsWord {freq : ℚ} (h : TimerFrequency freq) :
    84 ≤ parallelTicks freq ∧ FitsWord 32 (parallelTicks freq) := by
  have hquotient : ((84 : ℤ) : ℚ) ≤ ((coreClockSpeed/2 : Nat) : ℚ)/freq := by
    rw [le_div_iff₀ h.positive]
    have hclock : ((coreClockSpeed/2 : Nat) : ℚ) = 84000000 := by norm_num [coreClockSpeed]
    rw [hclock]
    push_cast
    linarith [h.highest]
  have hlow : 84 ≤ parallelTicks freq := le_nearbyint hquotient
  have hhigh := h.ticks
  exact ⟨hlow,by omega,by omega⟩

theorem TimerFrequency.interval_toNat {freq : ℚ} (h : TimerFrequency freq) :
    ((parallelInterval freq).toNat : ℤ) = parallelTicks freq :=
  toNat_ofInt_of_fits h.fitsWord.2

theorem TimerFrequency.period_toNat {freq : ℚ} (h : TimerFrequency freq) :
    (parallelPeriod freq).toNat+1 = (parallelInterval freq).toNat := by
  have hticks := h.interval_toNat
  have hlow := h.fitsWord.1
  have hlt := (parallelInterval freq).isLt
  rw [parallelPeriod,BitVec.toNat_sub]
  simp only [BitVec.ofNat_eq_ofNat,BitVec.toNat_ofNat]
  omega

theorem TimerFrequency.queried {freq : ℚ} (h : TimerFrequency freq) :
    getParallelFrequency (parallelPeriod freq) =
      ((coreClockSpeed/2 : Nat) : ℚ)/parallelTicks freq := by
  have hback : parallelPeriod freq+1 = parallelInterval freq := by
    rw [parallelPeriod]
    exact BitVec.sub_add_cancel _ _
  rw [getParallelFrequency,hback,← h.interval_toNat]
  push_cast
  rfl

end Stm32Dds.Ad9910

namespace Stm32Dds.Scpi
open Ad9910 Rounding

/-- The members of scpi_number_t that the callback looks at. In a mnemonic the value is
whatever the union holds. -/
structure RawNumber where
  special : Bool
  value : ℚ
  unit : ScpiUnit
  deriving DecidableEq

/-- What SCPI_ParamNumber stores for a number. -/
inductive Stores : ScpiNumber → RawNumber → Prop
  | special (tag : SpecialTag) (value : ℚ) : Stores (.special tag) ⟨true,value,.none⟩
  | plain (value : ℚ) (unit : ScpiUnit) : Stores (.plain value unit) ⟨false,value,unit⟩

/-- The tests of scpi_callback_parallel_frequency; the result is what is programmed. -/
def scpiCallbackParallelFrequency (n : RawNumber) : Except ScpiError ℚ :=
  if !n.special || n.unit ≠ .hertz then .error .illegalParameterValue
  else if n.value < 0 ∨ n.value > 1000000 then .error .dataOutOfRange
  else .ok n.value

/-- Nothing that SCPI_ParamNumber can store gets past the first test. -/
theorem scpiCallbackParallelFrequency_stores {n : ScpiNumber} {r : RawNumber} (h : Stores n r) :
    scpiCallbackParallelFrequency r = .error .illegalParameterValue ∧
      ∀ (lay : Layout) (k : Conversions) (p : Parallel),
        (Callback.parallelFrequency (some n)).commands lay k p = .error .illegalParameterValue := by
  cases h with
  | special tag value => exact ⟨rfl,fun _ _ _ => rfl⟩
  | plain value unit => exact ⟨rfl,fun _ _ _ => rfl⟩

def RawNumber.Accepted (n : RawNumber) : Prop := scpiCallbackParallelFrequency n = .ok n.value

structure RawNumber.Valid (n : RawNumber) : Prop where
  number : n.special = false
  unit : n.unit = .hertz
  frequency : TimerFrequency n.value

/-- A mnemonic in Hz that holds a value in the range. -/
def RawNumber.Misread (n : RawNumber) : Prop :=
  n.special = true ∧ n.unit = .hertz ∧ 0 ≤ n.value ∧ n.value ≤ 1000000

theorem accepted_iff_misread (n : RawNumber) : n.Accepted ↔ n.Misread := by
  rw [RawNumber.Accepted,scpiCallbackParallelFrequency,RawNumber.Misread]
  split
  · rename_i htest
    constructor
    · intro h
      cases h
    · rintro ⟨hspecial,hunit,_⟩
      simp [hspecial,hunit] at htest
  · rename_i htest
    have hparts : n.special = true ∧ n.unit = .hertz := by simpa using htest
    split
    · rename_i hrange
      constructor
      · intro h
        cases h
      · rintro ⟨_,_,hlow,hhigh⟩
        rcases hrange with h | h
        · exact absurd hlow (not_le.mpr h)
        · exact absurd hhigh (not_le.mpr h)
    · rename_i hrange
      rw [not_or,not_lt,gt_iff_lt,not_lt] at hrange
      exact ⟨fun _ => ⟨hparts.1,hparts.2,hrange.1,hrange.2⟩,fun _ => rfl⟩

theorem parallel_frequency_exact_iff (n : RawNumber) :
    ((n.Accepted ↔ n.Valid) ↔ ¬ n.Valid ∧ ¬ n.Misread) ∧
    ∀ freq, TimerFrequency freq → freq ≠ 0 ∧
      ((parallelPeriod freq).toNat : ℤ) = parallelTicks freq-1 ∧
      getParallelFrequency (parallelPeriod freq) =
        ((coreClockSpeed/2 : Nat) : ℚ)/parallelTicks freq := by
  constructor
  · rw [accepted_iff_misread]
    have hdisjoint : n.Valid → ¬ n.Misread := by
      intro hvalid hmisread
      exact absurd (hvalid.number.symm.trans hmisread.1) Bool.noConfusion
    tauto
  · intro freq h
    have hperiod := h.period_toNat
    have hticks := h.interval_toNat
    exact ⟨h.positive.ne',by omega,h.queried⟩

theorem timerFrequency_thousand : TimerFrequency 1000 := by
  have hticks : parallelTicks 1000 = 84000 := by
    have hquotient : ((coreClockSpeed/2 : Nat) : ℚ)/1000 = ((84000 : ℤ) : ℚ) := by
      norm_num [coreClockSpeed]
    rw [parallelTicks,hquotient,nearbyint_intCast]
  exact ⟨by norm_num,by norm_num,by rw [hticks]; norm_num⟩

theorem parallel_frequency_thousand : (1000 : ℚ) ≠ 0 ∧
    ((parallelPeriod 1000).toNat : ℤ) = parallelTicks 1000-1 ∧
    getParallelFrequency (parallelPeriod 1000) =
      ((coreClockSpeed/2 : Nat) : ℚ)/parallelTicks 1000 :=
  (parallel_frequency_exact_iff ⟨false,1000,.hertz⟩).2 1000 timerFrequency_thousand

/-- One kilohertz, in any spelling, is answered with an error. -/
theorem one_kilohertz_refused :
    RawNumber.Valid ⟨false,1000,.hertz⟩ ∧ ¬ RawNumber.Accepted ⟨false,1000,.hertz⟩ ∧
    scpiCallbackParallelFrequency ⟨false,1000,.hertz⟩ = .error .illegalParameterValue := by
  have hrefused := (scpiCallbackParallelFrequency_stores (.plain 1000 .hertz)).1
  refine ⟨⟨rfl,rfl,timerFrequency_thousand⟩,?_,hrefused⟩
  rw [accepted_iff_misread]
  exact fun h => absurd h.1 Bool.noConfusion

end Stm32Dds.Scpi
