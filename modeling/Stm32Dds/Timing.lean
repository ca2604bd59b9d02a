import Mathlib

set_option autoImplicit false

namespace Stm32Dds.Timing

def systemtickPeriodMs : Nat := 1

def timeUpdate (localTime : BitVec 32) : BitVec 32 := localTime + BitVec.ofNat 32 systemtickPeriodMs

theorem timeUpdate_add (localTime : BitVec 32) (ms : Nat) :
    timeUpdate (localTime + BitVec.ofNat 32 ms) =
      localTime + BitVec.ofNat 32 (ms+systemtickPeriodMs) := by
  rw [timeUpdate,BitVec.ofNat_add,BitVec.add_assoc]

/-- While delay waits, either the interrupt comes or the loop looks at LocalTime. -/
inductive Event
  | tick
  | sample
  deriving DecidableEq, Repr

structure Delay where
  localTime : BitVec 32
  timingdelay : BitVec 32
  returned : Bool

def Delay.call (localTime nCount : BitVec 32) : Delay := ⟨localTime,localTime+nCount,false⟩

def Delay.step (d : Delay) : Event → Delay
  | .tick => { d with localTime := timeUpdate d.localTime }
  | .sample => { d with returned := d.returned || !decide (d.timingdelay > d.localTime) }

/-- The order in which ticks and samples come. The loop is fast enough to see every tick. -/
structure Interleaving where
  event : Nat → Event
  sampled : ∀ k, event k = .tick → event (k+1) = .sample

namespace Interleaving
variable (r : Interleaving)

def elapsed : Nat → Nat
  | 0 => 0
  | k+1 => if r.event k = .tick then elapsed k + systemtickPeriodMs else elapsed k

def after (localTime nCount : BitVec 32) : Nat → Delay
  | 0 => .call localTime nCount
  | k+1 => (after localTime nCount k).step (r.event k)

/-- The call has returned as soon as there was a sample at which its time was over. -/
def Exact (localTime nCount : BitVec 32) : Prop :=
  ∀ k, (r.after localTime nCount k).returned = true ↔
    ∃ j < k, r.event j = .sample ∧ nCount.toNat ≤ r.elapsed j

theorem elapsed_tick {k : Nat} (h : r.event k = .tick) : r.elapsed (k+1) = r.elapsed k + 1 := by
  rw [elapsed,if_pos h,systemtickPeriodMs]

theorem elapsed_sample {k : Nat} (h : r.event k = .sample) : r.elapsed (k+1) = r.elapsed k := by
  rw [elapsed,if_neg (by rw [h]; decide)]

theorem elapsed_mono : Monotone r.elapsed := by
  apply monotone_nat_of_le_succ
  intro k
  cases h : r.event k with
  | tick => rw [r.elapsed_tick h]; exact Nat.le_succ _
  | sample => rw [r.elapsed_sample h]

theorem elapsed_one_le : r.elapsed 1 ≤ 1 := by
  cases h : r.event 0 with
  | tick => rw [r.elapsed_tick h,elapsed]
  | sample => rw [r.elapsed_sample h,elapsed]; exact Nat.zero_le _

theorem exists_first_sample :
    ∃ f, r.event f = .sample ∧ r.elapsed f = r.elapsed 1 ∧ ∀ j, r.event j = .sample → f ≤ j := by
  cases h : r.event 0 with
  | sample => exact ⟨0,h,(r.elapsed_sample h).symm,fun _ _ => Nat.zero_le _⟩
  | tick =>
    refine ⟨1,r.sampled 0 h,rfl,?_⟩
    intro j hj
    cases j with
    | zero => rw [h] at hj; cases hj
    | succ j => exact Nat.le_add_left 1 j

/-- At the first sample with enough time it is just enough, except that a tick may come
before a call with nothing to wait for looks at the time. -/
theorem exists_first_due {n j : Nat} (hj : r.event j = .sample) (hn : n ≤ r.elapsed j) :
    ∃ i ≤ j, r.event i = .sample ∧ (r.elapsed i = n ∨ n = 0 ∧ r.elapsed i = r.elapsed 1) := by
  induction j using Nat.strong_induction_on with
  | _ j ih =>
    have hearlier : ∀ i < j, r.event i = .sample → n ≤ r.elapsed i → ∃ i ≤ j, r.event i = .sample ∧
        (r.elapsed i = n ∨ n = 0 ∧ r.elapsed i = r.elapsed 1) := by
      intro i hi hs hdue
      obtain ⟨k,hk,hfound⟩ := ih i hi hs hdue
      exact ⟨k,hk.trans hi.le,hfound⟩
    cases j with
    | zero => exact ⟨0,le_rfl,hj,.inl (Nat.le_zero.mp hn).symm⟩
    | succ j =>
      cases hlast : r.event j with
      | sample =>
        rw [r.elapsed_sample hlast] at hn
        exact hearlier j (Nat.lt_succ_self j) hlast hn
      | tick =>
        cases j with
        | zero =>
          have hone := r.elapsed_one_le
          rw [Nat.zero_add] at hn
          exact ⟨1,le_rfl,hj,by omega⟩
        | succ j =>
          -- the sample before this one is one tick earlier
          cases hbefore : r.event j with
          | tick => rw [r.sampled j hbefore] at hlast; cases hlast
          | sample =>
            have hnow := r.elapsed_tick hlast
            rw [r.elapsed_sample hbefore] at hnow
            by_cases hdue : n ≤ r.elapsed j
            · exact hearlier j (by omega) hbefore hdue
            · exact ⟨j+1+1,le_rfl,hj,.inl (by omega)⟩

section
variable (localTime nCount : BitVec 32)

theorem after_timingdelay (k : Nat) :
    (r.after localTime nCount k).timingdelay = localTime+nCount := by
  induction k with
  | zero => rfl
  | succ k ih =>
    rw [after]
    cases r.event k <;> exact ih

theorem after_localTime (k : Nat) :
    (r.after localTime nCount k).localTime = localTime + BitVec.ofNat 32 (r.elapsed k) := by
  induction k with
  | zero => simp [after,Delay.call,elapsed]
  | succ k ih =>
    rw [after,elapsed]
    cases r.event k with
    | tick =>
      rw [if_pos rfl,← timeUpdate_add,← ih]
      rfl
    | sample => exact ih

/-- The loop ends at sample j, as the 32 bit comparison sees it. -/
def Passed (j : Nat) : Prop :=
  (localTime.toNat+nCount.toNat) % 2^32 ≤ (localTime.toNat + r.elapsed j) % 2^32

theorem returned_iff (k : Nat) : (r.after localTime nCount k).returned = true ↔
    ∃ j < k, r.event j = .sample ∧ r.Passed localTime nCount j := by
  induction k with
  | zero => simp [after,Delay.call]
  | succ k ih =>
    have hpassed : ¬ (r.after localTime nCount k).timingdelay >
        (r.after localTime nCount k).localTime ↔ r.Passed localTime nCount k := by
      rw [after_timingdelay,after_localTime,gt_iff_lt,BitVec.not_lt,BitVec.le_def,BitVec.toNat_add,
        BitVec.toNat_add,BitVec.toNat_ofNat,Nat.add_mod_mod,Passed]
    rw [after]
    cases h : r.event k with
    | tick =>
      rw [Delay.step,ih]
      constructor
      · rintro ⟨j,hj,hfound⟩
        exact ⟨j,hj.trans (Nat.lt_succ_self k),hfound⟩
      · rintro ⟨j,hj,hs,hp⟩
        have hne : j ≠ k := fun he => by rw [he,h] at hs; cases hs
        exact ⟨j,by omega,hs,hp⟩
    | sample =>
      simp only [Delay.step,Bool.or_eq_true,Bool.not_eq_true',decide_eq_false_iff_not,ih,hpassed]
      constructor
      · rintro (⟨j,hj,hfound⟩ | hp)
        · exact ⟨j,hj.trans (Nat.lt_succ_self k),hfound⟩
        · exact ⟨k,Nat.lt_succ_self k,h,hp⟩
      · rintro ⟨j,hj,hs,hp⟩
        obtain hlt | rfl := Nat.lt_succ_iff_lt_or_eq.mp hj
        · exact .inl ⟨j,hlt,hs,hp⟩
        · exact .inr hp

/-- Both the deadline and the first sample are before the wrap, or both are behind it. -/
def SameSide : Prop :=
  localTime.toNat+nCount.toNat < 2^32 ↔ localTime.toNat + r.elapsed 1 < 2^32

end

variable {r} {localTime nCount : BitVec 32}

theorem SameSide.due_of_passed (h : r.SameSide localTime nCount) {j : Nat}
    (hj : r.event j = .sample) (hp : r.Passed localTime nCount j) : nCount.toNat ≤ r.elapsed j := by
  obtain ⟨f,-,hf,hfirst⟩ := r.exists_first_sample
  have hmono := r.elapsed_mono (hfirst j hj)
  unfold SameSide at h
  unfold Passed at hp
  omega

theorem SameSide.passed_of_due (h : r.SameSide localTime nCount) {j : Nat}
    (hj : r.event j = .sample) (hn : nCount.toNat ≤ r.elapsed j) :
    ∃ i ≤ j, r.event i = .sample ∧ r.Passed localTime nCount i := by
  obtain ⟨i,hi,hs,hdue | ⟨hzero,hearly⟩⟩ := r.exists_first_due hj hn
  · refine ⟨i,hi,hs,?_⟩
    rw [Passed,hdue]
  · refine ⟨i,hi,hs,?_⟩
    unfold SameSide at h
    unfold Passed
    omega

theorem SameSide.exact (h : r.SameSide localTime nCount) : r.Exact localTime nCount := by
  intro k
  rw [returned_iff]
  constructor
  · rintro ⟨j,hj,hs,hp⟩
    exact ⟨j,hj,hs,h.due_of_passed hs hp⟩
  · rintro ⟨j,hj,hs,hn⟩
    obtain ⟨i,hi,hs,hp⟩ := h.passed_of_due hs hn
    exact ⟨i,hi.trans_lt hj,hs,hp⟩

theorem Exact.sameSide (h : r.Exact localTime nCount) : r.SameSide localTime nCount := by
  obtain ⟨f,hs,hf,hfirst⟩ := r.exists_first_sample
  have honly : ∀ P : Nat → Prop, (∃ j < f+1, r.event j = .sample ∧ P j) ↔ P f := by
    intro P
    constructor
    · rintro ⟨j,hj,hjs,hP⟩
      have heq : j = f := by
        have hle := hfirst j hjs
        omega
      rwa [← heq]
    · intro hP
      exact ⟨f,Nat.lt_succ_self f,hs,hP⟩
  have hagree : r.Passed localTime nCount f ↔ nCount.toNat ≤ r.elapsed f := by
    have hk := h (f+1)
    rwa [returned_iff,honly,honly] at hk
  have hone := r.elapsed_one_le
  have hn := nCount.isLt
  have ht := localTime.isLt
  unfold Passed at hagree
  unfold SameSide
  omega

/-- delay waits as long as it is asked to, and no longer than it has to, exactly when the
deadline and the first sample lie on the same side of the wrap of LocalTime. -/
theorem delay_exact_iff (r : Interleaving) (localTime nCount : BitVec 32) :
    r.Exact localTime nCount ↔
      (localTime.toNat+nCount.toNat < 2^32 ↔ localTime.toNat + r.elapsed 1 < 2^32) :=
  ⟨fun h => h.sameSide,fun h => SameSide.exact h⟩

def alternating : Interleaving where
  event k := if k % 2 = 0 then .sample else .tick
  sampled k h := by
    have hodd : ¬ k % 2 = 0 := by
      intro heven
      rw [if_pos heven] at h
      cases h
    rw [if_pos (by omega)]

/-- One millisecond before the wrap a delay of ten milliseconds is over at once. -/
theorem delay_over_at_once :
    (alternating.after 0xFFFFFFFF 10 1).returned = true ∧ alternating.elapsed 1 = 0 ∧
      ¬ alternating.Exact 0xFFFFFFFF 10 := by
  refine ⟨rfl,rfl,?_⟩
  intro h
  obtain ⟨j,hj,-,hdue⟩ := (h 1).mp rfl
  rw [Nat.lt_one_iff.mp hj] at hdue
  exact absurd hdue (by decide)

end Interleaving

end Stm32Dds.Timing
