import Stm32Dds.Runs

/-! Periodic timers on a clock that wraps. A timer keeps a stamp, what the clock has shown
when it fired, and fires again when the difference to the clock has reached its interval.
If the machine looks at the timer often enough, the difference is the true time. -/

set_option autoImplicit false

namespace Stm32Dds.WrappingTimers
open Runs

def clock (w t : Nat) : BitVec w := BitVec.ofNat w t

theorem toNat_clock_sub {w a b : Nat} (hab : a ≤ b) (h : b < a+2^w) :
    (clock w b - clock w a).toNat = b-a := by
  obtain ⟨d,rfl⟩ := Nat.exists_eq_add_of_le hab
  have hdiff : clock w (a+d) - clock w a = BitVec.ofNat w d := by
    rw [clock,clock,BitVec.ofNat_add,BitVec.add_comm,BitVec.add_sub_cancel]
  rw [hdiff,BitVec.toNat_ofNat,Nat.mod_eq_of_lt (by omega),Nat.add_sub_cancel_left]

section Fired
variable {S C : Type} (step : S → C → S) (fires : S → C → Bool)

def fired : S → List C → List C
  | _, [] => []
  | s, c :: cs => if fires s c then c :: fired (step s c) cs else fired (step s c) cs

theorem getLastD_fired_cons {V : Type} (reading : C → V) (s : S) (c : C) (cs : List C) (v : V) :
    ((fired step fires s (c :: cs)).map reading).getLastD v =
      ((fired step fires (step s c) cs).map reading).getLastD
        (if fires s c then reading c else v) := by
  rw [fired]
  split
  · rw [List.map_cons,List.getLastD_cons]
  · rfl

theorem latch_run {V : Type} {value : S → V} {reading : C → V}
    (h : ∀ s c, value (step s c) = if fires s c then reading c else value s) (s : S) (cs : List C) :
    value (run step s cs) = ((fired step fires s cs).map reading).getLastD (value s) := by
  induction cs generalizing s with
  | nil => rfl
  | cons c cs ih => rw [run,ih,getLastD_fired_cons,h]

end Fired

def Paced (gap start : Nat) (times : List Nat) : Prop :=
  (start :: times).IsChain fun a b => a ≤ b ∧ b < a+gap

theorem paced_cons {gap start t : Nat} {ts : List Nat} :
    Paced gap start (t :: ts) ↔ (start ≤ t ∧ t < start+gap) ∧ Paced gap t ts :=
  List.isChain_cons_cons

theorem paced_append {gap start : Nat} {ts us : List Nat} :
    Paced gap start (ts ++ us) ↔ Paced gap start ts ∧ Paced gap (ts.getLastD start) us := by
  induction ts generalizing start with
  | nil => simp [Paced]
  | cons t ts ih =>
    rw [List.cons_append,paced_cons,paced_cons,ih,List.getLastD_cons]
    exact and_assoc.symm

/-- A machine that keeps a timer with a stamp, and fires it at some of its calls. -/
structure KeepsTimer {S C : Type} (step : S → C → S) (fires : S → C → Bool) (time : C → Nat)
    {w : Nat} (interval : Nat) (stamp : S → BitVec w) : Prop where
  fires_iff : ∀ s c, fires s c = true ↔ interval ≤ (clock w (time c) - stamp s).toNat
  stamp_step : ∀ s c, stamp (step s c) = if fires s c then clock w (time c) else stamp s

/-- The stamp is of the time `last`, and less than the interval has passed until `now`. -/
structure Synced {S : Type} {w : Nat} (interval : Nat) (stamp : S → BitVec w) (last now : Nat)
    (s : S) : Prop where
  stamp_eq : stamp s = clock w last
  reached : last ≤ now
  fresh : now < last+interval

section Run
variable {S C : Type} {step : S → C → S} {fires : S → C → Bool} {time : C → Nat}
  {w interval gap : Nat} {stamp : S → BitVec w}
  (hkeeps : KeepsTimer step fires time interval stamp) (hroom : interval+gap ≤ 2^w)
  {s : S} {c : C} {cs : List C} {last now : Nat}
include hkeeps hroom

theorem Synced.fires_iff (h : Synced interval stamp last now s)
    (hc : now ≤ time c ∧ time c < now+gap) : fires s c = true ↔ last+interval ≤ time c := by
  have hreached := h.reached
  have hfresh := h.fresh
  rw [hkeeps.fires_iff,h.stamp_eq,toNat_clock_sub (by omega) (by omega)]
  omega

theorem Synced.next (h : Synced interval stamp last now s)
    (hc : now ≤ time c ∧ time c < now+gap) :
    Synced interval stamp (if fires s c then time c else last) (time c) (step s c) := by
  have hiff := h.fires_iff hkeeps hroom hc
  have hreached := h.reached
  have hfresh := h.fresh
  cases hf : fires s c with
  | true =>
    refine ⟨?_,le_rfl,?_⟩
    · rw [hkeeps.stamp_step,if_pos hf]
      rfl
    · simp only [if_true]
      omega
  | false =>
    have hnot : ¬ last+interval ≤ time c := by rw [← hiff,hf]; exact Bool.false_ne_true
    simp only [Bool.false_eq_true,if_false]
    refine ⟨?_,by omega,by omega⟩
    rw [hkeeps.stamp_step,hf]
    exact h.stamp_eq

theorem Synced.run (h : Synced interval stamp last now s) (hcs : Paced gap now (cs.map time)) :
    Synced interval stamp (((fired step fires s cs).map time).getLastD last)
      ((cs.map time).getLastD now) (run step s cs) := by
  induction cs generalizing s last now with
  | nil => exact h
  | cons c cs ih =>
    rw [List.map_cons,paced_cons] at hcs
    rw [List.map_cons,List.getLastD_cons,getLastD_fired_cons,Runs.run]
    exact ih (h.next hkeeps hroom hcs.1) hcs.2

/-- The timer fires when a timer in true time does: as soon as a call finds that the
interval has passed since the last firing. -/
theorem Synced.fired_eq (h : Synced interval stamp last now s) (hcs : Paced gap now (cs.map time)) :
    last :: (fired step fires s cs).map time =
      (cs.map time).destutter' (fun a b => a+interval ≤ b) last := by
  induction cs generalizing s last now with
  | nil => rfl
  | cons c cs ih =>
    rw [List.map_cons,paced_cons] at hcs
    have hiff := h.fires_iff hkeeps hroom hcs.1
    have hrest := ih (h.next hkeeps hroom hcs.1) hcs.2
    rw [List.map_cons,fired,List.destutter'_cons]
    by_cases hf : fires s c
    · rw [if_pos hf] at hrest ⊢
      rw [if_pos (hiff.mp hf),List.map_cons,hrest]
    · rw [if_neg hf] at hrest ⊢
      rw [if_neg (fun hdue => hf (hiff.mpr hdue)),hrest]

end Run

end Stm32Dds.WrappingTimers
