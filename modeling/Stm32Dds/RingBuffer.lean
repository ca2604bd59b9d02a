import Mathlib

set_option autoImplicit false

namespace Stm32Dds.RingBuffer

section Ring
variable {α : Type} {n : Nat} [NeZero n]

def slot (start i : Nat) : Fin n := Fin.ofNat n (start+i)

def contents (data : Vector α n) (start count : Nat) : List α :=
  (List.range count).map fun i => data.get (slot start i)

@[simp] theorem contents_length (data : Vector α n) (start count : Nat) :
    (contents data start count).length = count := by simp [contents]

theorem slot_mod (start i : Nat) : (slot (start % n) i : Fin n) = slot start i := by
  apply Fin.ext
  simp [slot,Fin.ofNat]

theorem slot_succ (start i : Nat) : (slot (start+1) i : Fin n) = slot start (i+1) := by
  unfold slot
  congr 1
  omega

theorem slot_ne {start i j : Nat} (hij : i < j) (hj : j < i+n) :
    (slot start i : Fin n) ≠ slot start j := by
  intro h
  have hmod : (start+i) % n = (start+j) % n := congrArg Fin.val h
  have hdvd : n ∣ (start+j)-(start+i) := (Nat.modEq_iff_dvd' (by omega)).mp hmod
  have hle := Nat.le_of_dvd (by omega) hdvd
  omega

theorem contents_mod (data : Vector α n) (start count : Nat) :
    contents data (start % n) count = contents data start count := by
  simp only [contents,slot_mod]

theorem contents_succ (data : Vector α n) (start count : Nat) :
    contents data start (count+1) = contents data start count ++ [data.get (slot start count)] := by
  simp [contents,List.range_succ]

theorem contents_cons (data : Vector α n) (start count : Nat) :
    contents data start (count+1) = data.get (slot start 0) :: contents data (start+1) count := by
  simp only [contents,List.range_succ_eq_map,List.map_cons,List.map_map,slot_succ]
  rfl

theorem contents_set (data : Vector α n) {start count : Nat} {i : Fin n}
    (hi : i = slot start count) (v : α) (h : count < n) :
    contents (data.set i v) start (count+1) = contents data start count ++ [v] := by
  have hold : contents (data.set i v) start count = contents data start count := by
    apply List.map_congr_left
    intro k hk
    have hlt : k < count := List.mem_range.mp hk
    have hne : i.val ≠ (slot start k : Fin n).val := by
      intro he
      exact slot_ne (n := n) hlt (by omega) ((Fin.ext he).symm.trans hi)
    simp only [Vector.get_eq_getElem]
    exact Vector.getElem_set_ne i.isLt (slot start k).isLt hne
  rw [contents_succ,hold,← hi]
  simp [Vector.get_eq_getElem]

end Ring

section Bounded
variable {α : Type} (cap : Nat) (mark : α)

/-- Without room the last element is replaced by the mark, and the new one is lost. -/
def push (q : List α) (x : α) : List α :=
  if q.length < cap then q ++ [x] else q.dropLast ++ [mark]

variable {cap mark}

theorem push_ne_nil (q : List α) (x : α) : push cap mark q x ≠ [] := by
  unfold push
  split <;> simp

/-- Elements that are pushed one after the other: what does not fit is one mark. -/
theorem foldl_push (hcap : 0 < cap) {q : List α} (hq : q.length ≤ cap) (xs : List α) :
    xs.foldl (push cap mark) q =
      if q.length+xs.length ≤ cap then q ++ xs else (q ++ xs).take (cap-1) ++ [mark] := by
  induction xs using List.reverseRecOn with
  | nil => simp [hq]
  | append_singleton xs x ih =>
    have hcut : cap ≤ q.length+xs.length →
        (q ++ (xs ++ [x])).take (cap-1) = (q ++ xs).take (cap-1) := by
      intro hfull
      rw [← List.append_assoc,List.take_append_of_le_length]
      rw [List.length_append]
      omega
    rw [List.foldl_append,ih,List.foldl_cons,List.foldl_nil,List.length_append,
      List.length_singleton]
    by_cases hfit : q.length+xs.length ≤ cap
    · by_cases hroom : q.length+xs.length < cap
      · simp [push,hfit,hroom,show q.length+(xs.length+1) ≤ cap by omega]
      · have hlast : (q ++ xs).take (cap-1) = (q ++ xs).dropLast := by
          rw [List.dropLast_eq_take,List.length_append]
          congr 1
          omega
        rw [if_pos hfit,push,List.length_append,if_neg hroom,if_neg (by omega),
          hcut (by omega),hlast]
    · have hlen : ((q ++ xs).take (cap-1) ++ [mark]).length = cap := by
        simp only [List.length_append,List.length_take,List.length_singleton]
        omega
      rw [if_neg hfit,push,hlen,if_neg (lt_irrefl cap),List.dropLast_concat,if_neg (by omega),
        hcut (by omega)]

end Bounded

end Stm32Dds.RingBuffer
