import Mathlib.Data.List.Basic
import Mathlib.Tactic.Common

set_option autoImplicit false

namespace Stm32Dds.Slices

variable {α : Type} {l xs : List α} {start n : Nat}

def slice (l : List α) (start n : Nat) : List α := (l.drop start).take n

def overwrite (l : List α) (start : Nat) (xs : List α) : List α :=
  l.take start ++ (xs ++ l.drop (start+xs.length))

@[simp] theorem slice_zero (l : List α) (start : Nat) : slice l start 0 = [] := rfl

theorem slice_length (h : start+n ≤ l.length) : (slice l start n).length = n := by
  rw [slice,List.length_take,List.length_drop]
  omega

theorem slice_self_length (l : List α) (start n : Nat) :
    slice l start (slice l start n).length = slice l start n := by
  rw [slice,slice,List.length_take,← List.take_eq_take_min]

theorem slice_drop (l : List α) (k start n : Nat) :
    slice (l.drop k) start n = slice l (k+start) n := by
  rw [slice,List.drop_drop,slice]

theorem slice_inside (h : (slice l start n).length = n) (hn : 0 < n) : start+n ≤ l.length := by
  rw [slice,List.length_take,List.length_drop] at h
  omega

theorem take_slice (l : List α) (start : Nat) {k : Nat} (h : k ≤ n) :
    (slice l start n).take k = slice l start k := by
  rw [slice,List.take_take,Nat.min_eq_left h,slice]

theorem slice_succ (l : List α) (start n : Nat) :
    slice l start (n+1) = slice l start n ++ l[start+n]?.toList := by
  rw [slice,List.take_add_one,List.getElem?_drop,slice]

theorem getElem?_slice (l : List α) (start n j : Nat) :
    (slice l start n)[j]? = if j < n then l[start+j]? else none := by
  rw [slice,List.getElem?_take]
  split
  · rw [List.getElem?_drop]
  · rfl

@[simp] theorem overwrite_nil (l : List α) (start : Nat) : overwrite l start [] = l := by
  simp [overwrite]

theorem overwrite_length (h : start+xs.length ≤ l.length) :
    (overwrite l start xs).length = l.length := by
  simp only [overwrite,List.length_append,List.length_take,List.length_drop]
  omega

theorem getElem?_overwrite (h : start+xs.length ≤ l.length) (j : Nat) :
    (overwrite l start xs)[j]? =
      if start ≤ j ∧ j < start+xs.length then xs[j-start]? else l[j]? := by
  have hfront : (l.take start).length = start := by
    rw [List.length_take]
    omega
  by_cases hj : j < start
  · rw [overwrite,List.getElem?_append_left (by omega),List.getElem?_take_of_lt hj,
      if_neg (by omega)]
  · rw [overwrite,List.getElem?_append_right (by omega),hfront]
    by_cases hin : j < start+xs.length
    · rw [List.getElem?_append_left (by omega),if_pos (by omega)]
    · rw [List.getElem?_append_right (by omega),List.getElem?_drop,if_neg (by omega)]
      congr 1
      omega

theorem drop_overwrite (h : start+xs.length ≤ l.length) {k : Nat} (hk : start+xs.length ≤ k) :
    (overwrite l start xs).drop k = l.drop k := by
  refine List.ext_getElem? fun j => ?_
  rw [List.getElem?_drop,List.getElem?_drop,getElem?_overwrite h,if_neg (by omega)]

theorem slice_overwrite_behind (h : start+xs.length ≤ l.length) {k : Nat}
    (hk : start+xs.length ≤ k) : slice (overwrite l start xs) k n = slice l k n := by
  rw [slice,drop_overwrite h hk,slice]

theorem slice_overwrite_front (h : start+xs.length ≤ l.length) :
    slice (overwrite l start xs) start (xs.length+n) = xs ++ slice l (start+xs.length) n := by
  have hfront : (l.take start).length = start := by
    rw [List.length_take]
    omega
  rw [slice,overwrite,List.drop_left' hfront,List.take_length_add_append,slice]

theorem slice_overwrite_end (h : start+xs.length ≤ l.length) {k : Nat} (hk : k ≤ start)
    (hend : k+n ≤ start+xs.length) :
    slice (overwrite l start xs) k n = (slice l k n).take (start-k) ++ xs.take (n-(start-k)) := by
  have hlen : (slice l k n).length = n := slice_length (by omega)
  refine List.ext_getElem? fun j => ?_
  rw [getElem?_slice,getElem?_overwrite h,List.getElem?_append,List.length_take,hlen]
  simp only [List.getElem?_take,getElem?_slice]
  by_cases hj : j < n
  · by_cases hfront : j < start-k
    · rw [if_pos hj,if_neg (by omega),if_pos (by omega),if_pos hfront,if_pos hj]
    · rw [if_pos hj,if_pos (by omega),if_neg (by omega),if_pos (by omega)]
      congr 1
      omega
  · rw [if_neg hj,if_neg (by omega),if_neg (by omega)]

end Stm32Dds.Slices
