import Mathlib

/-! Cyclic redundancy checks. The register is the remainder of what was fed to it, and a step
without input multiplies it by x. A generator with a constant term makes every step one to
one. Long runs of steps are powers of x, which are computed by squaring. -/

set_option autoImplicit false

namespace Stm32Dds.Checksums

variable {w : Nat}

/-- A step of the register without input; poly is the generator without its leading term. -/
def shift (poly r : BitVec w) : BitVec w := if r.msb then (r <<< 1) ^^^ poly else r <<< 1

def feed (poly r word : BitVec w) : BitVec w := (shift poly)^[w] (r ^^^ word)

variable {poly : BitVec w}

theorem shift_xor (a b : BitVec w) : shift poly (a ^^^ b) = shift poly a ^^^ shift poly b := by
  have hcancel (x y : BitVec w) : x ^^^ y = (x ^^^ poly) ^^^ (y ^^^ poly) := by
    rw [BitVec.xor_assoc,BitVec.xor_comm y,← BitVec.xor_assoc poly,BitVec.xor_self,BitVec.zero_xor]
  unfold shift
  rw [BitVec.msb_xor,BitVec.shiftLeft_xor_distrib]
  cases a.msb <;> cases b.msb
  · simp
  · simp [BitVec.xor_assoc]
  · simp [BitVec.xor_assoc,BitVec.xor_comm poly]
  · simpa using hcancel _ _

theorem shift_zero : shift poly 0#w = 0#w := by simp [shift]

theorem iterate_shift_xor (n : Nat) (a b : BitVec w) :
    (shift poly)^[n] (a ^^^ b) = (shift poly)^[n] a ^^^ (shift poly)^[n] b := by
  induction n generalizing a b with
  | zero => rfl
  | succ n ih =>
    rw [Function.iterate_succ_apply,Function.iterate_succ_apply,Function.iterate_succ_apply,
      shift_xor,ih]

theorem iterate_shift_zero (n : Nat) : (shift poly)^[n] 0#w = 0#w :=
  Function.iterate_fixed shift_zero n

section Injective

theorem shift_injective (hpoly : poly.getLsbD 0 = true) : Function.Injective (shift poly) := by
  have hzero {r : BitVec w} (h : shift poly r = 0#w) : r = 0#w := by
    unfold shift at h
    split at h
    · have hbit := congrArg (fun x : BitVec w => x.getLsbD 0) h
      simp [hpoly] at hbit
    · rename_i hmsb
      refine BitVec.eq_of_getMsbD_eq fun i hi => ?_
      cases i with
      | zero =>
        rw [BitVec.getMsbD_zero]
        exact Bool.not_eq_true _ ▸ hmsb
      | succ i =>
        have hbit := congrArg (fun x : BitVec w => x.getMsbD i) h
        simpa [BitVec.getMsbD_shiftLeft,show i < w by omega] using hbit
  intro a b h
  have hxor : shift poly (a ^^^ b) = 0#w := by rw [shift_xor,h,BitVec.xor_self]
  exact BitVec.xor_eq_zero_iff.mp (hzero hxor)

theorem xor_right_injective (word : BitVec w) : Function.Injective (· ^^^ word) := by
  intro a b h
  have hxor := congrArg (· ^^^ word) h
  simpa [BitVec.xor_assoc] using hxor

theorem feed_register_injective (hpoly : poly.getLsbD 0 = true) (word : BitVec w) :
    Function.Injective (feed poly · word) :=
  ((shift_injective hpoly).iterate w).comp (xor_right_injective word)

theorem feed_word_injective (hpoly : poly.getLsbD 0 = true) (r : BitVec w) :
    Function.Injective (feed poly r) := by
  intro a b h
  have hxor := (shift_injective hpoly).iterate w h
  rw [BitVec.xor_comm r a,BitVec.xor_comm r b] at hxor
  exact xor_right_injective r hxor

end Injective

section Powers

/-- The product of two remainders, the second one by its bits from the lowest on. -/
def mul (poly a : BitVec w) : List Bool → BitVec w
  | [] => 0#w
  | b :: bs => (if b then a else 0#w) ^^^ shift poly (mul poly a bs)

def lowBits (x : BitVec w) : List Bool := List.ofFn fun i : Fin w => x.getLsbD i

def square (poly p : BitVec w) : BitVec w := mul poly p (lowBits p)

theorem iterate_shift_mul (n : Nat) (a : BitVec w) (bs : List Bool) :
    (shift poly)^[n] (mul poly a bs) = mul poly ((shift poly)^[n] a) bs := by
  induction bs with
  | nil => exact iterate_shift_zero n
  | cons b bs ih =>
    rw [mul,mul,iterate_shift_xor,← ih,← Function.iterate_succ_apply,Function.iterate_succ_apply']
    cases b with
    | false => simp [iterate_shift_zero]
    | true => rfl

theorem getLsbD_mul_one {bs : List Bool} (hlen : bs.length ≤ w) (i : Nat) :
    (mul poly 1#w bs).getLsbD i = (decide (i < w) && bs.getD i false) := by
  induction bs generalizing i with
  | nil => simp [mul]
  | cons b bs ih =>
    rw [List.length_cons] at hlen
    have hmsb : (mul poly 1#w bs).msb = false := by
      rw [BitVec.msb_eq_getLsbD_last,ih (by omega)]
      simp [show bs.length ≤ w-1 by omega]
    have hone : (if b then 1#w else 0#w).getLsbD i = (b && decide (i = 0)) := by
      cases b with
      | false => simp
      | true => simp [show 0 < w by omega]
    have hshift : shift poly (mul poly 1#w bs) = mul poly 1#w bs <<< 1 := by
      rw [shift,hmsb,if_neg Bool.false_ne_true]
    rw [mul,hshift,BitVec.getLsbD_xor,hone,BitVec.getLsbD_shiftLeft,ih (by omega)]
    cases i with
    | zero =>
      have hpos : 0 < w := by omega
      cases b <;> simp [hpos]
    | succ i =>
      by_cases hi : i+1 < w
      · simp [hi,show i < w by omega]
      · simp [hi]

theorem mul_one_lowBits (x : BitVec w) : mul poly 1#w (lowBits x) = x := by
  refine BitVec.eq_of_getLsbD_eq fun i hi => ?_
  rw [getLsbD_mul_one (by simp [lowBits])]
  simp [lowBits,hi]

theorem iterate_shift_eq (n : Nat) (x : BitVec w) :
    (shift poly)^[n] x = mul poly ((shift poly)^[n] 1#w) (lowBits x) := by
  rw [← iterate_shift_mul,mul_one_lowBits]

/-- Doubling the number of steps squares the power of x that they multiply with. -/
theorem iterate_shift_doubled (n k : Nat) :
    (shift poly)^[n*2^k] 1#w = (square poly)^[k] ((shift poly)^[n] 1#w) := by
  induction k with
  | zero => rw [Nat.pow_zero,Nat.mul_one,Function.iterate_zero_apply]
  | succ k ih =>
    have hdouble : n*2^(k+1) = n*2^k+n*2^k := by rw [Nat.pow_succ,← Nat.mul_assoc,Nat.mul_two]
    rw [hdouble,Function.iterate_add_apply,iterate_shift_eq,ih,Function.iterate_succ_apply',square]

/-- The same word again and again, from the distance to a register that it does not change. -/
theorem iterate_feed {word fixed : BitVec w} (h : feed poly fixed word = fixed) (n : Nat)
    (r : BitVec w) :
    (feed poly · word)^[n] r = (shift poly)^[w*n] (r ^^^ fixed) ^^^ fixed := by
  induction n with
  | zero =>
    rw [Nat.mul_zero,Function.iterate_zero_apply,Function.iterate_zero_apply,BitVec.xor_assoc,
      BitVec.xor_self,BitVec.xor_zero]
  | succ n ih =>
    have hsteps : w*(n+1) = w+w*n := by rw [Nat.mul_add,Nat.mul_one,Nat.add_comm]
    rw [Function.iterate_succ_apply',ih,feed,BitVec.xor_assoc,iterate_shift_xor,← feed,h,hsteps,
      Function.iterate_add_apply]

theorem iterate_feed_doubled {word fixed : BitVec w} (h : feed poly fixed word = fixed)
    {m n k : Nat} (hn : w*m = n*2^k) (r : BitVec w) :
    (feed poly · word)^[m] r = mul poly ((square poly)^[k] ((shift poly)^[n] 1#w))
      (lowBits (r ^^^ fixed)) ^^^ fixed := by
  rw [iterate_feed h,iterate_shift_eq,hn,iterate_shift_doubled]

end Powers

end Stm32Dds.Checksums
