import Mathlib

set_option autoImplicit false

namespace Stm32Dds.BitFields

def fieldMask (w bits : Nat) : BitVec w := (1#w <<< bits) - 1#w

def setField {w : Nat} (v : BitVec w) (bits offset : Nat) (x : BitVec w) : BitVec w :=
  (v &&& ~~~(fieldMask w bits <<< offset)) ||| ((x &&& fieldMask w bits) <<< offset)

def getField {w : Nat} (v : BitVec w) (bits offset : Nat) : BitVec w :=
  (v >>> offset) &&& fieldMask w bits

theorem toNat_fieldMask (w bits : Nat) (h : bits < w) : (fieldMask w bits).toNat = 2^bits-1 := by
  have hpos := Nat.two_pow_pos bits
  have hlt : 2^bits < 2^w := Nat.pow_lt_pow_right (by decide) h
  have h1 : 1 < 2^w := by omega
  simp only [fieldMask,BitVec.toNat_sub,BitVec.toNat_shiftLeft,BitVec.toNat_ofNat,
    Nat.mod_eq_of_lt h1,Nat.shiftLeft_eq,Nat.one_mul,Nat.mod_eq_of_lt hlt]
  rw [show 2^w-1+2^bits = (2^bits-1)+2^w by omega,Nat.add_mod_right]
  exact Nat.mod_eq_of_lt (by omega)

theorem and_fieldMask_of_lt {w bits : Nat} {x : BitVec w} (h : bits < w) (hx : x.toNat < 2^bits) :
    x &&& fieldMask w bits = x := by
  apply BitVec.eq_of_toNat_eq
  rw [BitVec.toNat_and,toNat_fieldMask w bits h]
  exact Nat.and_two_pow_sub_one_of_lt_two_pow hx

theorem toNat_and_fieldMask {w bits : Nat} (x : BitVec w) (h : bits < w) :
    (x &&& fieldMask w bits).toNat = x.toNat % 2^bits := by
  rw [BitVec.toNat_and,toNat_fieldMask w bits h,Nat.and_two_pow_sub_one_eq_mod]

theorem getLsbD_fieldMask (w bits i : Nat) (h : bits < w) :
    (fieldMask w bits).getLsbD i = decide (i < bits) := by
  rw [← BitVec.testBit_toNat,toNat_fieldMask w bits h,Nat.testBit_two_pow_sub_one]

theorem getLsbD_setField {w : Nat} (v x : BitVec w) (bits offset i : Nat) (h : bits < w)
    (hi : i < w) :
    (setField v bits offset x).getLsbD i =
      if offset ≤ i ∧ i < offset+bits then x.getLsbD (i-offset) else v.getLsbD i := by
  simp only [setField,BitVec.getLsbD_or,BitVec.getLsbD_and,BitVec.getLsbD_not,
    BitVec.getLsbD_shiftLeft,getLsbD_fieldMask w bits _ h,hi,decide_true,Bool.true_and]
  by_cases h₁ : i < offset
  · have hn : ¬ (offset ≤ i ∧ i < offset+bits) := by omega
    simp [h₁,hn]
  · by_cases h₂ : i < offset+bits
    · have hk : i-offset < bits := by omega
      have hp : offset ≤ i ∧ i < offset+bits := by omega
      simp [h₁,hk,hp]
    · have hk : ¬ i-offset < bits := by omega
      have hn : ¬ (offset ≤ i ∧ i < offset+bits) := by omega
      simp [h₁,hk,hn]

theorem getLsbD_getField {w : Nat} (v : BitVec w) (bits offset i : Nat) (h : bits < w) :
    (getField v bits offset).getLsbD i = (decide (i < bits) && v.getLsbD (offset+i)) := by
  simp only [getField,BitVec.getLsbD_and,BitVec.getLsbD_ushiftRight,getLsbD_fieldMask w bits i h]
  exact Bool.and_comm _ _

theorem getField_lt {w : Nat} (v : BitVec w) (bits offset : Nat) (h : bits < w) :
    (getField v bits offset).toNat < 2^bits := by
  have hpos := Nat.two_pow_pos bits
  have hle : (getField v bits offset).toNat ≤ 2^bits-1 := by
    rw [getField,BitVec.toNat_and,toNat_fieldMask w bits h]
    exact Nat.and_le_right
  omega

theorem getField_setField {w : Nat} (v x : BitVec w) (bits offset : Nat) (h : bits < w)
    (hfit : offset+bits ≤ w) :
    getField (setField v bits offset x) bits offset = x &&& fieldMask w bits := by
  apply BitVec.eq_of_getLsbD_eq
  intro i hi
  rw [getLsbD_getField _ _ _ _ h,BitVec.getLsbD_and,getLsbD_fieldMask w bits i h]
  by_cases hb : i < bits
  · have hin : offset ≤ offset+i ∧ offset+i < offset+bits := by omega
    rw [getLsbD_setField v x bits offset _ h (by omega),if_pos hin,Nat.add_sub_cancel_left,
      Bool.and_comm]
  · simp [hb]

theorem getField_setField_apart {w : Nat} (v x : BitVec w) (bits offset bits' offset' : Nat)
    (h : bits < w) (h' : bits' < w) (hfit : offset'+bits' ≤ w)
    (hapart : offset+bits ≤ offset' ∨ offset'+bits' ≤ offset) :
    getField (setField v bits offset x) bits' offset' = getField v bits' offset' := by
  apply BitVec.eq_of_getLsbD_eq
  intro i hi
  rw [getLsbD_getField _ _ _ _ h',getLsbD_getField _ _ _ _ h']
  by_cases hb : i < bits'
  · have hout : ¬ (offset ≤ offset'+i ∧ offset'+i < offset+bits) := by omega
    rw [getLsbD_setField v x bits offset _ h (by omega),if_neg hout]
  · simp [hb]

theorem setField_setField {w : Nat} (v x y : BitVec w) (bits offset : Nat) (h : bits < w) :
    setField (setField v bits offset x) bits offset y = setField v bits offset y := by
  apply BitVec.eq_of_getLsbD_eq
  intro i hi
  rw [getLsbD_setField _ y bits offset i h hi,getLsbD_setField _ y bits offset i h hi,
    getLsbD_setField v x bits offset i h hi]
  by_cases hin : offset ≤ i ∧ i < offset+bits
  · rw [if_pos hin,if_pos hin]
  · rw [if_neg hin,if_neg hin,if_neg hin]

theorem setField_comm {w : Nat} (v x y : BitVec w) (bits offset bits' offset' : Nat)
    (h : bits < w) (h' : bits' < w)
    (hapart : ∀ i, (offset ≤ i ∧ i < offset+bits) → ¬ (offset' ≤ i ∧ i < offset'+bits')) :
    setField (setField v bits offset x) bits' offset' y =
      setField (setField v bits' offset' y) bits offset x := by
  apply BitVec.eq_of_getLsbD_eq
  intro i hi
  simp only [getLsbD_setField _ _ bits offset i h hi,getLsbD_setField _ _ bits' offset' i h' hi]
  by_cases hin : offset ≤ i ∧ i < offset+bits
  · rw [if_neg (hapart i hin),if_pos hin,if_pos hin]
  · rw [if_neg hin,if_neg hin]

theorem setField_lt {w : Nat} (v x : BitVec w) (bits offset n : Nat) (h : bits < w)
    (hn : offset+bits ≤ n) (hv : v.toNat < 2^n) : (setField v bits offset x).toNat < 2^n := by
  apply Nat.lt_pow_two_of_testBit
  intro i hi
  rw [BitVec.testBit_toNat]
  by_cases hw : i < w
  · have hout : ¬ (offset ≤ i ∧ i < offset+bits) := by omega
    have hle : 2^n ≤ 2^i := Nat.pow_le_pow_right (by decide) hi
    rw [getLsbD_setField v x bits offset i h hw,if_neg hout,← BitVec.testBit_toNat]
    exact Nat.testBit_lt_two_pow (by omega)
  · exact BitVec.getLsbD_of_ge _ _ (by omega)

end Stm32Dds.BitFields
