import Mathlib

set_option autoImplicit false

namespace Stm32Dds.Rounding

section
variable {K : Type} [Field K] [LinearOrder K] [FloorRing K]

/-- The nearest integer; of two equally near ones the even one. -/
def nearbyint (x : K) : ℤ :=
  if Int.fract x < 1/2 ∨ Int.fract x = 1/2 ∧ ⌊x⌋ % 2 = 0 then ⌊x⌋ else ⌊x⌋+1

/-- The conversion of C from a floating type to an integer type. -/
def truncate (x : K) : ℤ := if x < 0 then ⌈x⌉ else ⌊x⌋

theorem floor_le_nearbyint (x : K) : ⌊x⌋ ≤ nearbyint x := by
  rw [nearbyint]
  split <;> omega

theorem le_nearbyint {n : ℤ} {x : K} (h : (n : K) ≤ x) : n ≤ nearbyint x :=
  (Int.le_floor.mpr h).trans (floor_le_nearbyint x)

theorem truncate_of_nonneg {x : K} (h : 0 ≤ x) : truncate x = ⌊x⌋ := by
  rw [truncate,if_neg (not_lt.mpr h)]

variable [IsStrictOrderedRing K]

@[simp] theorem nearbyint_intCast (n : ℤ) : nearbyint (n : K) = n := by
  simp [nearbyint]

@[simp] theorem nearbyint_natCast (n : ℕ) : nearbyint (n : K) = n := by
  exact_mod_cast nearbyint_intCast (K := K) n

theorem nearbyint_le_ceil (x : K) : nearbyint x ≤ ⌈x⌉ := by
  rw [nearbyint]
  split
  · exact Int.floor_le_ceil x
  · rename_i hup
    -- a number that is rounded up is not an integer
    have hfract : 0 < Int.fract x := by
      refine lt_of_le_of_ne (Int.fract_nonneg x) fun h => hup (.inl ?_)
      rw [← h]
      norm_num
    have hlt : (⌊x⌋ : K) < x := by linarith [Int.floor_add_fract x]
    exact Int.add_one_le_iff.mpr (Int.lt_ceil.mpr hlt)

theorem nearbyint_le {n : ℤ} {x : K} (h : x ≤ n) : nearbyint x ≤ n :=
  (nearbyint_le_ceil x).trans (Int.ceil_le.mpr h)

end

section Words

def FitsWord (w : ℕ) (z : ℤ) : Prop := 0 ≤ z ∧ z < 2^w

theorem toNat_ofInt_of_fits {w : ℕ} {z : ℤ} (h : FitsWord w z) : ((BitVec.ofInt w z).toNat : ℤ) = z := by
  rw [BitVec.toNat_ofInt]
  have hmod : z % ((2^w : ℕ) : ℤ) = z := Int.emod_eq_of_lt h.1 (by exact_mod_cast h.2)
  rw [hmod,Int.toNat_of_nonneg h.1]

theorem FitsWord.mono {w w' : ℕ} {z : ℤ} (h : FitsWord w z) (hle : w ≤ w') : FitsWord w' z :=
  ⟨h.1,h.2.trans_le (pow_le_pow_right₀ (by norm_num) hle)⟩

end Words

end Stm32Dds.Rounding
