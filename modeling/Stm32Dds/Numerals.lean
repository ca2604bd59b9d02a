import Stm32Dds.ByteMemory

set_option autoImplicit false

namespace Stm32Dds.Numerals
open Bytes

def digitValue (b : Byte) : Option Nat :=
  if 48 ≤ b.toNat ∧ b.toNat ≤ 57 then some (b.toNat-48)
  else if 65 ≤ b.toNat ∧ b.toNat ≤ 90 then some (b.toNat-55)
  else if 97 ≤ b.toNat ∧ b.toNat ≤ 122 then some (b.toNat-87)
  else none

def isDigit (radix : Nat) (b : Byte) : Bool := (digitValue b).any fun d => d < radix

def value (radix : Nat) (ds : List Byte) : Nat :=
  ds.foldl (fun n b => n*radix + (digitValue b).getD 0) 0

theorem foldl_value (radix n : Nat) (ds : List Byte) :
    ds.foldl (fun n b => n*radix + (digitValue b).getD 0) n =
      n*radix^ds.length + value radix ds := by
  induction ds generalizing n with
  | nil => simp [value]
  | cons b ds ih =>
    have hcons : value radix (b :: ds) = _ := ih (0*radix + (digitValue b).getD 0)
    rw [List.foldl_cons,ih,hcons,List.length_cons,pow_succ]
    ring

theorem value_cons (radix : Nat) (b : Byte) (ds : List Byte) :
    value radix (b :: ds) = (digitValue b).getD 0*radix^ds.length + value radix ds := by
  rw [value,List.foldl_cons,foldl_value]
  simp

def digitByte (d : Nat) : Byte := if d < 10 then BitVec.ofNat 8 (48+d) else BitVec.ofNat 8 (55+d)

theorem digitValue_digitByte {d : Nat} (h : d < 36) : digitValue (digitByte d) = some d := by
  unfold digitByte
  split
  · rw [digitValue,BitVec.toNat_ofNat,Nat.mod_eq_of_lt (by omega),if_pos (by omega)]
    congr 1
    omega
  · rw [digitValue,BitVec.toNat_ofNat,Nat.mod_eq_of_lt (by omega),if_neg (by omega),
      if_pos (by omega)]
    congr 1
    omega

def fixedWidth (radix : Nat) : Nat → Nat → List Byte
  | 0, _ => []
  | k+1, n => digitByte (n/radix^k) :: fixedWidth radix k (n % radix^k)

@[simp] theorem fixedWidth_length (radix k n : Nat) : (fixedWidth radix k n).length = k := by
  induction k generalizing n with
  | zero => rfl
  | succ k ih => simp [fixedWidth,ih]

section
variable {radix : Nat} (hlow : 2 ≤ radix) (hhigh : radix ≤ 36)
include hlow hhigh

theorem isDigit_fixedWidth {k n : Nat} (h : n < radix^k) :
    ∀ b ∈ fixedWidth radix k n, isDigit radix b = true := by
  induction k generalizing n with
  | zero => simp [fixedWidth]
  | succ k ih =>
    have hpos : 0 < radix^k := pow_pos (by omega) k
    have hd : n/radix^k < radix := by
      rw [Nat.div_lt_iff_lt_mul hpos,← pow_succ']
      exact h
    intro b hb
    rcases List.mem_cons.mp hb with rfl | hb
    · simp [isDigit,digitValue_digitByte (show n/radix^k < 36 by omega),hd]
    · exact ih (Nat.mod_lt n hpos) b hb

theorem value_fixedWidth {k n : Nat} (h : n < radix^k) : value radix (fixedWidth radix k n) = n := by
  induction k generalizing n with
  | zero =>
    simp only [pow_zero,Nat.lt_one_iff] at h
    simp [fixedWidth,value,h]
  | succ k ih =>
    have hpos : 0 < radix^k := pow_pos (by omega) k
    have hd : n/radix^k < radix := by
      rw [Nat.div_lt_iff_lt_mul hpos,← pow_succ']
      exact h
    rw [fixedWidth,value_cons,digitValue_digitByte (by omega),fixedWidth_length,
      ih (Nat.mod_lt n hpos)]
    exact Nat.div_add_mod' n (radix^k)

end

def Shortest (radix n : Nat) (ds : List Byte) : Prop :=
  ∃ k, ds = fixedWidth radix (k+1) n ∧ n < radix^(k+1) ∧ (radix^k ≤ n ∨ k = 0)

def isSpace (b : Byte) : Bool := b.toNat = 32 || (9 ≤ b.toNat && b.toNat ≤ 13)

def sign : List Byte → Bool × Nat
  | b :: _ => (b.toNat = 45,if b.toNat = 43 ∨ b.toNat = 45 then 1 else 0)
  | [] => (false,0)

/-- In radix 16 there can be a 0x, which counts if a digit follows. -/
def radixPrefix (radix : Nat) : List Byte → Nat
  | z :: x :: d :: _ =>
    if radix = 16 ∧ z.toNat = 48 ∧ (x.toNat = 120 ∨ x.toNat = 88) ∧ isDigit 16 d then 2 else 0
  | _ => 0

/-- The sign, the digits, and how many characters they end behind. -/
def scan (radix : Nat) (s : List Byte) : Bool × List Byte × Nat :=
  let blanks := (s.takeWhile isSpace).length
  let s := s.drop blanks
  let (negative,signLen) := sign s
  let s := s.drop signLen
  let pre := radixPrefix radix s
  let ds := (s.drop pre).takeWhile (isDigit radix)
  (negative,ds,blanks + (signLen + (pre+ds.length)))

/-- The number, and how many characters of the text are used: none without a digit. -/
def strtoul (w radix : Nat) (s : List Byte) : BitVec w × Nat :=
  let (negative,ds,used) := scan radix s
  if ds = [] then (0,0)
  else if 2^w ≤ value radix ds then (BitVec.allOnes w,used)
  else (if negative then -BitVec.ofNat w (value radix ds) else BitVec.ofNat w (value radix ds),used)

def strtol (w radix : Nat) (s : List Byte) : BitVec w × Nat :=
  let (negative,ds,used) := scan radix s
  if ds = [] then (0,0)
  else if negative then
    (if 2^(w-1) < value radix ds then BitVec.intMin w else -BitVec.ofNat w (value radix ds),used)
  else (if 2^(w-1) ≤ value radix ds then BitVec.intMax w else BitVec.ofNat w (value radix ds),used)

structure Row (radix : Nat) (ds rest : List Byte) : Prop where
  nonempty : ds ≠ []
  digits : ∀ b ∈ ds, isDigit radix b = true
  ends : ∀ b ∈ rest.head?, isDigit radix b = false ∧ b.toNat ≠ 120 ∧ b.toNat ≠ 88

theorem isDigit_bounds {radix : Nat} {b : Byte} (h : isDigit radix b = true) :
    48 ≤ b.toNat ∧ (b.toNat ≤ 57 ∨ 65 ≤ b.toNat) := by
  unfold isDigit digitValue at h
  split at h
  · omega
  · split at h
    · omega
    · split at h
      · omega
      · simp at h

/-- x is a digit from radix 34 on only. -/
theorem isDigit_ne_x {radix : Nat} (hradix : radix ≤ 33) {b : Byte} (h : isDigit radix b = true) :
    b.toNat ≠ 120 ∧ b.toNat ≠ 88 := by
  constructor <;> intro hb <;> simp [isDigit,digitValue,hb] at h <;> omega

namespace Row
variable {radix : Nat} {ds rest : List Byte} (h : Row radix ds rest)
include h

theorem takeWhile : (ds ++ rest).takeWhile (isDigit radix) = ds := by
  rw [List.takeWhile_append_of_pos h.digits]
  cases hr : rest with
  | nil => simp
  | cons b rest => simp [(h.ends b (by simp [hr])).1]

theorem radixPrefix (hradix : radix ≤ 33) : radixPrefix radix (ds ++ rest) = 0 := by
  have hx : ∀ b, (ds ++ rest)[1]? = some b → b.toNat ≠ 120 ∧ b.toNat ≠ 88 := by
    intro b hb
    rw [List.getElem?_append] at hb
    split at hb
    · exact isDigit_ne_x hradix (h.digits b (List.mem_of_getElem? hb))
    · have hlen : 1-ds.length = 0 := by
        have := List.length_pos_iff.mpr h.nonempty
        omega
      rw [hlen,← List.head?_eq_getElem?] at hb
      exact (h.ends b hb).2
  unfold Numerals.radixPrefix
  split
  · rename_i z x d _ heq
    have hne := hx x (by rw [heq]; rfl)
    rw [if_neg (by omega)]
  · rfl

theorem scan (hradix : radix ≤ 33) : scan radix (ds ++ rest) = (false,ds,ds.length) := by
  obtain ⟨b,ds',hds⟩ := List.exists_cons_of_ne_nil h.nonempty
  have hb := isDigit_bounds (h.digits b (by simp [hds]))
  have hblank : (ds ++ rest).takeWhile isSpace = [] := by
    rw [hds,List.cons_append,List.takeWhile_cons,if_neg]
    simp only [isSpace,Bool.or_eq_true,decide_eq_true_eq,Bool.and_eq_true,not_or,not_and]
    omega
  have hsign : sign (ds ++ rest) = (false,0) := by
    rw [hds,List.cons_append,sign,if_neg (by omega),decide_eq_false (by omega)]
  have htake := h.takeWhile
  have hfront := h.radixPrefix hradix
  simp only [Numerals.scan,hblank,List.length_nil,List.drop_zero,hsign,hfront,htake,Nat.zero_add]

theorem strtoul (hradix : radix ≤ 33) {w : Nat} (hval : value radix ds < 2^w) :
    strtoul w radix (ds ++ rest) = (BitVec.ofNat w (value radix ds),ds.length) := by
  simp [Numerals.strtoul,h.scan hradix,h.nonempty,Nat.not_le.mpr hval]

theorem strtol (hradix : radix ≤ 33) {w : Nat} (hval : value radix ds < 2^(w-1)) :
    strtol w radix (ds ++ rest) = (BitVec.ofNat w (value radix ds),ds.length) := by
  simp [Numerals.strtol,h.scan hradix,h.nonempty,Nat.not_le.mpr hval]

theorem scan_minus (hradix : radix ≤ 33) :
    Numerals.scan radix (45 :: (ds ++ rest)) = (true,ds,1+ds.length) := by
  have htake := h.takeWhile
  have hfront := h.radixPrefix hradix
  have hblank : ((45 : Byte) :: (ds ++ rest)).takeWhile isSpace = [] := rfl
  have hsign : sign ((45 : Byte) :: (ds ++ rest)) = (true,1) := rfl
  simp only [Numerals.scan,hblank,List.length_nil,List.drop_zero,hsign,List.drop_succ_cons,
    hfront,htake,Nat.zero_add]

theorem strtol_minus (hradix : radix ≤ 33) {w : Nat} (hval : value radix ds ≤ 2^(w-1)) :
    Numerals.strtol w radix (45 :: (ds ++ rest)) =
      (-BitVec.ofNat w (value radix ds),1+ds.length) := by
  rw [Numerals.strtol,h.scan_minus hradix]
  simp [h.nonempty,Nat.not_lt.mpr hval]

end Row

theorem Shortest.value {radix n : Nat} (hlow : 2 ≤ radix) (hhigh : radix ≤ 36) {ds : List Byte}
    (h : Shortest radix n ds) : value radix ds = n := by
  obtain ⟨k,rfl,hlt,-⟩ := h
  exact value_fixedWidth hlow hhigh hlt

theorem Shortest.length_le {radix n k : Nat} (hlow : 1 < radix) {ds : List Byte}
    (h : Shortest radix n ds) (hn : n < radix^(k+1)) : ds.length ≤ k+1 := by
  obtain ⟨j,rfl,-,hj⟩ := h
  rw [fixedWidth_length]
  rcases hj with hle | rfl
  · have hlt : j < k+1 := (Nat.pow_lt_pow_iff_right hlow).mp (hle.trans_lt hn)
    omega
  · omega

theorem Shortest.row {radix n : Nat} (hlow : 2 ≤ radix) (hhigh : radix ≤ 36) {ds : List Byte}
    (h : Shortest radix n ds) {rest : List Byte}
    (hrest : ∀ b ∈ rest.head?, isDigit radix b = false ∧ b.toNat ≠ 120 ∧ b.toNat ≠ 88) :
    Row radix ds rest := by
  obtain ⟨k,rfl,hlt,-⟩ := h
  exact ⟨by simp [fixedWidth],isDigit_fixedWidth hlow hhigh hlt,hrest⟩

end Stm32Dds.Numerals
