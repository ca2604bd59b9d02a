import Mathlib

set_option autoImplicit false

namespace Stm32Dds.Bytes

abbrev Byte := BitVec 8

def toBytes : Nat → Nat → List Byte
  | 0, _ => []
  | k+1, v => BitVec.ofNat 8 v :: toBytes k (v/256)

def ofBytes : List Byte → Nat
  | [] => 0
  | b :: bs => b.toNat + 256*ofBytes bs

@[simp] theorem toBytes_length (k v : Nat) : (toBytes k v).length = k := by
  induction k generalizing v with
  | zero => rfl
  | succ k ih => simp [toBytes,ih]

theorem ofBytes_toBytes (k v : Nat) : ofBytes (toBytes k v) = v % 256^k := by
  induction k generalizing v with
  | zero => simp [toBytes,ofBytes,Nat.mod_one]
  | succ k ih =>
    rw [Nat.pow_succ',Nat.mod_mul]
    simp [toBytes,ofBytes,ih]

def wordBytes (w : BitVec 32) : List Byte := toBytes 4 w.toNat

def wordOf (bs : List Byte) : BitVec 32 := BitVec.ofNat 32 (ofBytes bs)

@[simp] theorem wordBytes_length (w : BitVec 32) : (wordBytes w).length = 4 := by
  simp [wordBytes]

@[simp] theorem wordOf_wordBytes (w : BitVec 32) : wordOf (wordBytes w) = w := by
  have hw := w.isLt
  apply BitVec.eq_of_toNat_eq
  simp only [wordOf,wordBytes,ofBytes_toBytes,BitVec.toNat_ofNat]
  omega

/-- Most significant byte first, into a 64-bit word. -/
def bigEndian (bs : List Byte) : BitVec 64 :=
  bs.foldl (fun out b => (out <<< 8) ||| b.setWidth 64) 0

theorem shiftLeft_or_byte (n : Nat) (b : Byte) :
    (BitVec.ofNat 64 n <<< 8) ||| b.setWidth 64 = BitVec.ofNat 64 (b.toNat + 256*n) := by
  have hb : b.setWidth 64 = BitVec.ofNat 64 b.toNat := (BitVec.ofNat_toNat 64 b).symm
  have hn : BitVec.ofNat 64 n <<< 8 = BitVec.ofNat 64 (n <<< 8) := by
    apply BitVec.eq_of_toNat_eq
    simp [Nat.shiftLeft_eq]
  rw [hb,hn,← BitVec.ofNat_or,← Nat.shiftLeft_add_eq_or_of_lt b.isLt,Nat.shiftLeft_eq]
  congr 1
  omega

theorem bigEndian_reverse (bs : List Byte) : bigEndian bs.reverse = BitVec.ofNat 64 (ofBytes bs) := by
  induction bs with
  | nil => rfl
  | cons b bs ih =>
    have h : bigEndian (bs.reverse ++ [b]) = (bigEndian bs.reverse <<< 8) ||| b.setWidth 64 := by
      simp [bigEndian]
    rw [List.reverse_cons,h,ih,shiftLeft_or_byte]
    rfl

abbrev Memory := Int → Byte

namespace Memory

def put (m : Memory) (p : Int) (b : Byte) : Memory := fun i => if i = p then b else m i

def store (m : Memory) (p : Int) : List Byte → Memory
  | [] => m
  | b :: bs => store (put m p b) (p+1) bs

def load (m : Memory) (p : Int) : Nat → List Byte
  | 0 => []
  | n+1 => m p :: load m (p+1) n

@[simp] theorem load_length (m : Memory) (p : Int) (n : Nat) : (load m p n).length = n := by
  induction n generalizing p with
  | zero => rfl
  | succ n ih => simp [load,ih]

theorem load_add (m : Memory) (p : Int) (a b : Nat) :
    load m p (a+b) = load m p a ++ load m (p+a) b := by
  induction a generalizing p with
  | zero => simp [load]
  | succ a ih =>
    have hp : p+1+(a : Int) = p+((a+1 : Nat) : Int) := by omega
    rw [Nat.succ_add]
    simp only [load,ih,List.cons_append,hp]

theorem load_drop (m : Memory) (p : Int) (n k : Nat) :
    (load m p n).drop k = load m (p+k) (n-k) := by
  induction k generalizing p n with
  | zero => simp
  | succ k ih =>
    cases n with
    | zero => simp [load]
    | succ n =>
      have hp : p+1+(k : Int) = p+((k+1 : Nat) : Int) := by omega
      simp only [load,List.drop_succ_cons,ih,hp,Nat.add_sub_add_right]

theorem load_congr (m m' : Memory) (p : Int) (n : Nat)
    (h : ∀ i, p ≤ i → i < p+n → m i = m' i) : load m p n = load m' p n := by
  induction n generalizing p with
  | zero => rfl
  | succ n ih =>
    have hhead := h p (by omega) (by omega)
    have htail := ih (p+1) (fun i h₁ h₂ => h i (by omega) (by omega))
    simp [load,hhead,htail]

theorem load_shift (m : Memory) (p q : Int) (n : Nat) :
    load (fun i => m (p+i)) q n = load m (p+q) n := by
  induction n generalizing q with
  | zero => rfl
  | succ n ih =>
    simp only [load,ih]
    congr 2
    omega

theorem store_outside (m : Memory) (p : Int) (bs : List Byte) (i : Int)
    (h : i < p ∨ p+bs.length ≤ i) : store m p bs i = m i := by
  induction bs generalizing m p with
  | nil => rfl
  | cons b bs ih =>
    simp only [List.length_cons] at h
    rw [store,ih _ _ (by omega),put,if_neg (by omega)]

theorem load_store_before (m : Memory) (p q : Int) (n : Nat) (bs : List Byte) (h : q+n ≤ p) :
    load (store m p bs) q n = load m q n := by
  apply load_congr
  intro i _ h₂
  exact store_outside m p bs i (Or.inl (by omega))

theorem load_store (m : Memory) (p : Int) (bs : List Byte) :
    load (store m p bs) p bs.length = bs := by
  induction bs generalizing m p with
  | nil => rfl
  | cons b bs ih =>
    have hb : store (put m p b) (p+1) bs p = b := by
      rw [store_outside _ _ _ _ (Or.inl (by omega))]
      simp [put]
    simp only [List.length_cons,store,load,ih,hb]

end Memory

end Stm32Dds.Bytes
