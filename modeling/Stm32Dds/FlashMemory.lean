import Stm32Dds.ByteMemory

/-! Flash memory. Erasing fills a block with ones and programming can only clear
bits, so a byte holds what was programmed if it was blank before. A sealed block
starts with a word computed from the words behind it. -/

set_option autoImplicit false

namespace Stm32Dds.FlashMemory
open Bytes

inductive Op
  | erase (p : Int) (n : Nat)
  | program (p : Int) (b : Byte)
  deriving DecidableEq, Repr

/-- The cells, and every operation the controller was asked for. -/
structure Flash where
  mem : Memory
  log : List Op

namespace Flash

def erase (p : Int) (n : Nat) (f : Flash) : Flash :=
  ⟨fun i => if p ≤ i ∧ i < p+n then 0xFF else f.mem i,f.log ++ [.erase p n]⟩

def programByte (p : Int) (b : Byte) (f : Flash) : Flash :=
  ⟨f.mem.put p (f.mem p &&& b),f.log ++ [.program p b]⟩

def program (p : Int) : List Byte → Flash → Flash
  | [], f => f
  | b :: bs, f => program (p+1) bs (programByte p b f)

end Flash

def Blank (m : Memory) (p : Int) (n : Nat) : Prop := ∀ i, p ≤ i → i < p+n → m i = 0xFF

theorem erase_blank (p : Int) (n : Nat) (f : Flash) : Blank (f.erase p n).mem p n := by
  intro i h₁ h₂
  exact if_pos ⟨h₁,h₂⟩

theorem erase_outside (p : Int) (n : Nat) (f : Flash) (i : Int) (h : i < p ∨ p+n ≤ i) :
    (f.erase p n).mem i = f.mem i := if_neg (by omega)

theorem Blank.mono {m : Memory} {p q : Int} {n k : Nat} (h : Blank m p n) (hp : p ≤ q)
    (hn : q+k ≤ p+n) : Blank m q k :=
  fun i h₁ h₂ => h i (by omega) (by omega)

theorem Blank.store {m : Memory} {p q : Int} {n : Nat} {bs : List Byte} (h : Blank m p n)
    (hq : p+n ≤ q ∨ q+bs.length ≤ p) : Blank (m.store q bs) p n := by
  intro i h₁ h₂
  rw [Memory.store_outside m q bs i (by omega),h i h₁ h₂]

theorem program_mem (p : Int) (bs : List Byte) (f : Flash) (h : Blank f.mem p bs.length) :
    (f.program p bs).mem = f.mem.store p bs := by
  induction bs generalizing p f with
  | nil => rfl
  | cons b bs ih =>
    simp only [List.length_cons] at h
    have hp : f.mem p &&& b = b := by
      rw [h p (by omega) (by omega)]
      exact BitVec.allOnes_and
    have hbyte : (f.programByte p b).mem = f.mem.put p b := by
      rw [Flash.programByte,hp]
    have hrest : Blank (f.programByte p b).mem (p+1) bs.length := by
      intro i h₁ h₂
      rw [hbyte,Memory.put,if_neg (by omega)]
      exact h i (by omega) (by omega)
    rw [Flash.program,ih (p+1) _ hrest,hbyte,Memory.store]

theorem blank_load {m : Memory} {p : Int} {n : Nat} (h : Blank m p n) :
    m.load p n = List.replicate n 0xFF := by
  induction n generalizing p with
  | zero => rfl
  | succ n ih =>
    have hp := h p (by omega) (by omega)
    rw [Memory.load,ih (h.mono (by omega) (by omega)),hp,List.replicate_succ]

def words : Nat → List Byte → List (BitVec 32)
  | 0, _ => []
  | n+1, bs => wordOf (bs.take 4) :: words n (bs.drop 4)

theorem words_blank (n : Nat) :
    words n (List.replicate (4*n) 0xFF) = List.replicate n 0xFFFFFFFF := by
  induction n with
  | zero => rfl
  | succ n ih =>
    have h₄ : 4*(n+1) = 4+4*n := by omega
    have hsplit : List.replicate (4*(n+1)) (0xFF : Byte) =
        List.replicate 4 0xFF ++ List.replicate (4*n) 0xFF := by
      rw [h₄,List.replicate_add]
    have hword : wordOf (List.replicate 4 0xFF) = 0xFFFFFFFF := by decide
    rw [words,hsplit,List.take_left' (by simp),List.drop_left' (by simp),ih,hword,
      List.replicate_succ]

section
variable (crc : List (BitVec 32) → BitVec 32)

def Sealed (m : Memory) (p : Int) (n : Nat) : Prop :=
  wordOf (m.load p 4) = crc (words n (m.load (p+4) (4*n)))

instance (m : Memory) (p : Int) (n : Nat) : Decidable (Sealed crc m p n) :=
  inferInstanceAs (Decidable (_ = _))

variable {crc}

theorem sealed_store (m : Memory) (p : Int) (n : Nat) :
    Sealed crc (m.store p (wordBytes (crc (words n (m.load (p+4) (4*n)))))) p n := by
  have hseal : ∀ w, wordOf ((m.store p (wordBytes w)).load p 4) = w := by
    intro w
    have hload := Memory.load_store m p (wordBytes w)
    rw [wordBytes_length] at hload
    rw [hload,wordOf_wordBytes]
  have hbody : ∀ w, (m.store p (wordBytes w)).load (p+4) (4*n) = m.load (p+4) (4*n) := by
    intro w
    apply Memory.load_congr
    intro i h₁ h₂
    exact Memory.store_outside m p _ i (Or.inr (by simpa using h₁))
  rw [Sealed,hseal,hbody]

theorem not_sealed_blank {m : Memory} {p : Int} {n : Nat} (h : Blank m p (4+4*n))
    (hcrc : crc (List.replicate n 0xFFFFFFFF) ≠ 0xFFFFFFFF) : ¬ Sealed crc m p n := by
  have hhead : m.load p 4 = List.replicate 4 0xFF := blank_load (h.mono (by omega) (by omega))
  have hbody : m.load (p+4) (4*n) = List.replicate (4*n) 0xFF :=
    blank_load (h.mono (by omega) (by push_cast; omega))
  have hword : wordOf (List.replicate 4 0xFF) = 0xFFFFFFFF := by decide
  rw [Sealed,hhead,hbody,words_blank,hword]
  exact hcrc.symm

end

end Stm32Dds.FlashMemory
