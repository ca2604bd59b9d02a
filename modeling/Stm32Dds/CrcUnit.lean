import Stm32Dds.Checksums

set_option autoImplicit false

namespace Stm32Dds.Crc
open Checksums

/-- The CRC unit of the chip, as far as crc.c uses it: CRC_ResetDR sets the data register to
a value, and a word that is written to the register is combined with what it holds. -/
structure Unit where
  reset : BitVec 32
  write : BitVec 32 → BitVec 32 → BitVec 32

/-- Neither a word nor the register before it can be changed without changing the register
behind it. -/
structure Unit.OneToOne (u : Unit) : Prop where
  word : ∀ dr, Function.Injective (u.write dr)
  register : ∀ word, Function.Injective fun dr => u.write dr word

section
variable (u : Unit)

def crcCalcBlockCRC (dr : BitVec 32) (buf : List (BitVec 32)) : BitVec 32 := buf.foldl u.write dr

def crcContinue (dr : BitVec 32) (buf : List (BitVec 32)) : BitVec 32 := crcCalcBlockCRC u dr buf

def crc (buf : List (BitVec 32)) : BitVec 32 := crcContinue u u.reset buf

end

section
variable {u : Unit}

theorem crcContinue_injective (h : u.OneToOne) (buf : List (BitVec 32)) :
    Function.Injective fun dr => crcContinue u dr buf := by
  induction buf with
  | nil => exact fun _ _ h => h
  | cons word buf ih => exact fun _ _ heq => h.register word (ih heq)

theorem crc_append (front rear : List (BitVec 32)) :
    crc u (front ++ rear) = crcContinue u (crc u front) rear := List.foldl_append

theorem crc_word_changed (h : u.OneToOne) (front rear : List (BitVec 32)) {a b : BitVec 32}
    (hne : a ≠ b) : crc u (front ++ a :: rear) ≠ crc u (front ++ b :: rear) := by
  intro heq
  rw [crc_append,crc_append] at heq
  exact hne (h.word _ (crcContinue_injective h rear heq))

end

/-- The unit that the manual of the chip describes. -/
def stm32 : Unit := ⟨0xFFFFFFFF,feed 0x04C11DB7⟩

theorem stm32_oneToOne : stm32.OneToOne :=
  ⟨feed_word_injective (by decide),feed_register_injective (by decide)⟩

def blankWord : BitVec 32 := 0xFFFFFFFF

theorem crcContinue_replicate (n : Nat) (word dr : BitVec 32) :
    crcContinue stm32 dr (List.replicate n word) = (feed 0x04C11DB7 · word)^[n] dr := by
  induction n generalizing dr with
  | zero => rfl
  | succ n ih => exact ih (stm32.write dr word)

/-- The register that 4080 blank words, all but fifteen of a sector, turn into a blank word. -/
theorem crcContinue_blank :
    crcContinue stm32 0xBECAE224 (List.replicate 4080 blankWord) = blankWord := by
  have hfixed : feed 0x04C11DB7 0x03BF0B6D blankWord = 0x03BF0B6D := by decide +kernel
  have hsteps : 32*4080 = 255*2^9 := by decide
  exact (crcContinue_replicate 4080 blankWord _).trans
    ((iterate_feed_doubled hfixed hsteps _).trans (by decide +kernel))

theorem crc_blank_rear {front : List (BitVec 32)} (h : crc stm32 front ≠ 0xBECAE224) :
    crc stm32 (front ++ List.replicate 4080 blankWord) ≠ blankWord := by
  intro heq
  rw [crc_append] at heq
  exact h (crcContinue_injective stm32_oneToOne _ (heq.trans crcContinue_blank.symm))

end Stm32Dds.Crc
