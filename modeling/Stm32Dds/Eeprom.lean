import Stm32Dds.FlashMemory

/-! Three flash sectors of 16 KiB used as eeprom blocks. Every operation of the
controller ends with FLASH_COMPLETE, so the results of eeprom_write and
eeprom_erase, which no caller reads, are left out. -/

set_option autoImplicit false

namespace Stm32Dds.Eeprom
open Bytes FlashMemory

inductive EepromId
  | block0 | block1 | block2
  deriving DecidableEq, Repr

/-- FLASH_Sector_1 to FLASH_Sector_3, as the register of the controller wants them. -/
def EepromId.code : EepromId → Nat
  | .block0 => 0x0008
  | .block1 => 0x0010
  | .block2 => 0x0018

/-- The offset is a 16-bit number. -/
def eepromGet (id : EepromId) (addr : Nat) : Int :=
  0x08000000+(id.code*0x800 : Nat)+(addr % 2^16 : Nat)

def eepromGetSize (_ : EepromId) : Nat := 0x4000

def eepromWriteFrom (id : EepromId) (addr : Nat) : Nat → List Byte → Flash → Flash
  | _, [], f => f
  | i, b :: bs, f => eepromWriteFrom id addr (i+1) bs (f.programByte (eepromGet id (addr+i)) b)

def eepromWrite (id : EepromId) (addr : Nat) (data : List Byte) (f : Flash) : Flash :=
  eepromWriteFrom id addr 0 data f

def sectorStart : EepromId → Int
  | .block0 => 0x08004000
  | .block1 => 0x08008000
  | .block2 => 0x0800C000

def eepromErase (id : EepromId) (f : Flash) : Flash := f.erase (sectorStart id) 0x4000

def InSector (id : EepromId) (i : Int) : Prop := sectorStart id ≤ i ∧ i < sectorStart id+0x4000

theorem eepromGet_eq (id : EepromId) {addr : Nat} (h : addr < 2^16) :
    eepromGet id addr = sectorStart id+addr := by
  cases id <;> simp only [eepromGet,EepromId.code,sectorStart] <;> omega

theorem not_inSector_of_ne {id id' : EepromId} (h : id ≠ id') {i : Int} (hi : InSector id i) :
    ¬ InSector id' i := by
  simp only [InSector] at *
  cases id <;> cases id' <;> simp only [sectorStart] at * <;> first | contradiction | omega

theorem eepromWriteFrom_eq (id : EepromId) (addr i : Nat) (data : List Byte) (f : Flash)
    (h : addr+i+data.length ≤ 2^16) :
    eepromWriteFrom id addr i data f = f.program (sectorStart id+(addr+i : Nat)) data := by
  induction data generalizing i f with
  | nil => rfl
  | cons b bs ih =>
    simp only [List.length_cons] at h
    have hp : sectorStart id+((addr+(i+1) : Nat) : Int) = sectorStart id+((addr+i : Nat) : Int)+1 := by
      omega
    rw [eepromWriteFrom,ih (i+1) _ (by omega),eepromGet_eq id (by omega),Flash.program,hp]

theorem eepromWrite_mem (id : EepromId) (addr : Nat) (data : List Byte) (f : Flash)
    (hlen : addr+data.length ≤ 2^16) (hblank : Blank f.mem (sectorStart id+addr) data.length) :
    (eepromWrite id addr data f).mem = f.mem.store (sectorStart id+addr) data := by
  rw [eepromWrite,eepromWriteFrom_eq id addr 0 data f (by omega)]
  exact program_mem _ data f hblank

theorem eepromErase_blank (id : EepromId) (f : Flash) :
    Blank (eepromErase id f).mem (sectorStart id) 0x4000 := erase_blank _ _ f

theorem eepromErase_outside (id : EepromId) (f : Flash) (i : Int) (h : ¬ InSector id i) :
    (eepromErase id f).mem i = f.mem i := by
  refine erase_outside _ _ f i ?_
  simp only [InSector] at h
  omega

end Stm32Dds.Eeprom
