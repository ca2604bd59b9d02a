import Stm32Dds.Eeprom
import Stm32Dds.Runs

set_option autoImplicit false

namespace Stm32Dds.ConfigStore
open Bytes FlashMemory Eeprom

abbrev Quad := Fin 4 → Byte

/-- struct config, which is its struct ethernet_config. -/
structure Config where
  address : Quad
  submask : Quad
  gateway : Quad
  deriving DecidableEq

namespace Config

def bytes (c : Config) : List Byte := List.ofFn c.address ++ List.ofFn c.submask ++ List.ofFn c.gateway

def read (m : Memory) (p : Int) : Config :=
  ⟨fun i => m (p+i.val),fun i => m (p+4+i.val),fun i => m (p+8+i.val)⟩

@[simp] theorem bytes_length (c : Config) : c.bytes.length = 12 := by simp [bytes]

theorem bytes_read (m : Memory) (p : Int) : (Config.read m p).bytes = m.load p 12 := by
  simp [bytes,Config.read,Memory.load,List.ofFn_succ,add_assoc]

theorem bytes_injective {c d : Config} (h : c.bytes = d.bytes) : c = d := by
  obtain ⟨h₁,hg⟩ := List.append_inj h (by simp)
  obtain ⟨ha,hs⟩ := List.append_inj h₁ (by simp)
  cases c
  cases d
  simp only [mk.injEq]
  exact ⟨List.ofFn_injective ha,List.ofFn_injective hs,List.ofFn_injective hg⟩

theorem read_store (m : Memory) (p : Int) (c : Config) : Config.read (m.store p c.bytes) p = c := by
  apply bytes_injective
  rw [bytes_read]
  have hload := Memory.load_store m p c.bytes
  rwa [bytes_length] at hload

end Config

def configEeprom : EepromId := .block1

def defaultConfig : Config where
  address := ![172,31,10,50]
  submask := ![255,255,255,0]
  gateway := ![172,31,10,1]

section
variable (crc : List (BitVec 32) → BitVec 32)

def calculateConfigCrc (conf : Config) : BitVec 32 := crc (words 3 conf.bytes)

def configWrite (conf : Config) (f : Flash) : Flash :=
  let f := eepromErase configEeprom f
  let crcsum := calculateConfigCrc crc conf
  let f := eepromWrite configEeprom 0 (wordBytes crcsum) f
  eepromWrite configEeprom 4 conf.bytes f

/-- The pointer it returns, and the flash it leaves. -/
def configGet (f : Flash) : Int × Flash :=
  let crcStored := wordOf (f.mem.load (eepromGet configEeprom 0) 4)
  let conf := eepromGet configEeprom 4
  let crcCalc := calculateConfigCrc crc (Config.read f.mem conf)
  if crcStored ≠ crcCalc then (conf,configWrite crc defaultConfig f) else (conf,f)

variable {crc}

theorem configGet_matching {f : Flash} (h : Sealed crc f.mem (sectorStart configEeprom) 3) :
    configGet crc f = (sectorStart configEeprom+4,f) := by
  refine if_neg (not_not.mpr ?_)
  rw [calculateConfigCrc,Config.bytes_read]
  exact h

theorem configGet_mismatch {f : Flash} (h : ¬ Sealed crc f.mem (sectorStart configEeprom) 3) :
    configGet crc f = (sectorStart configEeprom+4,configWrite crc defaultConfig f) := by
  refine if_pos ?_
  rw [calculateConfigCrc,Config.bytes_read]
  exact h

theorem configWrite_mem (conf : Config) (f : Flash) :
    (configWrite crc conf f).mem =
      ((eepromErase configEeprom f).mem.store (sectorStart configEeprom)
        (wordBytes (calculateConfigCrc crc conf))).store (sectorStart configEeprom+4) conf.bytes := by
  have hblank := eepromErase_blank configEeprom f
  have hfirst : (eepromWrite configEeprom 0 (wordBytes (calculateConfigCrc crc conf))
      (eepromErase configEeprom f)).mem = (eepromErase configEeprom f).mem.store
        (sectorStart configEeprom) (wordBytes (calculateConfigCrc crc conf)) := by
    have hw := eepromWrite_mem configEeprom 0 (wordBytes (calculateConfigCrc crc conf))
      (eepromErase configEeprom f) (by simp) (hblank.mono (by omega) (by simp))
    simpa using hw
  rw [configWrite,← hfirst]
  apply eepromWrite_mem configEeprom 4 conf.bytes _ (by simp)
  rw [hfirst,Config.bytes_length]
  exact (hblank.mono (by omega) (by omega)).store (Or.inr (by simp))

theorem configWrite_sealed (conf : Config) (f : Flash) :
    Sealed crc (configWrite crc conf f).mem (sectorStart configEeprom) 3 := by
  have hbody : (configWrite crc conf f).mem.load (sectorStart configEeprom+4) 12 = conf.bytes := by
    rw [configWrite_mem]
    have hload := Memory.load_store ((eepromErase configEeprom f).mem.store (sectorStart configEeprom)
      (wordBytes (calculateConfigCrc crc conf))) (sectorStart configEeprom+4) conf.bytes
    rwa [Config.bytes_length] at hload
  have hhead : (configWrite crc conf f).mem.load (sectorStart configEeprom) 4 =
      wordBytes (calculateConfigCrc crc conf) := by
    rw [configWrite_mem,Memory.load_store_before _ _ _ _ _ (by omega)]
    exact Memory.load_store _ _ (wordBytes (calculateConfigCrc crc conf))
  rw [Sealed,hhead,wordOf_wordBytes,hbody,calculateConfigCrc]

theorem configWrite_read (conf : Config) (f : Flash) :
    Config.read (configWrite crc conf f).mem (sectorStart configEeprom+4) = conf := by
  rw [configWrite_mem]
  exact Config.read_store _ _ conf

theorem configWrite_outside (conf : Config) (f : Flash) (i : Int) (hi : ¬ InSector configEeprom i) :
    (configWrite crc conf f).mem i = f.mem i := by
  have hi' := hi
  simp only [InSector] at hi'
  rw [configWrite_mem,Memory.store_outside _ _ _ _ (by rw [Config.bytes_length]; omega),
    Memory.store_outside _ _ _ _ (by rw [wordBytes_length]; omega)]
  exact eepromErase_outside configEeprom f i hi

def stored (crc : List (BitVec 32) → BitVec 32) (f : Flash) : Config :=
  if Sealed crc f.mem (sectorStart configEeprom) 3 then
    Config.read f.mem (sectorStart configEeprom+4)
  else defaultConfig

theorem configGet_read (f : Flash) :
    Config.read (configGet crc f).2.mem (configGet crc f).1 = stored crc f := by
  by_cases h : Sealed crc f.mem (sectorStart configEeprom) 3
  · rw [configGet_matching h,stored,if_pos h]
  · rw [configGet_mismatch h,stored,if_neg h]
    exact configWrite_read defaultConfig f

theorem configGet_sealed (f : Flash) :
    Sealed crc (configGet crc f).2.mem (sectorStart configEeprom) 3 := by
  by_cases h : Sealed crc f.mem (sectorStart configEeprom) 3
  · rwa [configGet_matching h]
  · rw [configGet_mismatch h]
    exact configWrite_sealed defaultConfig f

theorem configGet_again (f : Flash) : configGet crc (configGet crc f).2 = configGet crc f := by
  rw [configGet_matching (configGet_sealed f)]
  by_cases h : Sealed crc f.mem (sectorStart configEeprom) 3
  · rw [configGet_matching h]
  · rw [configGet_mismatch h]

theorem configGet_outside (f : Flash) (i : Int) (hi : ¬ InSector configEeprom i) :
    (configGet crc f).2.mem i = f.mem i := by
  by_cases h : Sealed crc f.mem (sectorStart configEeprom) 3
  · rw [configGet_matching h]
  · rw [configGet_mismatch h]
    exact configWrite_outside defaultConfig f i hi

theorem run_configWrite_outside (f : Flash) (confs : List Config) (i : Int)
    (hi : ¬ InSector configEeprom i) :
    (Runs.run (fun f c => configWrite crc c f) f confs).mem i = f.mem i := by
  induction confs generalizing f with
  | nil => rfl
  | cons c confs ih => exact (ih (configWrite crc c f)).trans (configWrite_outside c f i hi)

end

theorem config_repaired_and_kept (crc : List (BitVec 32) → BitVec 32) (f : Flash) :
    let got := configGet crc f
    (Config.read got.2.mem got.1 = stored crc f ∧
      Sealed crc got.2.mem (sectorStart configEeprom) 3 ∧
      configGet crc got.2 = got ∧
      ∀ i, InSector .block0 i → got.2.mem i = f.mem i) ∧
    ∀ (confs : List Config) (last : Config),
      let f' := Runs.run (fun f c => configWrite crc c f) f (confs ++ [last])
      Config.read (configGet crc f').2.mem (configGet crc f').1 = last ∧
        (configGet crc f').2 = f' ∧
        ∀ i, InSector .block0 i → f'.mem i = f.mem i := by
  intro got
  have hother : ∀ i, InSector .block0 i → ¬ InSector configEeprom i :=
    fun i hi => not_inSector_of_ne (by decide) hi
  constructor
  · exact ⟨configGet_read f,configGet_sealed f,configGet_again f,
      fun i hi => configGet_outside f i (hother i hi)⟩
  · intro confs last f'
    have hlast : f' = configWrite crc last (Runs.run (fun f c => configWrite crc c f) f confs) :=
      Runs.run_append _ f confs [last]
    have hget : configGet crc f' = (sectorStart configEeprom+4,f') := by
      rw [hlast]
      exact configGet_matching (configWrite_sealed last _)
    have hread : Config.read f'.mem (sectorStart configEeprom+4) = last := by
      rw [hlast]
      exact configWrite_read last _
    rw [hget]
    exact ⟨hread,rfl,fun i hi => run_configWrite_outside f _ i (hother i hi)⟩

end Stm32Dds.ConfigStore
