import Stm32Dds.CrcUnit
import Stm32Dds.Eeprom
import Stm32Dds.QueueRecords

set_option autoImplicit false

namespace Stm32Dds.Startup
open Bytes Tagged FlashMemory Eeprom Commands

def startupEeprom : EepromId := .block0

/-- (eeprom_get_size - sizeof(uint32_t)) / sizeof(uint32_t) -/
def startupWords : Nat := (eepromGetSize startupEeprom-4)/4

section
variable (crc : List (BitVec 32) → BitVec 32)

def startupCommandClear (f : Flash) : Flash := eepromErase startupEeprom f

def startupCommandSave (q : CommandQueue) (f : Flash) : Flash :=
  let f := startupCommandClear f
  let len := BitVec.ofInt 32 q.endPtr
  let f := eepromWrite startupEeprom 4 (wordBytes len) f
  let f := eepromWrite startupEeprom (4+4) (q.mem.load 0 len.toNat) f
  let crcsum := crc (words startupWords (f.mem.load (eepromGet startupEeprom 4) (4*startupWords)))
  eepromWrite startupEeprom 0 (wordBytes crcsum) f

def startupQueue (m : Memory) : CommandQueue :=
  let len := eepromGet startupEeprom 4
  ⟨fun i => m (len+4+i),(wordOf (m.load len 4)).toNat,0⟩

def startupCommandExecute {σ : Type} (ledOn : σ → σ) (handle : Rec → σ → σ) (ledOff : σ → σ)
    (f : Flash) (s : σ) : Option σ :=
  let crcSaved := wordOf (f.mem.load (eepromGet startupEeprom 0) 4)
  let crcCalc := crc (words startupWords (f.mem.load (eepromGet startupEeprom 4) (4*startupWords)))
  if crcCalc ≠ crcSaved then some s
  else executeCommands ledOn handle ledOff (startupQueue f.mem) s

end

/-- A queue in its buffer together with the records it is made of. -/
structure RecordQueue where
  queue : CommandQueue
  records : List Rec
  inBuffer : InBuffer queue
  content_eq : content queue = encode records
  sized : Sized executedPayload records

def RecordQueue.ofRecords (rs : List Rec) (sized : Sized executedPayload rs)
    (fits : (encode rs).length ≤ commandQueueLength) : RecordQueue where
  queue := ⟨Memory.store (fun _ => 0) 0 (encode rs),(encode rs).length,0⟩
  records := rs
  inBuffer := ⟨by simp,by simpa using fits⟩
  content_eq := by
    simp only [content,Int.toNat_natCast]
    exact Memory.load_store _ 0 (encode rs)
  sized := sized

inductive StartupOp
  | save (q : RecordQueue)
  | clear

def StartupOp.step (crc : List (BitVec 32) → BitVec 32) (f : Flash) : StartupOp → Flash
  | .save q => startupCommandSave crc q.queue f
  | .clear => startupCommandClear f

section Execute
variable {crc : List (BitVec 32) → BitVec 32} {σ : Type}

theorem startupCommandExecute_sealed (ledOn ledOff : σ → σ) (handle : Rec → σ → σ) {f : Flash}
    (h : Sealed crc f.mem (sectorStart startupEeprom) startupWords) (s : σ) :
    startupCommandExecute crc ledOn handle ledOff f s =
      executeCommands ledOn handle ledOff (startupQueue f.mem) s := if_neg (not_not.mpr h.symm)

theorem startupCommandExecute_unsealed (ledOn ledOff : σ → σ) (handle : Rec → σ → σ) {f : Flash}
    (h : ¬ Sealed crc f.mem (sectorStart startupEeprom) startupWords) (s : σ) :
    startupCommandExecute crc ledOn handle ledOff f s = some s := if_pos (fun e => h e.symm)

theorem executeCommands_startupQueue (ledOn ledOff : σ → σ) (handle : Rec → σ → σ) {m : Memory}
    {rs : List Rec} (hsized : Sized executedPayload rs)
    (hlen : (wordOf (m.load (sectorStart startupEeprom+4) 4)).toNat = (encode rs).length)
    (hbytes : m.load (sectorStart startupEeprom+8) (encode rs).length = encode rs) (s : σ) :
    executeCommands ledOn handle ledOff (startupQueue m) s =
      some (ledOff (rs.foldl (fun s r => handle r s) (ledOn s))) := by
  have hend : (startupQueue m).endPtr = (encode rs).length := by
    rw [← hlen]
    rfl
  have hbegin : eepromGet startupEeprom 4+4 = sectorStart startupEeprom+8 := rfl
  have hcontent : content (startupQueue m) = encode rs := by
    rw [content,hend,Int.toNat_natCast]
    simp only [startupQueue,hbegin]
    rw [Memory.load_shift,Int.add_zero,hbytes]
  exact executeCommands_eq ledOn ledOff handle (startupQueue m)
    (fun s => rs.foldl (fun s r => handle r s) s)
    (executePass_encode (by rw [hend]; omega) hsized hcontent handle) s

end Execute

section Save
variable {q : CommandQueue}

/-- Length and content as they lie in the sector when the checksum is taken. -/
def written (q : CommandQueue) (f : Flash) : Memory :=
  ((startupCommandClear f).mem.store (sectorStart startupEeprom+4) (wordBytes (BitVec.ofInt 32 q.endPtr))).store
    (sectorStart startupEeprom+8) (content q)

theorem length_word (hq : InBuffer q) : (BitVec.ofInt 32 q.endPtr).toNat = q.endPtr.toNat := by
  obtain ⟨h₀,h₁⟩ := hq
  simp only [commandQueueLength] at h₁
  rw [BitVec.toNat_ofInt]
  omega

theorem written_outside (hq : InBuffer q) (f : Flash) (i : Int) (hi : ¬ InSector startupEeprom i) :
    written q f i = f.mem i := by
  have hlen := content_length hq
  obtain ⟨h₀,h₁⟩ := hq
  simp only [commandQueueLength] at h₁
  have hi' := hi
  simp only [InSector] at hi'
  rw [written,Memory.store_outside _ _ _ _ (by omega),
    Memory.store_outside _ _ _ _ (by simp only [wordBytes_length]; omega)]
  exact eepromErase_outside startupEeprom f i hi

theorem startupCommandSave_mem (crc : List (BitVec 32) → BitVec 32) (hq : InBuffer q) (f : Flash) :
    (startupCommandSave crc q f).mem =
      (written q f).store (sectorStart startupEeprom) (wordBytes (crc (words startupWords
        ((written q f).load (sectorStart startupEeprom+4) (4*startupWords))))) := by
  have hclear : Blank (startupCommandClear f).mem (sectorStart startupEeprom) 0x4000 :=
    eepromErase_blank startupEeprom f
  have hlen := content_length hq
  have hdata : q.mem.load 0 (BitVec.ofInt 32 q.endPtr).toNat = content q := by
    rw [length_word hq,content]
  obtain ⟨h₀,h₁⟩ := hq
  simp only [commandQueueLength] at h₁
  simp only [startupCommandSave,hdata]
  generalize hf₁ : eepromWrite startupEeprom 4 (wordBytes (BitVec.ofInt 32 q.endPtr))
    (startupCommandClear f) = f₁
  have hm₁ : f₁.mem = (startupCommandClear f).mem.store (sectorStart startupEeprom+4)
      (wordBytes (BitVec.ofInt 32 q.endPtr)) := by
    rw [← hf₁]
    exact eepromWrite_mem startupEeprom 4 _ _ (by simp)
      (hclear.mono (by omega) (by simp only [wordBytes_length]; omega))
  generalize hf₂ : eepromWrite startupEeprom (4+4) (content q) f₁ = f₂
  have hblank₁ : Blank f₁.mem (sectorStart startupEeprom+8) (content q).length := by
    rw [hm₁]
    exact (hclear.mono (by omega) (by omega)).store (Or.inr (by rw [wordBytes_length]; omega))
  have hm₂ : f₂.mem = written q f := by
    rw [← hf₂,written,← hm₁]
    exact eepromWrite_mem startupEeprom 8 _ _ (by omega) hblank₁
  have hblank₂ : Blank f₂.mem (sectorStart startupEeprom) 4 := by
    rw [hm₂,written]
    exact ((hclear.mono (by omega) (by omega)).store (Or.inl (by simp))).store (Or.inl (by simp))
  have h₄ : eepromGet startupEeprom 4 = sectorStart startupEeprom+4 := rfl
  rw [h₄,hm₂]
  have hlast := eepromWrite_mem startupEeprom 0 (wordBytes (crc (words startupWords
    ((written q f).load (sectorStart startupEeprom+4) (4*startupWords))))) f₂ (by simp) (by simpa using hblank₂)
  rw [hlast,hm₂]
  simp

theorem written_length (q : CommandQueue) (f : Flash) :
    wordOf ((written q f).load (sectorStart startupEeprom+4) 4) = BitVec.ofInt 32 q.endPtr := by
  have hload : (written q f).load (sectorStart startupEeprom+4) 4 = wordBytes (BitVec.ofInt 32 q.endPtr) := by
    rw [written,Memory.load_store_before _ _ _ _ _ (by omega)]
    exact Memory.load_store _ _ (wordBytes (BitVec.ofInt 32 q.endPtr))
  rw [hload,wordOf_wordBytes]

theorem written_content (q : CommandQueue) (f : Flash) :
    (written q f).load (sectorStart startupEeprom+8) (content q).length = content q :=
  Memory.load_store _ _ (content q)

end Save

theorem startupCommandExecute_save (crc : List (BitVec 32) → BitVec 32) (q : RecordQueue) (f : Flash)
    {σ : Type} (ledOn ledOff : σ → σ) (handle : Rec → σ → σ) (s : σ) :
    startupCommandExecute crc ledOn handle ledOff (startupCommandSave crc q.queue f) s =
      some (ledOff (q.records.foldl (fun s r => handle r s) (ledOn s))) := by
  have hmem := startupCommandSave_mem crc q.inBuffer f
  have hsealed : Sealed crc (startupCommandSave crc q.queue f).mem (sectorStart startupEeprom)
      startupWords := by
    rw [hmem]
    exact sealed_store _ _ _
  -- writing the checksum leaves the bytes behind it
  have hbehind : ∀ (p : Int) (n : Nat), sectorStart startupEeprom+4 ≤ p →
      (startupCommandSave crc q.queue f).mem.load p n = (written q.queue f).load p n := by
    intro p n hp
    rw [hmem]
    apply Memory.load_congr
    intro i h₁ h₂
    exact Memory.store_outside _ _ _ i (Or.inr (by rw [wordBytes_length]; omega))
  have hlen := content_length q.inBuffer
  rw [q.content_eq] at hlen
  rw [startupCommandExecute_sealed ledOn ledOff handle hsealed]
  refine executeCommands_startupQueue ledOn ledOff handle q.sized ?_ ?_ s
  · rw [hbehind _ _ (by omega),written_length,length_word q.inBuffer]
    omega
  · rw [hbehind _ _ (by omega),← q.content_eq,written_content]

theorem startupCommandExecute_clear {crc : List (BitVec 32) → BitVec 32}
    (hcrc : crc (List.replicate startupWords 0xFFFFFFFF) ≠ 0xFFFFFFFF) (f : Flash)
    {σ : Type} (ledOn ledOff : σ → σ) (handle : Rec → σ → σ) (s : σ) :
    startupCommandExecute crc ledOn handle ledOff (startupCommandClear f) s = some s := by
  have hblank : Blank (startupCommandClear f).mem (sectorStart startupEeprom) (4+4*startupWords) :=
    eepromErase_blank startupEeprom f
  exact startupCommandExecute_unsealed ledOn ledOff handle (not_sealed_blank hblank hcrc) s

theorem StartupOp.step_outside (crc : List (BitVec 32) → BitVec 32) (f : Flash) (op : StartupOp)
    (i : Int) (hi : ¬ InSector startupEeprom i) : (op.step crc f).mem i = f.mem i := by
  cases op with
  | save q =>
    have hi' := hi
    simp only [InSector] at hi'
    rw [step,startupCommandSave_mem crc q.inBuffer f,
      Memory.store_outside _ _ _ _ (by rw [wordBytes_length]; omega)]
    exact written_outside q.inBuffer f i hi
  | clear => exact eepromErase_outside startupEeprom f i hi

theorem run_outside (crc : List (BitVec 32) → BitVec 32) (f : Flash) (ops : List StartupOp)
    (i : Int) (hi : ¬ InSector startupEeprom i) :
    (Runs.run (StartupOp.step crc) f ops).mem i = f.mem i := by
  induction ops generalizing f with
  | nil => rfl
  | cons op ops ih => exact (ih (op.step crc f)).trans (op.step_outside crc f i hi)

/-- What a boot plays is decided by the last operation on the sector. -/
theorem startup_plays_last (crc : List (BitVec 32) → BitVec 32)
    (hcrc : crc (List.replicate startupWords 0xFFFFFFFF) ≠ 0xFFFFFFFF)
    (f : Flash) (ops : List StartupOp) :
    let f' := Runs.run (StartupOp.step crc) f ops
    (∀ q, ops.getLast? = some (.save q) →
      ∀ (σ : Type) (ledOn ledOff : σ → σ) (handle : Rec → σ → σ) (s : σ),
        startupCommandExecute crc ledOn handle ledOff f' s =
          some (ledOff (q.records.foldl (fun s r => handle r s) (ledOn s)))) ∧
    (ops.getLast? = some .clear →
      ∀ (σ : Type) (ledOn ledOff : σ → σ) (handle : Rec → σ → σ) (s : σ),
        startupCommandExecute crc ledOn handle ledOff f' s = some s) ∧
    ∀ i, ¬ InSector startupEeprom i → f'.mem i = f.mem i := by
  intro f'
  have hlast : ∀ op, ops.getLast? = some op → ∃ f₀, f' = op.step crc f₀ := by
    intro op hop
    obtain ⟨pre,rfl⟩ := List.getLast?_eq_some_iff.mp hop
    exact ⟨Runs.run (StartupOp.step crc) f pre,Runs.run_append (StartupOp.step crc) f pre [op]⟩
  refine ⟨?_,?_,run_outside crc f ops⟩
  · intro q hq σ ledOn ledOff handle s
    obtain ⟨f₀,hf⟩ := hlast _ hq
    rw [hf]
    exact startupCommandExecute_save crc q f₀ ledOn ledOff handle s
  · intro hclear σ ledOn ledOff handle s
    obtain ⟨f₀,hf⟩ := hlast _ hclear
    rw [hf]
    exact startupCommandExecute_clear hcrc f₀ ledOn ledOff handle s

def twoRecords : RecordQueue :=
  .ofRecords [(CommandType.wait.code,wordBytes 5),(CommandType.update.code,[])]
    (by unfold Sized; decide) (by decide)

theorem stm32_crc_blank :
    Crc.crc Crc.stm32 (List.replicate startupWords 0xFFFFFFFF) ≠ 0xFFFFFFFF := by
  have hwords : startupWords = 15+4080 := by decide
  rw [hwords,List.replicate_add]
  exact Crc.crc_blank_rear (by decide +kernel)

theorem startup_plays_saved_records :
    let crc := Crc.crc Crc.stm32
    let play := fun ops => startupCommandExecute crc id (fun r rs => rs ++ [r]) id
      (Runs.run (StartupOp.step crc) ⟨fun _ => 0,[]⟩ ops) []
    play [.clear,.save twoRecords] = some twoRecords.records ∧
      play [.save twoRecords,.clear] = some [] := by
  intro crc play
  have hsaved := (startup_plays_last crc stm32_crc_blank ⟨fun _ => 0,[]⟩
    [.clear,.save twoRecords]).1 twoRecords rfl (List Rec) id id (fun r rs => rs ++ [r]) []
  have hcleared := (startup_plays_last crc stm32_crc_blank ⟨fun _ => 0,[]⟩
    [.save twoRecords,.clear]).2.1 rfl (List Rec) id id (fun r rs => rs ++ [r]) []
  exact ⟨hsaved,hcleared⟩

end Stm32Dds.Startup
