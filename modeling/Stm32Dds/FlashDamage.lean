import Stm32Dds.ConfigStore
import Stm32Dds.StartupStore

set_option autoImplicit false

namespace Stm32Dds.FlashDamage
open Bytes Tagged FlashMemory Eeprom Commands Startup ConfigStore

/-- A block in which one of the words that the checksum is taken of has changed, or only the
checksum. -/
inductive Damaged (m m' : Memory) (p : Int) (n : Nat) : Prop
  | word (i : Nat) (inside : i < n)
      (same : ∀ j, p ≤ j → j < p+4+4*n → ¬(p+4+4*i ≤ j ∧ j < p+4+4*i+4) → m' j = m j)
      (changed : wordOf (m'.load (p+4+4*i) 4) ≠ wordOf (m.load (p+4+4*i) 4))
  | checksum (changed : wordOf (m'.load p 4) ≠ wordOf (m.load p 4))
      (same : m'.load (p+4) (4*n) = m.load (p+4) (4*n))

section Detection

theorem words_load_add (m : Memory) (p : Int) (i k : Nat) :
    words (i+k) (m.load p (4*(i+k))) =
      words i (m.load p (4*i)) ++ words k (m.load (p+4*i) (4*k)) := by
  induction i generalizing p with
  | zero => simp [words]
  | succ i ih =>
    have hsplit (k : Nat) : m.load p (4*(k+1)) = m.load p 4 ++ m.load (p+4) (4*k) := by
      rw [Nat.mul_add,Nat.add_comm,Memory.load_add]
      rfl
    have hat : p+4+4*(i : Int) = p+4*((i+1 : Nat) : Int) := by push_cast; ring
    rw [Nat.add_right_comm,words,words,hsplit,hsplit,List.take_left' (by simp),
      List.drop_left' (by simp),List.take_left' (by simp),List.drop_left' (by simp),ih,hat]
    rfl

theorem words_around (m : Memory) (p : Int) {i n : Nat} (hi : i < n) :
    words n (m.load p (4*n)) = words i (m.load p (4*i)) ++
      wordOf (m.load (p+4*i) 4) :: words (n-i-1) (m.load (p+4*i+4) (4*(n-i-1))) := by
  have hn : n = i+(1+(n-i-1)) := by omega
  conv_lhs => rw [hn]
  rw [words_load_add,words_load_add]
  have htake : (m.load (p+4*i) 4).take 4 = m.load (p+4*i) 4 := List.take_of_length_le (by simp)
  simp only [words,Nat.mul_one,htake]
  rfl

variable {u : Crc.Unit} {m m' : Memory} {p : Int} {n : Nat}

theorem Damaged.not_sealed (h : Damaged m m' p n) (hu : u.OneToOne)
    (hs : Sealed (Crc.crc u) m p n) : ¬Sealed (Crc.crc u) m' p n := by
  intro hs'
  unfold Sealed at hs hs'
  cases h with
  | word i inside same changed =>
    have hload {q : Int} {k : Nat} (hq : p ≤ q) (hk : q+k ≤ p+4+4*n)
        (hapart : q+k ≤ p+4+4*i ∨ p+4+4*i+4 ≤ q) : m'.load q k = m.load q k :=
      Memory.load_congr _ _ _ _ fun j h₁ h₂ => same j (by omega) (by omega) (by omega)
    rw [words_around _ _ inside] at hs hs'
    rw [hload le_rfl (by omega) (.inl (by omega)),
      hload (q := p+4) (by omega) (by push_cast; omega) (.inl (by push_cast; omega)),
      hload (q := p+4+4*i+4) (by omega) (by omega) (.inr le_rfl)] at hs'
    exact Crc.crc_word_changed hu _ _ changed (hs'.symm.trans hs)
  | checksum changed same =>
    rw [same] at hs'
    exact changed (hs'.trans hs.symm)

end Detection

/-- Damage to a sealed block does not go unnoticed: no startup commands are played, and the
network configuration is the default one. -/
theorem damage_detected (u : Crc.Unit) (hu : u.OneToOne) (f g : Flash) :
    (Sealed (Crc.crc u) f.mem (sectorStart startupEeprom) startupWords →
      Damaged f.mem g.mem (sectorStart startupEeprom) startupWords →
      ∀ (σ : Type) (ledOn ledOff : σ → σ) (handle : Rec → σ → σ) (s : σ),
        startupCommandExecute (Crc.crc u) ledOn handle ledOff g s = some s) ∧
    (Sealed (Crc.crc u) f.mem (sectorStart configEeprom) 3 →
      Damaged f.mem g.mem (sectorStart configEeprom) 3 →
      let got := configGet (Crc.crc u) g
      Config.read got.2.mem got.1 = defaultConfig) := by
  constructor
  · intro hs hd σ ledOn ledOff handle s
    exact startupCommandExecute_unsealed ledOn ledOff handle (hd.not_sealed hu hs) s
  · intro hs hd got
    rw [configGet_read,stored,if_neg (hd.not_sealed hu hs)]

def sealedZeros (p : Int) (n : Nat) : Flash :=
  let zeros : Memory := fun _ => 0
  ⟨zeros.store p (wordBytes (Crc.crc Crc.stm32 (words n (zeros.load (p+4) (4*n))))),[]⟩

theorem sealed_sealedZeros (p : Int) (n : Nat) :
    Sealed (Crc.crc Crc.stm32) (sealedZeros p n).mem p n := sealed_store _ _ _

def flipBit (p : Int) (f : Flash) : Flash := ⟨fun i => if i = p then f.mem i ^^^ 1 else f.mem i,f.log⟩

theorem damaged_flipBit (p : Int) {n : Nat} (hn : 0 < n) :
    Damaged (sealedZeros p n).mem (flipBit (p+4) (sealedZeros p n)).mem p n := by
  have hzero : ∀ i, p+4 ≤ i → (sealedZeros p n).mem i = 0 := by
    intro i hi
    exact Memory.store_outside _ _ _ _ (.inr (by rw [wordBytes_length]; exact hi))
  refine .word 0 hn (fun i _ _ hi => if_neg (by omega)) ?_
  have hbefore : (sealedZeros p n).mem.load (p+4+4*(0 : Nat)) 4 = [0,0,0,0] := by
    simp only [Memory.load]
    rw [hzero _ (by omega),hzero _ (by omega),hzero _ (by omega),hzero _ (by omega)]
  have hafter : (flipBit (p+4) (sealedZeros p n)).mem.load (p+4+4*(0 : Nat)) 4 = [1,0,0,0] := by
    simp only [Memory.load,flipBit]
    rw [if_pos (by omega),if_neg (by omega),if_neg (by omega),if_neg (by omega),hzero _ (by omega),
      hzero _ (by omega),hzero _ (by omega),hzero _ (by omega)]
    rfl
  rw [hbefore,hafter]
  decide

theorem flipped_bit_detected :
    (startupCommandExecute (Crc.crc Crc.stm32) id (fun r rs => rs ++ [r]) id
      (flipBit (sectorStart startupEeprom+4) (sealedZeros (sectorStart startupEeprom) startupWords))
      [] = some []) ∧
    let got := configGet (Crc.crc Crc.stm32)
      (flipBit (sectorStart configEeprom+4) (sealedZeros (sectorStart configEeprom) 3))
    Config.read got.2.mem got.1 = defaultConfig :=
  ⟨(damage_detected Crc.stm32 Crc.stm32_oneToOne _ _).1 (sealed_sealedZeros _ _)
      (damaged_flipBit _ (by decide)) _ _ _ _ _,
    (damage_detected Crc.stm32 Crc.stm32_oneToOne _ _).2 (sealed_sealedZeros _ _)
      (damaged_flipBit _ (by decide))⟩

section PowerLoss

def applyOp (m : Memory) : Op → Memory
  | .erase p n => fun i => if p ≤ i ∧ i < p+n then 0xFF else m i
  | .program p b => m.put p (m p &&& b)

/-- The cells when the power fails after k of the operations that lead from f to g. -/
def cutOff (f g : Flash) (k : Nat) : Memory :=
  ((g.log.drop f.log.length).take k).foldl applyOp f.mem

structure Follows (f g : Flash) (ops : List Op) : Prop where
  log : g.log = f.log ++ ops
  mem : g.mem = ops.foldl applyOp f.mem

theorem Follows.trans {f g h : Flash} {ops ops' : List Op} (hg : Follows f g ops)
    (hh : Follows g h ops') : Follows f h (ops ++ ops') where
  log := by rw [hh.log,hg.log,List.append_assoc]
  mem := by rw [hh.mem,hg.mem,List.foldl_append]

theorem Follows.cutOff {f g : Flash} {ops : List Op} (h : Follows f g ops) (k : Nat) :
    cutOff f g k = (ops.take k).foldl applyOp f.mem := by
  rw [FlashDamage.cutOff,h.log,List.drop_left]

def programs (p : Int) : List Byte → List Op
  | [] => []
  | b :: bs => .program p b :: programs (p+1) bs

theorem follows_program (p : Int) (bs : List Byte) (f : Flash) :
    Follows f (f.program p bs) (programs p bs) := by
  induction bs generalizing p f with
  | nil => exact ⟨(List.append_nil _).symm,rfl⟩
  | cons b bs ih =>
    have hbyte : Follows f (f.programByte p b) [.program p b] := ⟨rfl,rfl⟩
    exact hbyte.trans (ih (p+1) (f.programByte p b))

theorem follows_eepromWrite (id : EepromId) {addr : Nat} {bs : List Byte} (f : Flash)
    (h : addr+bs.length ≤ 2^16) :
    Follows f (eepromWrite id addr bs f) (programs (sectorStart id+addr) bs) := by
  rw [eepromWrite,eepromWriteFrom_eq id addr 0 bs f (by simpa using h)]
  exact follows_program _ bs f

theorem mem_programs {p : Int} {bs : List Byte} {op : Op} (h : op ∈ programs p bs) :
    ∃ i b, op = .program i b ∧ p ≤ i ∧ i < p+bs.length := by
  induction bs generalizing p with
  | nil => cases h
  | cons c bs ih =>
    rw [programs,List.mem_cons] at h
    obtain rfl | h := h
    · exact ⟨p,c,rfl,le_rfl,by simp⟩
    · obtain ⟨i,b,hop,h₁,h₂⟩ := ih h
      exact ⟨i,b,hop,by omega,by simp; omega⟩

theorem foldl_applyOp_apart {ops : List Op} {i : Int}
    (h : ∀ op ∈ ops, ∃ j b, op = .program j b ∧ j ≠ i) (m : Memory) :
    ops.foldl applyOp m i = m i := by
  induction ops generalizing m with
  | nil => rfl
  | cons op ops ih =>
    obtain ⟨j,b,rfl,hj⟩ := h op (by simp)
    rw [List.foldl_cons,ih fun op hop => h op (by simp [hop])]
    exact if_neg hj.symm

theorem programs_length (p : Int) (bs : List Byte) : (programs p bs).length = bs.length := by
  induction bs generalizing p with
  | nil => rfl
  | cons b bs ih => rw [programs,List.length_cons,ih,List.length_cons]

theorem foldl_programs {m : Memory} {p : Int} {bs : List Byte} (h : Blank m p bs.length) :
    (programs p bs).foldl applyOp m = m.store p bs :=
  (follows_program p bs ⟨m,[]⟩).mem.symm.trans (program_mem p bs ⟨m,[]⟩ h)

variable {q : CommandQueue}

/-- What a save writes behind the checksum, in the order of the operations. -/
def saveOps (q : CommandQueue) : List Op :=
  programs (sectorStart startupEeprom+4) (wordBytes (BitVec.ofInt 32 q.endPtr)) ++
    programs (sectorStart startupEeprom+8) (content q)

theorem follows_save (crc : List (BitVec 32) → BitVec 32) (hq : InBuffer q) (f : Flash) :
    ∃ crcsum, Follows f (startupCommandSave crc q f)
      (.erase (sectorStart startupEeprom) 0x4000 :: (saveOps q ++
        programs (sectorStart startupEeprom) (wordBytes crcsum))) := by
  have hlen := content_length hq
  have hdata : q.mem.load 0 (BitVec.ofInt 32 q.endPtr).toNat = content q := by
    rw [length_word hq,content]
  obtain ⟨h₀,h₁⟩ := hq
  simp only [commandQueueLength] at h₁
  simp only [startupCommandSave,hdata]
  have herase : Follows f (startupCommandClear f) [.erase (sectorStart startupEeprom) 0x4000] :=
    ⟨rfl,rfl⟩
  have hlength := follows_eepromWrite startupEeprom (startupCommandClear f)
    (show 4+(wordBytes (BitVec.ofInt 32 q.endPtr)).length ≤ 2^16 by simp)
  have hcontent := follows_eepromWrite startupEeprom
    (eepromWrite startupEeprom 4 (wordBytes (BitVec.ofInt 32 q.endPtr)) (startupCommandClear f))
    (show 4+4+(content q).length ≤ 2^16 by omega)
  generalize eepromWrite startupEeprom (4+4) (content q) _ = f₂ at hcontent
  generalize crc _ = crcsum
  have hcrc := follows_eepromWrite startupEeprom f₂ (show 0+(wordBytes crcsum).length ≤ 2^16 by simp)
  refine ⟨crcsum,?_⟩
  have hall := ((herase.trans hlength).trans hcontent).trans hcrc
  simpa [saveOps] using hall

theorem foldl_saveOps (hq : InBuffer q) (f : Flash) :
    (saveOps q).foldl applyOp (startupCommandClear f).mem = written q f := by
  have hclear : Blank (startupCommandClear f).mem (sectorStart startupEeprom) 0x4000 :=
    eepromErase_blank startupEeprom f
  have hlen := content_length hq
  obtain ⟨h₀,h₁⟩ := hq
  simp only [commandQueueLength] at h₁
  have hlength : Blank (startupCommandClear f).mem (sectorStart startupEeprom+4)
      (wordBytes (BitVec.ofInt 32 q.endPtr)).length :=
    hclear.mono (by omega) (by rw [wordBytes_length]; omega)
  have hcontent : Blank ((startupCommandClear f).mem.store (sectorStart startupEeprom+4)
      (wordBytes (BitVec.ofInt 32 q.endPtr))) (sectorStart startupEeprom+8) (content q).length :=
    (hclear.mono (by omega) (by omega)).store (.inr (by rw [wordBytes_length]; omega))
  rw [saveOps,List.foldl_append,foldl_programs hlength,foldl_programs hcontent,written]

theorem saveOps_apart (q : CommandQueue) (k : Nat) {i : Int}
    (h : i < sectorStart startupEeprom+4 ∨
      sectorStart startupEeprom+8+(content q).length ≤ i) (m : Memory) :
    ((saveOps q).take k).foldl applyOp m i = m i := by
  refine foldl_applyOp_apart (fun op hop => ?_) m
  have hop' := List.mem_of_mem_take hop
  rw [saveOps,List.mem_append] at hop'
  obtain hop' | hop' := hop'
  · obtain ⟨j,b,rfl,hj,hj'⟩ := mem_programs hop'
    rw [wordBytes_length] at hj'
    exact ⟨j,b,rfl,by omega⟩
  · obtain ⟨j,b,rfl,hj,hj'⟩ := mem_programs hop'
    exact ⟨j,b,rfl,by omega⟩

/-- Until the checksum is written, its cells are blank. -/
theorem blank_checksum (q : CommandQueue) (f : Flash) (k : Nat) :
    (((saveOps q).take k).foldl applyOp (startupCommandClear f).mem).load
      (sectorStart startupEeprom) 4 = List.replicate 4 0xFF := by
  refine blank_load fun i h₁ h₂ => ?_
  rw [saveOps_apart q k (.inl (by omega))]
  exact eepromErase_blank startupEeprom f i h₁ (by omega)

theorem saveOps_length (q : RecordQueue) :
    (saveOps q.queue).length = (encode q.records).length+4 := by
  rw [saveOps,List.length_append,programs_length,programs_length,wordBytes_length,q.content_eq]
  omega

theorem cutOff_saving (crc : List (BitVec 32) → BitVec 32) (q : RecordQueue) (f : Flash) {j : Nat}
    (hj : j ≤ (encode q.records).length+4) :
    cutOff f (startupCommandSave crc q.queue f) (j+1) =
      ((saveOps q.queue).take j).foldl applyOp (startupCommandClear f).mem := by
  obtain ⟨crcsum,hfollows⟩ := follows_save crc q.inBuffer f
  refine (hfollows.cutOff (j+1)).trans ?_
  rw [List.take_succ_cons,List.take_append_of_le_length (by rwa [saveOps_length])]
  rfl

/-- A save that is cut off after its erase plays everything or nothing at the next boot. The
cells of the checksum are blank until the end, so what is written until then must not have the
checksum that blank cells stand for. -/
theorem interrupted_save_all_or_nothing (crc : List (BitVec 32) → BitVec 32) (q : RecordQueue)
    (f : Flash)
    (hcrc : ∀ j ≤ (encode q.records).length+4, crc (words startupWords
      ((cutOff f (startupCommandSave crc q.queue f) (j+1)).load (sectorStart startupEeprom+4)
        (4*startupWords))) ≠ 0xFFFFFFFF)
    (k : Nat) {σ : Type} (ledOn ledOff : σ → σ) (handle : Rec → σ → σ) (s : σ) :
    let boot := startupCommandExecute crc ledOn handle ledOff
      ⟨cutOff f (startupCommandSave crc q.queue f) (k+1),[]⟩ s
    boot = some s ∨ boot = some (ledOff (q.records.foldl (fun s r => handle r s) (ledOn s))) := by
  have hbefore := hcrc k
  generalize hm : cutOff f (startupCommandSave crc q.queue f) (k+1) = m at hbefore ⊢
  by_cases hk : k ≤ (encode q.records).length+4
  · left
    have hblank : wordOf (m.load (sectorStart startupEeprom) 4) = 0xFFFFFFFF := by
      rw [← hm,cutOff_saving crc q f hk,blank_checksum]
      decide
    refine startupCommandExecute_unsealed ledOn ledOff handle (f := ⟨m,[]⟩) ?_ s
    intro hsealed
    exact hbefore hk (hsealed.symm.trans hblank)
  · obtain ⟨crcsum,hfollows⟩ := follows_save crc q.inBuffer f
    have hlen := saveOps_length q
    have hcut : m = ((saveOps q.queue ++
        programs (sectorStart startupEeprom) (wordBytes crcsum)).take k).foldl applyOp
          (startupCommandClear f).mem := hm.symm.trans (hfollows.cutOff (k+1))
    rw [List.take_append,List.take_of_length_le (by omega),List.foldl_append,
      foldl_saveOps q.inBuffer] at hcut
    by_cases hsealed : Sealed crc m (sectorStart startupEeprom) startupWords
    · right
      -- the checksum is written to cells in front of the records
      have hbehind : ∀ (p : Int) (n : Nat), sectorStart startupEeprom+4 ≤ p →
          m.load p n = (written q.queue f).load p n := by
        intro p n hp
        rw [hcut]
        refine Memory.load_congr _ _ _ _ fun i h₁ h₂ => foldl_applyOp_apart (fun op hop => ?_) _
        obtain ⟨j,b,rfl,-,hj⟩ := mem_programs (List.mem_of_mem_take hop)
        rw [wordBytes_length] at hj
        exact ⟨j,b,rfl,by omega⟩
      have hcontent := content_length q.inBuffer
      rw [q.content_eq] at hcontent
      refine (startupCommandExecute_sealed ledOn ledOff handle (f := ⟨m,[]⟩) hsealed s).trans
        (executeCommands_startupQueue ledOn ledOff handle q.sized ?_ ?_ s)
      · rw [hbehind _ _ le_rfl,written_length,length_word q.inBuffer]
        omega
      · rw [hbehind _ _ (by omega),← q.content_eq,written_content]
    · left
      exact startupCommandExecute_unsealed ledOn ledOff handle (f := ⟨m,[]⟩) hsealed s

theorem words_cutOff (crc : List (BitVec 32) → BitVec 32) (f : Flash) {j : Nat}
    (hj : j ≤ (encode twoRecords.records).length+4) :
    words startupWords ((cutOff f (startupCommandSave crc twoRecords.queue f) (j+1)).load
        (sectorStart startupEeprom+4) (4*startupWords)) =
      words 15 ((((saveOps twoRecords.queue).take j).foldl applyOp
        (startupCommandClear f).mem).load (sectorStart startupEeprom+4) (4*15)) ++
        List.replicate 4080 Crc.blankWord := by
  have hwords : startupWords = 15+4080 := by decide
  have hcontent : (content twoRecords.queue).length ≤ 56 := by rw [twoRecords.content_eq]; decide
  rw [cutOff_saving crc twoRecords f hj,hwords,words_load_add]
  congr 1
  refine (congrArg (words 4080) (blank_load fun i h₁ h₂ => ?_)).trans (words_blank 4080)
  rw [saveOps_apart twoRecords.queue j (.inr (by omega))]
  exact eepromErase_blank startupEeprom f i (by omega) (by omega)

theorem interrupted_save_sample :
    let crc := Crc.crc Crc.stm32
    let boot := startupCommandExecute crc id (fun r rs => rs ++ [r]) id
      ⟨cutOff ⟨fun _ => 0,[]⟩ (startupCommandSave crc twoRecords.queue ⟨fun _ => 0,[]⟩) (9+1),[]⟩ []
    boot = some [] ∨ boot = some twoRecords.records := by
  have hcrc : ∀ j ≤ (encode twoRecords.records).length+4, Crc.crc Crc.stm32 (words 15
      ((((saveOps twoRecords.queue).take j).foldl applyOp
        (startupCommandClear ⟨fun _ => 0,[]⟩).mem).load (sectorStart startupEeprom+4) (4*15))) ≠
        0xBECAE224 := by decide +kernel
  refine interrupted_save_all_or_nothing (Crc.crc Crc.stm32) twoRecords ⟨fun _ => 0,[]⟩
    (fun j hj => ?_) 9 id id (fun r rs => rs ++ [r]) []
  rw [words_cutOff _ _ hj]
  exact Crc.crc_blank_rear (hcrc j hj)

end PowerLoss

end Stm32Dds.FlashDamage
