import Stm32Dds.ScpiCallbacks
import Stm32Dds.Runs

set_option autoImplicit false

namespace Stm32Dds.Ad9910

def ports (s : Dds) : List (BitVec 16) :=
  s.log.filterMap fun
    | (.port value,_) => some value
    | _ => none

def parallelReads (len rep : BitVec 32) (flag : Nat → Bool) : List Nat :=
  ((List.range (len*rep).toNat).filter flag).map (· % len.toNat)

/-- Everything that executeParallel does with data: the preset, and one read after the other. -/
theorem executeParallel_reads (data : Nat → BitVec 16) (len rep : BitVec 32) (flag : Nat → Bool)
    (s : Dds) : executeParallel data len rep flag s =
      (parallelReads len rep flag).foldl (fun s i => setParallel (data i) s)
        (enableParallel 1 (setParallel (data 0) s)) := by
  simp only [executeParallel,parallelReads,List.foldl_map,List.foldl_filter]

theorem ports_setParallel (value : BitVec 16) (s : Dds) :
    ports (setParallel value s) = ports s ++ [value] := by
  simp [ports,setParallel,Dds.emit]

theorem ports_enableParallel (mode : BitVec 32) (s : Dds) :
    ports (enableParallel mode s) = ports s := by
  simp [ports,enableParallel,gpioSet,updateMatchingReg,updateReg,spiWrite,setValue,Dds.emit]

theorem ports_foldl_setParallel (data : Nat → BitVec 16) (is : List Nat) (s : Dds) :
    ports (is.foldl (fun s i => setParallel (data i) s) s) = ports s ++ is.map data := by
  induction is generalizing s with
  | nil => simp
  | cons i is ih =>
    rw [List.foldl_cons,ih,ports_setParallel]
    simp

theorem ports_executeParallel (data : Nat → BitVec 16) (len rep : BitVec 32) (flag : Nat → Bool)
    (s : Dds) : ports (executeParallel data len rep flag s) =
      ports s ++ data 0 :: (parallelReads len rep flag).map data := by
  rw [executeParallel_reads,ports_foldl_setParallel,ports_enableParallel,ports_setParallel]
  simp

def wholeSequence (data : Nat → BitVec 16) (len rep : Nat) : List (BitVec 16) :=
  (List.replicate rep ((List.range len).map data)).flatten

theorem map_mod_range (data : Nat → BitVec 16) (len rep : Nat) :
    (List.range (len*rep)).map (fun i => data (i % len)) = wholeSequence data len rep := by
  induction rep with
  | zero => simp [wholeSequence]
  | succ rep ih =>
    have hlast : (List.range len).map (fun i => data ((len*rep+i) % len)) =
        (List.range len).map data := by
      apply List.map_congr_left
      intro i hi
      rw [Nat.mul_add_mod,Nat.mod_eq_of_lt (List.mem_range.mp hi)]
    rw [Nat.mul_succ,List.range_add,List.map_append,ih,List.map_map]
    simp only [Function.comp_def,hlast,wholeSequence,List.replicate_succ',List.flatten_append,
      List.flatten_singleton]

theorem wholeSequence_length (data : Nat → BitVec 16) (len rep : Nat) :
    (wholeSequence data len rep).length = len*rep := by
  rw [← map_mod_range]
  simp

/-- The loop stops after len*rep polls, so no poll may miss. -/
theorem plays_whole_sequence_iff (data : Nat → BitVec 16) (len rep : BitVec 32)
    (flag : Nat → Bool) (s : Dds) (h : len.toNat*rep.toNat < 2^32) :
    ports (executeParallel data len rep flag s) =
        ports s ++ data 0 :: wholeSequence data len.toNat rep.toNat ↔
      ∀ i < len.toNat*rep.toNat, flag i = true := by
  have hproduct : (len*rep).toNat = len.toNat*rep.toNat := by
    rw [BitVec.toNat_mul,Nat.mod_eq_of_lt h]
  rw [ports_executeParallel,List.append_cancel_left_eq,List.cons.injEq]
  simp only [true_and,parallelReads,List.map_map,hproduct]
  constructor
  · intro heq
    -- a missed poll leaves the output short
    have hlength := congrArg List.length heq
    rw [wholeSequence_length,List.length_map] at hlength
    have hall : ((List.range (len.toNat*rep.toNat)).filter flag).length =
        (List.range (len.toNat*rep.toNat)).length := by simpa using hlength
    intro i hi
    exact List.length_filter_eq_length_iff.mp hall i (List.mem_range.mpr hi)
  · intro hflag
    have hall : (List.range (len.toNat*rep.toNat)).filter flag =
        List.range (len.toNat*rep.toNat) :=
      List.filter_eq_self.mpr fun i hi => hflag i (List.mem_range.mp hi)
    rw [hall]
    exact map_mod_range data len.toNat rep.toNat

theorem plays_whole_sequence_of_two :
    ports (executeParallel (fun i => BitVec.ofNat 16 i) 2 2 (fun _ => true)
      (Dds.boot (Chip.ofRegs Reg.bootValue) fun _ => false)) = [0,0,1,0,1] :=
  (plays_whole_sequence_iff (fun i => BitVec.ofNat 16 i) 2 2 (fun _ => true)
    (Dds.boot (Chip.ofRegs Reg.bootValue) fun _ => false) (by decide)).mpr fun _ _ => rfl

/-- The timer fires at every second poll: of four samples only data[1] and data[3] go out. -/
theorem every_second_sample_lost :
    (∀ i, ∃ j ≥ i, decide (j % 2 = 1) = true) ∧
    ports (executeParallel (fun i => BitVec.ofNat 16 i) 4 1 (fun i => decide (i % 2 = 1))
      (Dds.boot (Chip.ofRegs Reg.bootValue) fun _ => false)) = [0,1,3] ∧
    [0,1,3] ≠ (0 : BitVec 16) :: wholeSequence (fun i => BitVec.ofNat 16 i) 4 1 := by
  refine ⟨?_,?_,by decide⟩
  · intro i
    exact ⟨2*i+1,by omega,by simp⟩
  · rw [ports_executeParallel]
    decide

end Stm32Dds.Ad9910

namespace Stm32Dds.Scpi
open Bytes Ad9910 Commands

/-- What the client has last asked for: the bytes of the last block that fitted into the
buffer, and the repeat count. -/
structure Requested where
  bytes : Nat
  repeats : BitVec 32

def Requested.after (r : Requested) : SetCommand → Requested
  | .parallelData data => if data.length > parallelBufSize then r else { r with bytes := data.length }
  | .parallelNcycles (some n) => { r with repeats := n }
  | _ => r

def Requested.last (cmds : List SetCommand) : Requested := Runs.run Requested.after ⟨0,0⟩ cmds

structure Requested.Holds (r : Requested) (p : Parallel) : Prop where
  fits : r.bytes ≤ parallelBufSize
  length : p.length = BitVec.ofNat 32 r.bytes
  repeats : p.repeats = r.repeats

theorem processCommand_parallel (lay : Layout) (dev : Device) (c : Cmd) :
    (processCommand lay dev c).parallel = dev.parallel := by
  rw [processCommand]
  split <;> rfl

theorem run_parallel (lay : Layout) (k : Conversions) (cb : Callback) (dev : Device) :
    (cb.run lay k dev).2.parallel = dev.parallel := by
  have hfold (cs : List Cmd) (dev : Device) :
      (cs.foldl (processCommand lay) dev).parallel = dev.parallel := by
    induction cs generalizing dev with
    | nil => rfl
    | cons c cs ih => rw [List.foldl_cons,ih,processCommand_parallel]
  rw [Callback.run]
  split
  · rfl
  · exact hfold _ dev

theorem Requested.Holds.step {r : Requested} {dev : Device} (h : r.Holds dev.parallel) (lay : Layout)
    (k : Conversions) (cmd : SetCommand) : (r.after cmd).Holds (cmd.step lay k dev).parallel := by
  cases cmd with
  | callback cb =>
    rw [SetCommand.step,run_parallel]
    exact h
  | parallelData data =>
    simp only [SetCommand.step,scpiCallbackParallelData,after]
    by_cases hbig : data.length > parallelBufSize
    · rw [if_pos hbig,if_pos hbig]
      exact h
    · rw [if_neg hbig,if_neg hbig]
      exact ⟨Nat.le_of_not_lt hbig,rfl,h.repeats⟩
  | parallelNcycles value =>
    cases value with
    | none => exact h
    | some n => exact ⟨h.fits,h.length,rfl⟩
  | sequenceNcycles value =>
    simp only [SetCommand.step,scpiCallbackSequenceNcycles]
    split <;> exact h
  | mode value =>
    simp only [SetCommand.step,scpiCallbackMode]
    split <;> exact h

theorem Requested.Holds.run {r : Requested} {dev : Device} (h : r.Holds dev.parallel) (lay : Layout)
    (k : Conversions) (cmds : List SetCommand) :
    (Runs.run after r cmds).Holds (Runs.run (SetCommand.step lay k) dev cmds).parallel := by
  induction cmds generalizing r dev with
  | nil => exact h
  | cons cmd cmds ih => exact ih (h.step lay k cmd)

theorem requested_last_holds (lay : Layout) (k : Conversions) (mem : Memory) (cmds : List SetCommand) :
    (Requested.last cmds).Holds (Runs.run (SetCommand.step lay k) (Device.reset mem) cmds).parallel :=
  Requested.Holds.run ⟨Nat.zero_le _,rfl,rfl⟩ lay k cmds

/-- The loop of a command reads only samples out of a block of this many bytes, and
never divides by zero. -/
structure ReadsUploaded (bytes : Nat) (len rep : BitVec 32) (flag : Nat → Bool) : Prop where
  modulus : (∃ i < (len*rep).toNat, flag i = true) → len ≠ 0
  uploaded : ∀ i ∈ parallelReads len rep flag, i < bytes/2

theorem readsUploaded_iff {bytes : Nat} {len : BitVec 32} (hlen : len.toNat = bytes)
    (rep : BitVec 32) :
    (∀ flag, ReadsUploaded bytes len rep flag) ↔ (bytes*rep.toNat) % 2^32 ≤ bytes/2 := by
  have hproduct : (len*rep).toNat = (bytes*rep.toNat) % 2^32 := by rw [BitVec.toNat_mul,hlen]
  have hzero : len = 0 → (len*rep).toNat = 0 := by
    intro h
    simp [h]
  rw [← hproduct]
  constructor
  · intro h
    -- were there more polls than samples, one with the flag set would read behind the last
    by_contra hmany
    have hpos : 0 < len.toNat := by
      by_contra hnot
      have := hzero (BitVec.eq_of_toNat_eq (by simpa using hnot))
      omega
    have hread : bytes/2 ∈ parallelReads len rep fun _ => true := by
      simp only [parallelReads,List.filter_true,List.mem_map,List.mem_range]
      exact ⟨bytes/2,by omega,Nat.mod_eq_of_lt (by omega)⟩
    exact Nat.lt_irrefl _ ((h fun _ => true).uploaded _ hread)
  · intro h flag
    constructor
    · rintro ⟨i,hi,_⟩ hlen0
      rw [hzero hlen0] at hi
      exact Nat.not_lt_zero i hi
    · intro i hi
      simp only [parallelReads,List.mem_map,List.mem_filter,List.mem_range] at hi
      obtain ⟨j,⟨hj,_⟩,rfl⟩ := hi
      exact lt_of_le_of_lt (Nat.mod_le j len.toNat) (by omega)

theorem executeCommand_parallel (env : Env) (addr len rep : BitVec 32) (s : Dds) :
    executeCommand env (Cmd.parallel addr len rep).record s =
        some ((Cmd.parallel addr len rep).execute env s) ∧
      (Cmd.parallel addr len rep).execute env s =
        (parallelReads len rep env.timerFired).foldl (fun s i => setParallel (env.sample addr i) s)
          (enableParallel 1 (setParallel (env.sample addr 0) s)) :=
  ⟨executeCommand_record env _ rfl s,executeParallel_reads _ len rep env.timerFired s⟩

/-- PARallel:STATe plays as many samples as there are bytes in the block. -/
theorem playback_reads_uploaded_iff (lay : Layout) (k : Conversions) (mem : Memory)
    (cmds : List SetCommand) (on : Bool) :
    ∃ len rep, (Callback.parallelState (some on)).commands lay k
        (Runs.run (SetCommand.step lay k) (Device.reset mem) cmds).parallel =
          .ok [.parallel lay.bufferAddr len rep] ∧
      (∀ env s, (Cmd.parallel lay.bufferAddr len rep).execute env s =
        (parallelReads len rep env.timerFired).foldl
          (fun s i => setParallel (env.sample lay.bufferAddr i) s)
          (enableParallel 1 (setParallel (env.sample lay.bufferAddr 0) s))) ∧
      (Requested.last cmds).bytes/2 ≤ parallelBufSize/2 ∧
      ((∀ flag, ReadsUploaded (Requested.last cmds).bytes len rep flag) ↔
        (Requested.last cmds).bytes*(Requested.last cmds).repeats.toNat % 2^32 ≤
          (Requested.last cmds).bytes/2) := by
  have h := requested_last_holds lay k mem cmds
  refine ⟨_,_,rfl,fun env s => (executeCommand_parallel env _ _ _ s).2,
    Nat.div_le_div_right h.fits,?_⟩
  have hlen : (BitVec.ofNat 32 (Requested.last cmds).bytes).toNat = (Requested.last cmds).bytes := by
    have hfits := h.fits
    simp only [parallelBufSize] at hfits
    rw [BitVec.toNat_ofNat,Nat.mod_eq_of_lt (by omega)]
  rw [h.length,h.repeats]
  exact readsUploaded_iff hlen _

/-- Two samples of two bytes each: with the timer at every poll the loop reads data[2] and
data[3] as well. A full buffer is left the same way. -/
theorem reads_behind_upload :
    Requested.last [.parallelData [1,0,2,0],.parallelNcycles (some 1)] = ⟨4,1⟩ ∧
    parallelReads 4 1 (fun _ => true) = [0,1,2,3] ∧
    ¬ ReadsUploaded 4 4 1 (fun _ => true) ∧
    parallelBufSize/2 ∈ parallelReads (BitVec.ofNat 32 parallelBufSize) 1 fun _ => true := by
  refine ⟨rfl,by decide,?_,?_⟩
  · intro h
    exact absurd (h.uploaded 2 (by decide)) (by decide)
  · simp only [parallelReads,List.filter_true,List.mem_map,List.mem_range]
    exact ⟨parallelBufSize/2,by decide,by decide⟩

end Stm32Dds.Scpi
