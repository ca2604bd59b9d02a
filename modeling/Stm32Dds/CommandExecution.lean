import Stm32Dds.Ad9910Driver
import Stm32Dds.QueueRecords

/-! The handlers of commands.c on the DDS: what a command does at once in normal
mode, and what its record does when the queue is played. They differ for register
commands only. -/

set_option autoImplicit false

namespace Stm32Dds.Commands
open Bytes Tagged Ad9910

/-- What the pointers inside a command point at, and when the timer of the parallel
port fires. -/
structure Env where
  field : BitVec 32 → RegisterBit
  sample : BitVec 32 → Nat → BitVec 16
  timerFired : Nat → Bool

def executeCommandRegisterOnly (f : RegisterBit) (value : BitVec 32) (s : Dds) : Dds :=
  let s := setValue f (value.setWidth 64) s
  { s with updateRegisters := s.updateRegisters ||| (1#32 <<< f.reg.address.toNat) }

def executeCommandRegister (f : RegisterBit) (value : BitVec 32) (s : Dds) : Dds :=
  updateMatchingReg f (setValue f (value.setWidth 64) s)

def executeCommandSpiWrite (s : Dds) : Option Dds :=
  (updateMultipleRegs s.updateRegisters s).map fun s => { s with updateRegisters := 0 }

def executeCommandPin (p : GpioPin) (value : BitVec 32) : Dds → Dds := gpioSet p (truth value)

/-- Waits for a pulse on IO_UPDATE, which is an input meanwhile. -/
def executeCommandTrigger : Dds → Dds := Dds.emit .trigger

def executeCommandWait (ms : BitVec 32) : Dds → Dds := delay ms

def executeCommandUpdate : Dds → Dds := ioUpdate

def executeCommandParallel (env : Env) (data length repeats : BitVec 32) : Dds → Dds :=
  executeParallel (env.sample data) length repeats env.timerFired

def executeCommandParallelFrequency (frequency : BitVec 32) : Dds → Dds :=
  setParallelFrequency frequency

def word (k : Nat) (payload : List Byte) : BitVec 32 := wordOf ((payload.drop (4*k)).take 4)

def executeCommand (env : Env) (r : Rec) (s : Dds) : Option Dds :=
  if r.1 = CommandType.register.code then
    some (executeCommandRegisterOnly (env.field (word 0 r.2)) (word 1 r.2) s)
  else if r.1 = CommandType.pin.code then
    some (executeCommandPin ⟨word 0 r.2,word 1 r.2⟩ (word 2 r.2) s)
  else if r.1 = CommandType.trigger.code then some (executeCommandTrigger s)
  else if r.1 = CommandType.wait.code then some (executeCommandWait (word 0 r.2) s)
  else if r.1 = CommandType.update.code then some (executeCommandUpdate s)
  else if r.1 = CommandType.spiWrite.code then executeCommandSpiWrite s
  else if r.1 = CommandType.parallel.code then
    some (executeCommandParallel env (word 0 r.2) (word 1 r.2) (word 2 r.2) s)
  else if r.1 = CommandType.parallelFrequency.code then
    some (executeCommandParallelFrequency (word 0 r.2) s)
  else some s

def Cmd.execute (env : Env) : Cmd → Dds → Dds
  | .register reg value => executeCommandRegister (env.field reg) value
  | .pin group number value => executeCommandPin ⟨group,number⟩ value
  | .trigger => executeCommandTrigger
  | .wait delay => executeCommandWait delay
  | .update => executeCommandUpdate
  | .parallel data length repeats => executeCommandParallel env data length repeats
  | .parallelFrequency frequency => executeCommandParallelFrequency frequency

/-- commands_execute. An access outside the register struct has no result. -/
def commandsExecute (env : Env) (q : CommandQueue) (s : Dds) : Option Dds :=
  (executeCommands (Option.map (gpioSetHigh Pin.ledFront))
    (fun r s => s.bind (executeCommand env r)) (Option.map (gpioSetLow Pin.ledFront)) q (some s)).join

@[simp] theorem word_zero (a : BitVec 32) (bs : List Byte) : word 0 (wordBytes a ++ bs) = a := by
  simp [word]

@[simp] theorem word_succ (k : Nat) (a : BitVec 32) (bs : List Byte) :
    word (k+1) (wordBytes a ++ bs) = word k bs := by
  have hlen : 4*(k+1) = (wordBytes a).length+4*k := by simp; omega
  rw [word,hlen,← List.drop_drop,List.drop_left]
  rfl

@[simp] theorem word_single (a : BitVec 32) : word 0 (wordBytes a) = a := by
  simpa using word_zero a []

theorem executeCommand_record (env : Env) (c : Cmd) (h : c.isRegister = false) (s : Dds) :
    executeCommand env c.record s = some (c.execute env s) := by
  cases c with
  | register reg value => simp [Cmd.isRegister,Cmd.type] at h
  | _ => simp [executeCommand,Cmd.record,Cmd.type,Cmd.payload,Cmd.execute,CommandType.code,
      List.append_assoc,word_succ,word_zero,word_single]

theorem executeCommand_register (env : Env) (reg value : BitVec 32) (s : Dds) :
    executeCommand env (Cmd.register reg value).record s =
      some (executeCommandRegisterOnly (env.field reg) value s) := by
  simp [executeCommand,Cmd.record,Cmd.type,Cmd.payload,word_succ,word_zero,word_single]

theorem executeCommand_spiRecord (env : Env) (s : Dds) :
    executeCommand env spiRecord s = executeCommandSpiWrite s := by
  simp [executeCommand,spiRecord,CommandType.code]

theorem foldl_bind (env : Env) (rs : List Rec) (o : Option Dds) :
    rs.foldl (fun s r => s.bind (executeCommand env r)) o =
      o.bind (rs.foldlM (fun s r => executeCommand env r s)) := by
  induction rs generalizing o with
  | nil => cases o <;> rfl
  | cons r rs ih =>
    rw [List.foldl_cons,ih]
    cases o <;> simp [List.foldlM_cons]

theorem commandsExecute_eq {q : CommandQueue} {cs : List Cmd} (h : Decodes q cs)
    (hrep : q.repeatCount = 0) (env : Env) (s : Dds) :
    commandsExecute env q s =
      ((closed cs).foldlM (fun s r => executeCommand env r s) (gpioSetHigh Pin.ledFront s)).map
        (gpioSetLow Pin.ledFront) := by
  have hrun := (h (Option Dds) (Option.map (gpioSetHigh Pin.ledFront))
    (Option.map (gpioSetLow Pin.ledFront)) (fun r s => s.bind (executeCommand env r)) (some s)).2
  rw [commandsExecute,hrun,hrep]
  simp [foldl_bind]

end Stm32Dds.Commands
