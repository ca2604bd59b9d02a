import Stm32Dds.TaggedRecords
import Stm32Dds.Runs

/-! The command queue of commands.c: a byte buffer, a pointer behind its last used
byte, and the calls that append to it. Pointers are offsets from commands.begin.
Sizes are those of the target ABI: pointers, int, float and size_t take four
bytes, and an enumeration of nine small values takes one. -/

set_option autoImplicit false

namespace Stm32Dds.Commands
open Bytes

inductive CommandType
  | typeEnd | register | pin | trigger | wait | update | spiWrite | parallel | parallelFrequency
  deriving DecidableEq, Repr

def CommandType.code : CommandType → Byte
  | .typeEnd => 0
  | .register => 1
  | .pin => 2
  | .trigger => 3
  | .wait => 4
  | .update => 5
  | .spiWrite => 6
  | .parallel => 7
  | .parallelFrequency => 8

def commandQueueLength : Nat := 1024

structure CommandQueue where
  mem : Memory
  endPtr : Int
  repeatCount : BitVec 32

/-- get_command_length without the header byte. The two parallel types fall
under the default case. -/
def knownPayload (type : Byte) : Nat :=
  if type = CommandType.register.code then 8
  else if type = CommandType.pin.code then 12
  else if type = CommandType.wait.code then 4
  else 0

def getCommandLength (q : CommandQueue) (cur : Int) : Nat := 1+knownPayload (q.mem cur)

/-- The loop of find_last_command. `none` is a loop that has not ended yet, `some none`
is its NULL. -/
def findLastFrom (q : CommandQueue) : Nat → Int → Option (Option Int)
  | 0, cur => if cur < q.endPtr then none else some none
  | fuel+1, cur =>
    if cur < q.endPtr then
      if cur+getCommandLength q cur = q.endPtr then some (some cur)
      else findLastFrom q fuel (cur+getCommandLength q cur)
    else some none

def findLastCommand (q : CommandQueue) : Option (Option Int) :=
  findLastFrom q q.endPtr.toNat 0

/-- The static command_queue: its result and the queue it leaves. -/
def commandQueue (type : CommandType) (cmd : List Byte) (q : CommandQueue) : Nat × CommandQueue :=
  let len := 1+cmd.length
  -- pointer difference and size_t are added as unsigned 32-bit numbers
  if (q.endPtr+len) % 2^32 > commandQueueLength then (1,q)
  else (0,{ q with
    mem := (q.mem.put q.endPtr type.code).store (q.endPtr+1) cmd
    endPtr := q.endPtr+1+cmd.length })

def commandQueueRegister (reg value : BitVec 32) (q : CommandQueue) : Nat × CommandQueue :=
  let q₁ := match findLastCommand q with
    | some (some last) =>
      if q.mem last = CommandType.spiWrite.code then { q with endPtr := q.endPtr-1 } else q
    | _ => q
  let (ret₁,q₂) := commandQueue .register (wordBytes reg ++ wordBytes value) q₁
  let (ret₂,q₃) := commandQueue .spiWrite [] q₂
  (ret₁+ret₂,q₃)

def commandQueuePin (group number value : BitVec 32) : CommandQueue → Nat × CommandQueue :=
  commandQueue .pin (wordBytes group ++ wordBytes number ++ wordBytes value)

def commandQueueTrigger : CommandQueue → Nat × CommandQueue := commandQueue .trigger []

def commandQueueUpdate : CommandQueue → Nat × CommandQueue := commandQueue .update []

def commandQueueWait (delay : BitVec 32) : CommandQueue → Nat × CommandQueue :=
  commandQueue .wait (wordBytes delay)

def commandQueueParallel (data length repeats : BitVec 32) : CommandQueue → Nat × CommandQueue :=
  commandQueue .parallel (wordBytes data ++ wordBytes length ++ wordBytes repeats)

def commandQueueParallelFrequency (frequency : BitVec 32) : CommandQueue → Nat × CommandQueue :=
  commandQueue .parallelFrequency (wordBytes frequency)

def commandsClear (q : CommandQueue) : CommandQueue := { q with endPtr := 0 }

def commandsRepeat (count : BitVec 32) (q : CommandQueue) : CommandQueue :=
  { q with repeatCount := count }

inductive Cmd
  | register (reg value : BitVec 32)
  | pin (group number value : BitVec 32)
  | trigger
  | wait (delay : BitVec 32)
  | update
  | parallel (data length repeats : BitVec 32)
  | parallelFrequency (frequency : BitVec 32)
  deriving DecidableEq, Repr

namespace Cmd

def type : Cmd → CommandType
  | .register .. => .register
  | .pin .. => .pin
  | .trigger => .trigger
  | .wait _ => .wait
  | .update => .update
  | .parallel .. => .parallel
  | .parallelFrequency _ => .parallelFrequency

def payload : Cmd → List Byte
  | .register reg value => wordBytes reg ++ wordBytes value
  | .pin group number value => wordBytes group ++ wordBytes number ++ wordBytes value
  | .trigger | .update => []
  | .wait delay => wordBytes delay
  | .parallel data length repeats => wordBytes data ++ wordBytes length ++ wordBytes repeats
  | .parallelFrequency frequency => wordBytes frequency

def queue : Cmd → CommandQueue → Nat × CommandQueue
  | .register reg value => commandQueueRegister reg value
  | .pin group number value => commandQueuePin group number value
  | .trigger => commandQueueTrigger
  | .wait delay => commandQueueWait delay
  | .update => commandQueueUpdate
  | .parallel data length repeats => commandQueueParallel data length repeats
  | .parallelFrequency frequency => commandQueueParallelFrequency frequency

def isRegister (c : Cmd) : Bool := c.type = .register

theorem payload_length_le (c : Cmd) : c.payload.length ≤ 12 := by
  cases c <;> simp [payload]

theorem queue_eq (c : Cmd) (h : c.isRegister = false) : c.queue = commandQueue c.type c.payload := by
  cases c with
  | register reg value => simp [isRegister,type] at h
  | _ => rfl

end Cmd

def content (q : CommandQueue) : List Byte := q.mem.load 0 q.endPtr.toNat

def InBuffer (q : CommandQueue) : Prop := 0 ≤ q.endPtr ∧ q.endPtr ≤ commandQueueLength

theorem inBuffer_empty (mem : Memory) (repeatCount : BitVec 32) : InBuffer ⟨mem,0,repeatCount⟩ := by
  simp [InBuffer]

/-- The whole search, whatever the bytes mean: it ends, and finds what the byte-level
walk finds. -/
theorem findLastFrom_eq (q : CommandQueue) (fuel : Nat) (cur : Int)
    (hf : (q.endPtr-cur).toNat ≤ fuel) :
    ∃ last, findLastFrom q fuel cur = some last ∧
      last.map q.mem = Tagged.lastTag knownPayload (q.mem.load cur (q.endPtr-cur).toNat) := by
  induction fuel generalizing cur with
  | zero =>
    have hc : ¬ cur < q.endPtr := by omega
    have hz : (q.endPtr-cur).toNat = 0 := by omega
    exact ⟨none,by simp [findLastFrom,hc],by simp [hz,Memory.load]⟩
  | succ fuel ih =>
    by_cases hc : cur < q.endPtr
    · obtain ⟨n,hn⟩ : ∃ n, (q.endPtr-cur).toNat = n+1 := ⟨(q.endPtr-cur).toNat-1,by omega⟩
      simp only [hn,Memory.load,Tagged.lastTag_cons,Memory.load_length,findLastFrom,hc,if_true]
      by_cases he : cur+getCommandLength q cur = q.endPtr
      · have hp : n = knownPayload (q.mem cur) := by
          simp only [getCommandLength] at he
          omega
        exact ⟨some cur,if_pos he,by simp [hp]⟩
      · have hp : n ≠ knownPayload (q.mem cur) := by
          simp only [getCommandLength] at he
          omega
        obtain ⟨last,hlast,hmap⟩ := ih (cur+getCommandLength q cur) (by
          simp only [getCommandLength]
          omega)
        refine ⟨last,by simp only [he,if_false,hlast],?_⟩
        rw [hmap,if_neg hp,Memory.load_drop]
        simp only [getCommandLength]
        congr 2 <;> omega
    · have hz : (q.endPtr-cur).toNat = 0 := by omega
      exact ⟨none,by simp [findLastFrom,hc],by simp [hz,Memory.load]⟩

theorem findLastCommand_eq (q : CommandQueue) :
    ∃ last, findLastCommand q = some last ∧
      last.map q.mem = Tagged.lastTag knownPayload (content q) := by
  have h := findLastFrom_eq q q.endPtr.toNat 0 (by simp)
  simpa [findLastCommand,content] using h

def searchFinds (bs : List Byte) : Bool :=
  Tagged.lastTag knownPayload bs = some CommandType.spiWrite.code

def trim (q : CommandQueue) : CommandQueue :=
  if searchFinds (content q) then { q with endPtr := q.endPtr-1 } else q

theorem commandQueueRegister_eq (reg value : BitVec 32) (q : CommandQueue) :
    commandQueueRegister reg value q =
      let (ret₁,q₂) := commandQueue .register (wordBytes reg ++ wordBytes value) (trim q)
      let (ret₂,q₃) := commandQueue .spiWrite [] q₂
      (ret₁+ret₂,q₃) := by
  obtain ⟨last,hlast,hmap⟩ := findLastCommand_eq q
  have htrim : (match findLastCommand q with
      | some (some last) =>
        if q.mem last = CommandType.spiWrite.code then { q with endPtr := q.endPtr-1 } else q
      | _ => q) = trim q := by
    rw [hlast]
    cases last with
    | none => simp [trim,searchFinds,← hmap]
    | some p => simp [trim,searchFinds,← hmap]
  simp only [commandQueueRegister,htrim]

theorem searchFinds_getLast {bs : List Byte} (h : searchFinds bs = true) :
    bs.getLast? = some CommandType.spiWrite.code :=
  Tagged.lastTag_getLast knownPayload _ _ (of_decide_eq_true h) rfl

theorem searchFinds_endPtr {q : CommandQueue} (h : searchFinds (content q) = true) :
    0 < q.endPtr := by
  have hlast := searchFinds_getLast h
  by_contra hn
  have hz : q.endPtr.toNat = 0 := by omega
  simp [content,hz,Memory.load] at hlast

theorem trim_inBuffer {q : CommandQueue} (h : InBuffer q) : InBuffer (trim q) := by
  unfold trim
  split
  · rename_i hs
    have hpos := searchFinds_endPtr hs
    obtain ⟨h₀,h₁⟩ := h
    constructor <;> simp only <;> omega
  · exact h

@[simp] theorem trim_mem (q : CommandQueue) : (trim q).mem = q.mem := by
  unfold trim
  split <;> rfl

@[simp] theorem trim_repeatCount (q : CommandQueue) : (trim q).repeatCount = q.repeatCount := by
  unfold trim
  split <;> rfl

def push (type : CommandType) (cmd : List Byte) (q : CommandQueue) : CommandQueue :=
  { q with
    mem := (q.mem.put q.endPtr type.code).store (q.endPtr+1) cmd
    endPtr := q.endPtr+1+cmd.length }

theorem push_mem (type : CommandType) (cmd : List Byte) (q : CommandQueue) :
    (push type cmd q).mem = q.mem.store q.endPtr (type.code :: cmd) := rfl

/-- In the buffer the 32-bit sum of the capacity test does not wrap. -/
theorem commandQueue_eq {q : CommandQueue} (hq : InBuffer q) (type : CommandType)
    (cmd : List Byte) (hlen : cmd.length ≤ 12) :
    commandQueue type cmd q =
      if q.endPtr+1+cmd.length > commandQueueLength then (1,q) else (0,push type cmd q) := by
  obtain ⟨h₀,h₁⟩ := hq
  have hmod : (q.endPtr+((1+cmd.length : Nat) : Int)) % 2^32 = q.endPtr+1+cmd.length := by
    simp only [commandQueueLength] at h₁
    omega
  simp only [commandQueue,hmod]
  rfl

theorem content_push {q : CommandQueue} (hq : 0 ≤ q.endPtr) (type : CommandType) (cmd : List Byte) :
    content (push type cmd q) = content q ++ type.code :: cmd := by
  have hn : (push type cmd q).endPtr.toNat = q.endPtr.toNat+(type.code :: cmd).length := by
    simp only [push,List.length_cons]
    omega
  have hp : (0 : Int)+(q.endPtr.toNat : Int) = q.endPtr := by omega
  rw [content,hn,Memory.load_add,hp,push_mem,Memory.load_store,
    Memory.load_store_before _ _ _ _ _ (by omega),content]

theorem content_trim (q : CommandQueue) :
    content (trim q) = if searchFinds (content q) then (content q).dropLast else content q := by
  by_cases h : searchFinds (content q) = true
  · have hpos := searchFinds_endPtr h
    have hn : q.endPtr.toNat = (q.endPtr-1).toNat+1 := by omega
    have ht : (trim q).endPtr = q.endPtr-1 := by simp [trim,h]
    rw [if_pos h,content,content,ht,trim_mem,hn,Memory.load_add]
    simp [Memory.load]
  · simp [trim,h]

/-- Everything one call keeps: the pointer stays in the buffer, and no byte outside
the buffer is written. -/
structure Kept (q q' : CommandQueue) : Prop where
  inBuffer : InBuffer q'
  outside : ∀ i : Int, i < 0 ∨ commandQueueLength ≤ i → q'.mem i = q.mem i

theorem Kept.trans {q₁ q₂ q₃ : CommandQueue} (h : Kept q₁ q₂) (h' : Kept q₂ q₃) : Kept q₁ q₃ :=
  ⟨h'.inBuffer,fun i hi => (h'.outside i hi).trans (h.outside i hi)⟩

theorem commandQueue_kept {q : CommandQueue} (hq : InBuffer q) (type : CommandType)
    (cmd : List Byte) (hlen : cmd.length ≤ 12) : Kept q (commandQueue type cmd q).2 := by
  rw [commandQueue_eq hq type cmd hlen]
  obtain ⟨h₀,h₁⟩ := hq
  split
  · exact ⟨⟨h₀,h₁⟩,fun _ _ => rfl⟩
  · rename_i hroom
    refine ⟨⟨by simp only [push]; omega,by simp only [push]; omega⟩,?_⟩
    intro i hi
    exact Memory.store_outside q.mem q.endPtr (type.code :: cmd) i (by
      simp only [List.length_cons]
      omega)

theorem commandQueueRegister_kept {q : CommandQueue} (hq : InBuffer q) (reg value : BitVec 32) :
    Kept q (commandQueueRegister reg value q).2 := by
  have htrim : Kept q (trim q) := ⟨trim_inBuffer hq,fun i _ => by rw [trim_mem]⟩
  have h₁ := commandQueue_kept htrim.inBuffer .register (wordBytes reg ++ wordBytes value) (by simp)
  have h₂ := commandQueue_kept h₁.inBuffer .spiWrite [] (by simp)
  rw [commandQueueRegister_eq]
  exact (htrim.trans h₁).trans h₂

theorem Cmd.queue_kept {q : CommandQueue} (hq : InBuffer q) (c : Cmd) : Kept q (c.queue q).2 := by
  cases hc : c.isRegister with
  | false =>
    rw [c.queue_eq hc]
    exact commandQueue_kept hq c.type c.payload c.payload_length_le
  | true =>
    cases c with
    | register reg value => exact commandQueueRegister_kept hq reg value
    | _ => simp [isRegister,type] at hc

inductive Call
  | queue (c : Cmd)
  | clear
  | repeatTimes (count : BitVec 32)
  | findLast

def Call.step (q : CommandQueue) : Call → CommandQueue
  | .queue c => (c.queue q).2
  | .clear => commandsClear q
  | .repeatTimes count => commandsRepeat count q
  | .findLast => q

theorem Call.step_kept {q : CommandQueue} (hq : InBuffer q) (call : Call) :
    Kept q (call.step q) := by
  cases call with
  | queue c => exact c.queue_kept hq
  | clear => exact ⟨⟨by simp [step,commandsClear],by simp [step,commandsClear]⟩,fun _ _ => rfl⟩
  | repeatTimes count => exact ⟨hq,fun _ _ => rfl⟩
  | findLast => exact ⟨hq,fun _ _ => rfl⟩

theorem run_kept {q : CommandQueue} (hq : InBuffer q) (calls : List Call) :
    Kept q (Runs.run Call.step q calls) := by
  induction calls generalizing q with
  | nil => exact ⟨hq,fun _ _ => rfl⟩
  | cons call calls ih =>
    have h := call.step_kept hq
    exact h.trans (ih h.inBuffer)

def startQueue (mem : Memory) : CommandQueue := ⟨mem,0,0⟩

theorem queue_stays_in_buffer (mem : Memory) (calls : List Call) :
    let q := Runs.run Call.step (startQueue mem) calls
    InBuffer q ∧ (∀ i : Int, i < 0 ∨ commandQueueLength ≤ i → q.mem i = mem i) ∧
      (findLastCommand q).isSome := by
  intro q
  have h := run_kept (inBuffer_empty mem 0) calls
  obtain ⟨last,hlast,-⟩ := findLastCommand_eq q
  exact ⟨h.inBuffer,h.outside,by simp [hlast]⟩

end Stm32Dds.Commands
