import Stm32Dds.RingBuffer
import Stm32Dds.ScpiOutput
import Stm32Dds.StatusRegisters

set_option autoImplicit false

namespace Stm32Dds.Status
open Replies Results

/-- scpi_error_t without device dependent information. -/
abbrev ErrorCode := BitVec 16

structure Fifo (size : Nat) where
  wr : Fin size
  rd : Fin size
  count : Nat
  data : Vector ErrorCode size
  count_le : count ≤ size
  wr_eq : wr.val = (rd.val+count) % size

section Fifo
variable {size : Nat}

theorem wr_advance {rd count wr : Nat} (h : wr = (rd+count) % size) :
    (wr+1) % size = (rd+(count+1)) % size := by
  rw [h,Nat.mod_add_mod,Nat.add_assoc]

theorem rd_advance {rd count wr : Nat} (hpos : 0 < count) (h : wr = (rd+count) % size) :
    wr = ((rd+1) % size+(count-1)) % size := by
  rw [h,Nat.mod_add_mod]
  congr 1
  omega

variable [NeZero size]

def fifoInit (data : Vector ErrorCode size) : Fifo size :=
  ⟨0,0,0,data,Nat.zero_le size,by simp⟩

def fifoClear (f : Fifo size) : Fifo size := fifoInit f.data

theorem wr_retreat {rd count wr : Nat} (hpos : 0 < count) (h : wr = (rd+count) % size) :
    (wr+size-1) % size = (rd+(count-1)) % size := by
  have hsize : 0 < size := Nat.pos_of_neZero size
  have hshift : rd+count+(size-1) = rd+(count-1)+size := by omega
  rw [Nat.add_sub_assoc hsize,h,Nat.mod_add_mod,hshift,Nat.add_mod_right]

def fifoAdd (value : ErrorCode) (f : Fifo size) : Bool × Fifo size :=
  if h : f.count = size then (false,f)
  else (true,{
    wr := Fin.ofNat size (f.wr.val+1)
    rd := f.rd
    count := f.count+1
    data := f.data.set f.wr value
    count_le := by have := f.count_le; omega
    wr_eq := wr_advance f.wr_eq })

/-- Without an element there is nothing to give. -/
def fifoRemove (f : Fifo size) : Option ErrorCode × Fifo size :=
  if h : f.count = 0 then (none,f)
  else (some (f.data.get f.rd),{
    wr := f.wr
    rd := Fin.ofNat size (f.rd.val+1)
    count := f.count-1
    data := f.data
    count_le := by have := f.count_le; omega
    wr_eq := rd_advance (by omega) f.wr_eq })

/-- The caller does not look at the element. -/
def fifoRemoveLast (f : Fifo size) : Fifo size :=
  if h : f.count = 0 then f
  else {
    wr := Fin.ofNat size (f.wr.val+size-1)
    rd := f.rd
    count := f.count-1
    data := f.data
    count_le := by have := f.count_le; omega
    wr_eq := wr_retreat (by omega) f.wr_eq }

def Fifo.contents (f : Fifo size) : List ErrorCode := RingBuffer.contents f.data f.rd.val f.count

@[simp] theorem Fifo.contents_length (f : Fifo size) : f.contents.length = f.count :=
  RingBuffer.contents_length _ _ _

theorem Fifo.wr_slot (f : Fifo size) : f.wr = RingBuffer.slot f.rd.val f.count :=
  Fin.ext f.wr_eq

theorem fifoAdd_full {f : Fifo size} (h : f.count = size) (value : ErrorCode) :
    fifoAdd value f = (false,f) := dif_pos h

theorem fifoAdd_room {f : Fifo size} (h : f.count < size) (value : ErrorCode) :
    (fifoAdd value f).1 = true ∧ (fifoAdd value f).2.contents = f.contents ++ [value] := by
  rw [fifoAdd,dif_neg h.ne]
  exact ⟨rfl,RingBuffer.contents_set f.data f.wr_slot value h⟩

theorem contents_fifoRemove (f : Fifo size) :
    (fifoRemove f).1 = f.contents.head? ∧ (fifoRemove f).2.contents = f.contents.tail := by
  by_cases h : f.count = 0
  · have hnil : f.contents = [] := List.length_eq_zero_iff.mp (by rw [Fifo.contents_length,h])
    rw [fifoRemove,dif_pos h,hnil]
    exact ⟨rfl,rfl⟩
  · obtain ⟨n,hn⟩ : ∃ n, f.count = n+1 := ⟨f.count-1,by omega⟩
    have hcons := RingBuffer.contents_cons f.data f.rd.val n
    rw [← hn] at hcons
    have hslot : (RingBuffer.slot f.rd.val 0 : Fin size) = f.rd :=
      Fin.ext (by simp [RingBuffer.slot,Fin.ofNat,Nat.mod_eq_of_lt f.rd.isLt])
    have hrest := RingBuffer.contents_mod f.data (f.rd.val+1) (f.count-1)
    rw [fifoRemove,dif_neg h]
    refine ⟨?_,hrest.trans ?_⟩
    · rw [Fifo.contents,hcons,hslot]
      rfl
    · rw [Fifo.contents,hcons,hn,Nat.add_sub_cancel]
      rfl

theorem contents_fifoRemoveLast (f : Fifo size) :
    (fifoRemoveLast f).contents = f.contents.dropLast := by
  by_cases h : f.count = 0
  · have hnil : f.contents = [] := List.length_eq_zero_iff.mp (by rw [Fifo.contents_length,h])
    rw [fifoRemoveLast,dif_pos h,hnil]
    rfl
  · obtain ⟨n,hn⟩ : ∃ n, f.count = n+1 := ⟨f.count-1,by omega⟩
    have hlast := RingBuffer.contents_succ f.data f.rd.val n
    rw [← hn] at hlast
    have hdrop : f.contents.dropLast = RingBuffer.contents f.data f.rd.val (f.count-1) := by
      rw [Fifo.contents,hlast,List.dropLast_concat,hn,Nat.add_sub_cancel]
    rw [fifoRemoveLast,dif_neg h,hdrop]
    rfl

end Fifo

def errorQueueSize : Nat := 17

instance : NeZero errorQueueSize := ⟨by decide⟩

def queueOverflow : ErrorCode := -350
def noError : ErrorCode := 0

/-- The X entries of LIST_OF_ERRORS; USE_FULL_ERROR_LIST is not set for the library. -/
def listOfErrors : List (ErrorCode × String) :=
  [(0,"No error"),(-101,"Invalid character"),(-103,"Invalid separator"),(-104,"Data type error"),
   (-108,"Parameter not allowed"),(-109,"Missing parameter"),(-113,"Undefined header"),
   (-131,"Invalid suffix"),(-138,"Suffix not allowed"),(-151,"Invalid string data"),
   (-170,"Expression error"),(-200,"Execution error"),(-224,"Illegal parameter value"),
   (-310,"System error"),(-350,"Queue overflow"),(-363,"Input buffer overrun")]

def errorTranslate (err : ErrorCode) : String :=
  ((listOfErrors.find? fun e => e.1 = err).map Prod.snd).getD "Unknown error"

/-- interface->error -/
def emit (err : ErrorCode) (o : Output) : Output :=
  { o with pieces := o.pieces ++ [.error err (errorTranslate err)] }

structure Context where
  registers : Registers
  errorQueue : Fifo errorQueueSize
  cmdError : Bool
  out : Output

def scpiInit (data : Vector ErrorCode errorQueueSize) : Context :=
  ⟨fun _ => 0,fifoInit data,false,⟨0,[]⟩⟩

def errorCount (c : Context) : Nat := c.errorQueue.count

def errorEmitEmpty (c : Context) : Context :=
  if errorCount c = 0 ∧ c.registers .stb &&& Stb.qma ≠ 0 then
    { c with registers := regClearBits .stb Stb.qma c.registers, out := emit noError c.out }
  else c

def errorEmit (err : ErrorCode) (c : Context) : Context :=
  { c with registers := regSetBits .stb Stb.qma c.registers, out := emit err c.out }

def errorClear (c : Context) : Context :=
  errorEmitEmpty { c with errorQueue := fifoClear c.errorQueue }

def errorPop (c : Context) : ErrorCode × Context :=
  let (error,errorQueue) := fifoRemove c.errorQueue
  (error.getD noError,errorEmitEmpty { c with errorQueue := errorQueue })

/-- When the queue is full its last entry is replaced. -/
def errorAddInternal (err : ErrorCode) (c : Context) : Bool × Context :=
  let (added,errorQueue) := fifoAdd err c.errorQueue
  if added then (true,{ c with errorQueue := errorQueue })
  else
    let errorQueue := fifoRemoveLast errorQueue
    (false,{ c with errorQueue := (fifoAdd queueOverflow errorQueue).2 })

structure ErrorReg where
  errFrom : Int
  errTo : Int
  esrBit : RegVal

def errs : List ErrorReg :=
  [⟨-100,-199,Esr.cer⟩,⟨-200,-299,Esr.eer⟩,⟨-300,-399,Esr.der⟩,⟨1,32767,Esr.der⟩,
   ⟨-400,-499,Esr.qer⟩,⟨-500,-599,Esr.pon⟩,⟨-600,-699,Esr.urq⟩,⟨-700,-799,Esr.req⟩,
   ⟨-800,-899,Esr.opc⟩]

def errorEvent (err : ErrorCode) (r : Registers) (e : ErrorReg) : Registers :=
  if err.toInt ≤ e.errFrom ∧ err.toInt ≥ e.errTo then regSetBits .esr e.esrBit r else r

def errorPush (err : ErrorCode) (c : Context) : Context :=
  let (added,c) := errorAddInternal err c
  let c := { c with registers := errs.foldl (errorEvent err) c.registers }
  let c := errorEmit err c
  let c := if added then c else errorEmit queueOverflow c
  { c with cmdError := true }

theorem contents_errorAddInternal (err : ErrorCode) (c : Context) :
    (errorAddInternal err c).1 = decide (c.errorQueue.contents.length < errorQueueSize) ∧
    (errorAddInternal err c).2.errorQueue.contents =
      RingBuffer.push errorQueueSize queueOverflow c.errorQueue.contents err := by
  rw [RingBuffer.push,Fifo.contents_length]
  by_cases h : c.errorQueue.count < errorQueueSize
  · obtain ⟨hadded,hcontents⟩ := fifoAdd_room h err
    rw [if_pos h,decide_eq_true h]
    unfold errorAddInternal
    simp only [hadded,if_true,true_and]
    exact hcontents
  · have hfull : c.errorQueue.count = errorQueueSize :=
      le_antisymm c.errorQueue.count_le (not_lt.mp h)
    have hlast := contents_fifoRemoveLast c.errorQueue
    have hroom : (fifoRemoveLast c.errorQueue).count < errorQueueSize := by
      rw [← Fifo.contents_length,hlast,List.length_dropLast,Fifo.contents_length,hfull]
      decide
    rw [if_neg h,decide_eq_false h,← hlast,← (fifoAdd_room hroom queueOverflow).2]
    unfold errorAddInternal
    rw [fifoAdd_full hfull]
    exact ⟨rfl,rfl⟩

theorem errorAddInternal_rest (err : ErrorCode) (c : Context) :
    (errorAddInternal err c).2.registers = c.registers ∧
      (errorAddInternal err c).2.out = c.out := by
  unfold errorAddInternal
  cases hadd : (fifoAdd err c.errorQueue).1 <;> simp [hadd]

theorem errorEmitEmpty_queue (c : Context) : (errorEmitEmpty c).errorQueue = c.errorQueue := by
  unfold errorEmitEmpty
  split <;> rfl

theorem contents_errorPush (err : ErrorCode) (c : Context) :
    (errorPush err c).errorQueue.contents =
      RingBuffer.push errorQueueSize queueOverflow c.errorQueue.contents err := by
  rw [← (contents_errorAddInternal err c).2]
  unfold errorPush
  cases hadd : (errorAddInternal err c).1 <;> simp [hadd,errorEmit]

theorem contents_errorPop (c : Context) :
    (errorPop c).1 = c.errorQueue.contents.head?.getD noError ∧
      (errorPop c).2.errorQueue.contents = c.errorQueue.contents.tail := by
  obtain ⟨hhead,htail⟩ := contents_fifoRemove c.errorQueue
  unfold errorPop
  simp only [errorEmitEmpty_queue]
  exact ⟨by rw [hhead],htail⟩

def drain : Nat → Context → List ErrorCode
  | 0, _ => []
  | n+1, c => (errorPop c).1 :: drain n (errorPop c).2

theorem drain_eq (n : Nat) (c : Context) :
    drain n c = (c.errorQueue.contents ++ List.replicate n noError).take n := by
  induction n generalizing c with
  | zero => rfl
  | succ n ih =>
    obtain ⟨hhead,htail⟩ := contents_errorPop c
    rw [drain,ih,hhead,htail]
    cases c.errorQueue.contents with
    | nil => simp [List.replicate_succ]
    | cons e es =>
      simp only [List.head?_cons,Option.getD_some,List.tail_cons,List.cons_append,
        List.take_succ_cons,List.cons.injEq,true_and]
      rw [List.take_append,List.take_append]
      simp only [List.take_replicate]
      congr 2
      omega

theorem contents_pushes (es : List ErrorCode) (c : Context) :
    (es.foldl (fun c e => errorPush e c) c).errorQueue.contents =
      es.foldl (RingBuffer.push errorQueueSize queueOverflow) c.errorQueue.contents := by
  induction es generalizing c with
  | nil => rfl
  | cons e es ih => rw [List.foldl_cons,ih,contents_errorPush,List.foldl_cons]

/-- Errors come back in the order they were pushed, in front of them those that were there
before. If they are more than the queue has room for, the first sixteen are kept and one
"Queue overflow" stands for the rest. An empty queue answers "No error". -/
theorem errors_drain_in_order (c : Context) (es : List ErrorCode) (n : Nat) :
    let all := c.errorQueue.contents ++ es
    drain n (es.foldl (fun c e => errorPush e c) c) =
      ((if all.length ≤ 17 then all else all.take 16 ++ [queueOverflow]) ++
        List.replicate n noError).take n := by
  have hle : c.errorQueue.contents.length ≤ errorQueueSize := by
    rw [Fifo.contents_length]
    exact c.errorQueue.count_le
  intro all
  rw [drain_eq,contents_pushes,RingBuffer.foldl_push (by decide) hle,← List.length_append]
  rfl

end Stm32Dds.Status
