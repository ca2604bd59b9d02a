import Stm32Dds.CommandExecution

/-! The set callbacks of scpi.c. A callback reads its parameter, turns it into
commands, and hands them to scpi_process_command_*, which executes or queues them
depending on the mode. -/

set_option autoImplicit false

namespace Stm32Dds.Scpi
open Bytes Ad9910 Commands

inductive ScpiUnit
  | none | hertz | dbm | second | other
  deriving DecidableEq, Repr

inductive SpecialTag
  | number | min | max | default | up | down | nan | inf | ninf | auto
  deriving DecidableEq, Repr

/-- scpi_number_t: a mnemonic, or a finite value with its unit. -/
inductive NumberOf (K : Type)
  | special (tag : SpecialTag)
  | plain (value : K) (unit : ScpiUnit)
  deriving DecidableEq

abbrev ScpiNumber := NumberOf ℚ

inductive WaitNumber
  | minimal
  | trigger
  | plain (value : ℚ) (unit : ScpiUnit)
  deriving DecidableEq

/-- `parameter` is whatever error the SCPI_Param* functions push themselves. -/
inductive ScpiError
  | parameter | illegalParameterValue | dataOutOfRange | invalidSuffix | tooMuchData
  | invalidCharacter | undefinedHeader
  deriving DecidableEq, Repr

structure ConversionsOver (K : Type) where
  toUInt32 : K → BitVec 32
  convertFrequency : K → BitVec 32
  convertAmplitude : K → BitVec 32
  rampRate : K → BitVec 32
  lowestRampRate : K
  milliseconds : K → BitVec 32

abbrev Conversions := ConversionsOver ℚ

def maxFrequency : Nat := 4294967295
def maxAmplitude : Nat := 16383

section
variable {K : Type} [NatCast K] [LT K] [DecidableLT K]

def inRange (value low high : K) (word : BitVec 32) : Except ScpiError (BitVec 32) :=
  if value < low ∨ value > high then .error .dataOutOfRange else .ok word

variable (k : ConversionsOver K)

def scpiParamFrequency : Option (NumberOf K) → Except ScpiError (BitVec 32)
  | none => .error .parameter
  | some (.special .min) => .ok 0
  | some (.special .max) => .ok (k.convertFrequency (400000000 : Nat))
  | some (.special _) => .error .illegalParameterValue
  | some (.plain v .none) => inRange v (0 : Nat) maxFrequency (k.toUInt32 v)
  | some (.plain v .hertz) => inRange v (0 : Nat) (400000000 : Nat) (k.convertFrequency v)
  | some (.plain _ _) => .error .invalidSuffix

def scpiParamAmplitude : Option (NumberOf K) → Except ScpiError (BitVec 32)
  | none => .error .parameter
  | some (.special .min) => .ok 0
  | some (.special .max) => .ok 16383
  | some (.special _) => .error .illegalParameterValue
  | some (.plain v .none) => inRange v (0 : Nat) maxAmplitude (k.toUInt32 v)
  | some (.plain v .dbm) =>
    if v > (0 : Nat) then .error .dataOutOfRange else .ok (k.convertAmplitude v)
  | some (.plain _ _) => .error .invalidSuffix

def scpiParamRampRate : Option (NumberOf K) → Except ScpiError (BitVec 32)
  | none => .error .parameter
  | some (.special .min) => .ok 0xFFFF
  | some (.special .max) => .ok 1
  | some (.special _) => .error .illegalParameterValue
  | some (.plain v .none) => inRange v (0 : Nat) (0xFFFF : Nat) (k.toUInt32 v)
  | some (.plain v .hertz) => inRange v k.lowestRampRate (1000000000 : Nat) (k.rampRate v)
  | some (.plain _ _) => .error .invalidSuffix

def scpiParamRamp : Option (NumberOf K) → Except ScpiError (BitVec 32)
  | none => .error .parameter
  | some (.special _) => .error .illegalParameterValue
  | some (.plain v .none) => inRange v (0 : Nat) maxFrequency (k.toUInt32 v)
  | some (.plain v .dbm) =>
    if v > (0 : Nat) then .error .dataOutOfRange else .ok (k.convertAmplitude v <<< 18)
  | some (.plain v .hertz) => inRange v (0 : Nat) (400000000 : Nat) (k.convertFrequency v)
  | some (.plain _ _) => .error .invalidSuffix

end

inductive RampMode
  | single | sawtoothDown | sawtoothUp | oscillating
  deriving DecidableEq, Repr

def RampMode.code : RampMode → BitVec 32
  | .single => 0
  | .sawtoothDown => 1
  | .sawtoothUp => 2
  | .oscillating => 3

inductive RampTarget
  | off | amplitude | frequency | phase
  deriving DecidableEq, Repr

def RampTarget.code : RampTarget → BitVec 32
  | .off => 0xFF
  | .amplitude => 2
  | .frequency => 0
  | .phase => 1

inductive ParallelMode
  | amplitude | phase | frequency | polar
  deriving DecidableEq, Repr

def ParallelMode.code : ParallelMode → BitVec 32
  | .amplitude => 0
  | .phase => 1
  | .frequency => 2
  | .polar => 3

inductive Mode
  | normal | program | execute
  deriving DecidableEq, Repr

/-- struct parallel; the buffer byte by byte. -/
structure Parallel where
  buffer : Nat → Byte
  length : BitVec 32
  repeats : BitVec 32

def Parallel.sample (p : Parallel) (i : Nat) : BitVec 16 := p.buffer (2*i+1) ++ p.buffer (2*i)

structure Device where
  mode : Mode
  queue : CommandQueue
  dds : Dds
  parallel : Parallel
  executeFlag : Bool
  errors : List ScpiError

/-- The static initialisers, and a DDS that holds its boot values. -/
def Device.reset (mem : Memory) : Device :=
  ⟨.normal,startQueue mem,Dds.boot (Chip.ofRegs Reg.bootValue) fun _ => false,⟨fun _ => 0,0,0⟩,
    false,[]⟩

/-- Where the linker has put the field descriptors and the sample buffer, and what
is in the rest of the memory. -/
structure Layout where
  env : Env
  fieldAddr : RegisterBit → BitVec 32
  bufferAddr : BitVec 32

def Layout.envOf (lay : Layout) (p : Parallel) : Env :=
  { lay.env with sample := fun a => if a = lay.bufferAddr then p.sample else lay.env.sample a }

/-- The body of DEFINE_PROCESS_COMMAND. In program mode the result of the queue
function is dropped. -/
def processCommand (lay : Layout) (dev : Device) (c : Cmd) : Device :=
  match dev.mode with
  | .program => { dev with queue := (c.queue dev.queue).2 }
  | _ => { dev with dds := c.execute (lay.envOf dev.parallel) dev.dds }

inductive Callback
  | outputState (value : Option Bool)
  | outputFrequency (value : Option ScpiNumber)
  | outputAmplitude (value : Option ScpiNumber)
  | rampBoundaryMinimum (value : Option ScpiNumber)
  | rampBoundaryMaximum (value : Option ScpiNumber)
  | rampStepUp (value : Option ScpiNumber)
  | rampStepDown (value : Option ScpiNumber)
  | rampRateUp (value : Option ScpiNumber)
  | rampRateDown (value : Option ScpiNumber)
  | rampMode (value : Option RampMode)
  | rampDirection (value : Option Bool)
  | rampTarget (value : Option RampTarget)
  | parallelFrequency (value : Option ScpiNumber)
  | parallelTarget (value : Option ParallelMode)
  | parallelState (value : Option Bool)
  | wait (value : Option WaitNumber)
  | triggerWait (value : Option WaitNumber)
  | triggerSend
  deriving DecidableEq

section
variable (lay : Layout) (k : Conversions)

def registerCommand (f : RegisterBit) (value : BitVec 32) : Cmd := .register (lay.fieldAddr f) value

def pinCommand (p : GpioPin) (value : BitVec 32) : Cmd := .pin p.group p.pin value

def scpiParseRegisterCommand (f : RegisterBit) (param : Except ScpiError (BitVec 32)) :
    Except ScpiError (List Cmd) := param.map fun value => [registerCommand lay f value]

def scpiParsePinCommand (p : GpioPin) : Option Bool → Except ScpiError (List Cmd)
  | none => .error .parameter
  | some value => .ok [pinCommand p (if value then 1 else 0)]

def scpiCallbackWait : Option WaitNumber → Except ScpiError (List Cmd)
  | none => .error .parameter
  | some .minimal => .ok [.wait 1]
  | some .trigger => .ok [.trigger]
  | some (.plain v .second) => .ok [.wait (k.milliseconds v)]
  | some (.plain v .none) => .ok [.wait (k.toUInt32 v)]
  | some (.plain _ _) => .error .invalidSuffix

def Callback.commands (p : Parallel) : Callback → Except ScpiError (List Cmd)
  | .outputState v => scpiParsePinCommand Pin.rfSwitch v
  | .outputFrequency v =>
    scpiParseRegisterCommand lay Field.profileFrequency (scpiParamFrequency k v)
  | .outputAmplitude v =>
    scpiParseRegisterCommand lay Field.profileAmplitude (scpiParamAmplitude k v)
  | .rampBoundaryMinimum v => scpiParseRegisterCommand lay Field.rampLowerLimit (scpiParamRamp k v)
  | .rampBoundaryMaximum v => scpiParseRegisterCommand lay Field.rampUpperLimit (scpiParamRamp k v)
  | .rampStepUp v => scpiParseRegisterCommand lay Field.rampIncrementStep (scpiParamRamp k v)
  | .rampStepDown v => scpiParseRegisterCommand lay Field.rampDecrementStep (scpiParamRamp k v)
  | .rampRateUp v => scpiParseRegisterCommand lay Field.rampPositiveRate (scpiParamRampRate k v)
  | .rampRateDown v => scpiParseRegisterCommand lay Field.rampNegativeRate (scpiParamRampRate k v)
  | .rampMode none => .error .parameter
  | .rampMode (some m) => .ok [registerCommand lay Field.digitalRampNoDwellHigh (m.code &&& 2),
      registerCommand lay Field.digitalRampNoDwellLow (m.code &&& 1)]
  | .rampDirection v => scpiParsePinCommand Pin.drctl v
  | .rampTarget none => .error .parameter
  | .rampTarget (some .off) => .ok [registerCommand lay Field.digitalRampEnable 0]
  | .rampTarget (some t) => .ok [registerCommand lay Field.digitalRampDestination t.code,
      registerCommand lay Field.digitalRampEnable 1]
  | .parallelFrequency none => .error .parameter
  -- a mnemonic has no unit and a number is not special, so `!special || unit != HERTZ` always holds
  | .parallelFrequency (some _) => .error .illegalParameterValue
  | .parallelTarget none => .error .parameter
  | .parallelTarget (some m) => .ok [pinCommand Pin.parallelF0 (m.code &&& 1),
      pinCommand Pin.parallelF1 (if m.code &&& 2 ≠ 0 then 1 else 0)]
  | .parallelState none => .error .parameter
  | .parallelState (some _) => .ok [.parallel lay.bufferAddr p.length p.repeats]
  | .wait v | .triggerWait v => scpiCallbackWait k v
  | .triggerSend => .ok [.update]

inductive ScpiResult
  | ok | err
  deriving DecidableEq, Repr

def Callback.run (cb : Callback) (dev : Device) : ScpiResult × Device :=
  match cb.commands lay k dev.parallel with
  | .error e => (.err,{ dev with errors := dev.errors ++ [e] })
  | .ok cs => (.ok,cs.foldl (processCommand lay) dev)

end

def parallelBufSize : Nat := 1024*60

/-- scpi_callback_parallel_data on a block that has arrived completely. -/
def scpiCallbackParallelData (data : List Byte) (dev : Device) : ScpiResult × Device :=
  if data.length > parallelBufSize then
    (.err,{ dev with errors := dev.errors ++ [.tooMuchData] })
  else (.ok,{ dev with parallel := { dev.parallel with
    length := BitVec.ofNat 32 data.length
    buffer := fun i => data.getD i (dev.parallel.buffer i) } })

def scpiCallbackParallelNcycles (value : Option (BitVec 32)) (dev : Device) : ScpiResult × Device :=
  match value with
  | none => (.err,{ dev with errors := dev.errors ++ [.parameter] })
  | some n => (.ok,{ dev with parallel := { dev.parallel with repeats := n } })

def scpiCallbackSequenceNcycles (k : Conversions) (value : Option ScpiNumber) (dev : Device) :
    ScpiResult × Device :=
  match value with
  | none => (.err,{ dev with errors := dev.errors ++ [.parameter] })
  | some (.special .inf) => (.ok,{ dev with queue := commandsRepeat 0xFFFFFFFF dev.queue })
  | some (.special _) => (.err,{ dev with errors := dev.errors ++ [.illegalParameterValue] })
  | some (.plain v .none) => (.ok,{ dev with queue := commandsRepeat (k.toUInt32 v) dev.queue })
  | some (.plain _ _) => (.err,{ dev with errors := dev.errors ++ [.invalidSuffix] })

def scpiCallbackSequenceClear (dev : Device) : ScpiResult × Device :=
  (.ok,{ dev with queue := commandsClear dev.queue })

def scpiCallbackMode (value : Option Mode) (dev : Device) : ScpiResult × Device :=
  match value with
  | none => (.err,{ dev with errors := dev.errors ++ [.parameter] })
  | some .execute => (.ok,{ dev with executeFlag := true, mode := .normal })
  | some m => (.ok,{ dev with mode := m })

-- the commands that set something, but for SEQuence:CLEAR
inductive SetCommand
  | callback (cb : Callback)
  | parallelData (data : List Byte)
  | parallelNcycles (value : Option (BitVec 32))
  | sequenceNcycles (value : Option ScpiNumber)
  | mode (value : Option Mode)
  deriving DecidableEq

def SetCommand.step (lay : Layout) (k : Conversions) (dev : Device) : SetCommand → Device
  | .callback cb => (cb.run lay k dev).2
  | .parallelData data => (scpiCallbackParallelData data dev).2
  | .parallelNcycles value => (scpiCallbackParallelNcycles value dev).2
  | .sequenceNcycles value => (scpiCallbackSequenceNcycles k value dev).2
  | .mode value => (scpiCallbackMode value dev).2

/-- In program mode a callback is the queue calls for its commands and nothing else. -/
theorem foldl_processCommand (lay : Layout) (cs : List Cmd) (dev : Device)
    (h : dev.mode = .program) :
    cs.foldl (processCommand lay) dev =
      { dev with queue := cs.foldl (fun q c => (c.queue q).2) dev.queue } := by
  induction cs generalizing dev with
  | nil => rfl
  | cons c cs ih =>
    have hstep : processCommand lay dev c = { dev with queue := (c.queue dev.queue).2 } := by
      simp [processCommand,h]
    rw [List.foldl_cons,hstep]
    exact ih _ h

end Stm32Dds.Scpi
