import Stm32Dds.ScpiCallbacks

/-! The dispatcher of the SCPI library on the command table of scpi.c: the headers
of the message units are completed with the path of the header before, looked up,
and the callback is called with the data of the unit. -/

set_option autoImplicit false

namespace Stm32Dds.Scpi
open Bytes Commands

def strnpbrk (set : List Char) (str : List Char) : List Char × List Char :=
  str.span fun c => !set.contains c

-- the keyword up to the next separator, and what is left
def patternSeparator (pattern : List Char) : List Char × List Char :=
  strnpbrk ['?',':','[',']'] pattern

def cmdSeparator (cmd : List Char) : List Char × List Char := strnpbrk [':','?'] cmd

def patternSeparatorShort (pattern : List Char) : List Char :=
  pattern.takeWhile fun c => !c.isLower

def compareStr (a b : List Char) : Bool := a.map Char.toLower == b.map Char.toLower

-- no pattern of the table has a numeric suffix (#)
def matchPattern (pattern str : List Char) : Bool :=
  compareStr pattern str || compareStr (patternSeparatorShort pattern) str

/-- The command is complete: the rest of the pattern has to be optional. -/
def restOptional : Nat → Int → List Char → Bool
  | 0, _, _ => false
  | fuel+1, brackets, pattern =>
    match (patternSeparator pattern).2 with
    | [] => pattern.isEmpty
    | c :: rest =>
      let brackets := if c = '[' then brackets+1 else if c = ']' then brackets-1 else brackets
      if brackets = 0 then
        if rest.head? = some '[' then restOptional fuel brackets rest else rest.isEmpty
      else restOptional fuel brackets rest

def matchKeywords : Nat → Int → List Char → List Char → Bool
  | 0, _, _, _ => false
  | fuel+1, brackets, pattern, cmd =>
    let (key,patternRest) := patternSeparator pattern
    let (word,cmdRest) := cmdSeparator cmd
    if matchPattern key word then
      match patternRest, cmdRest with
      | [], [] => true
      | [], _ :: _ => false
      | p, [] => restOptional (fuel+1) brackets p
      | ':' :: p, ':' :: c => matchKeywords fuel brackets p c
      | '[' :: ':' :: p, ':' :: c => matchKeywords fuel (brackets+1) p c
      | ']' :: ':' :: p, ':' :: c => matchKeywords fuel (brackets-1) p c
      | ']' :: '[' :: ':' :: p, ':' :: c => matchKeywords fuel brackets p c
      | _, _ => false
    else
      -- an optional keyword that the command leaves out
      match patternRest with
      | ']' :: ':' :: p => matchKeywords fuel (brackets-1) p cmd
      | ']' :: '[' :: ':' :: p => matchKeywords fuel brackets p cmd
      | _ => false

def matchCommandBody (pattern cmd : List Char) : Bool :=
  let (brackets,pattern) : Int × List Char :=
    match pattern with
    | '[' :: p => (1,p)
    | p => (0,p)
  let pattern := match pattern with
    | ':' :: p => p
    | p => p
  match cmd with
  | ':' :: '*' :: _ => false
  | ':' :: c :: cs => matchKeywords (pattern.length+1) brackets pattern (c :: cs)
  | cmd => matchKeywords (pattern.length+1) brackets pattern cmd

def matchCommand (pattern cmd : List Char) : Bool :=
  if pattern.getLast? = some '?' then
    if cmd.getLast? = some '?' then matchCommandBody pattern.dropLast cmd.dropLast else false
  else matchCommandBody pattern cmd

/-- What the parameter readers of the library make of the data of a unit. -/
structure ProgramData where
  bool : Option Bool
  number : Option ScpiNumber
  wait : Option WaitNumber
  uint32 : Option (BitVec 32)
  mode : Option Mode
  rampMode : Option RampMode
  rampTarget : Option RampTarget
  parallelTarget : Option ParallelMode

/-- The header of a message unit, the place of the header in the unit, and the size of
the unit. -/
structure UnitHeader where
  invalid : Bool
  header : List Char
  headerAt : Nat
  size : Nat

structure MessageUnit extends UnitHeader where
  data : ProgramData

/-- What the parser does for a unit. The commands that are `other` touch neither
the DDS nor the queue: queries, status, flash and network settings. -/
inductive Action
  | set (c : SetCommand)
  | clear
  | other
  | fail (e : ScpiError)
  deriving DecidableEq

def patternsBoth : List (String × (ProgramData → Action)) :=
  [("MODE",fun d => .set (.mode d.mode)),
   ("OUTput:STATe",fun d => .set (.callback (.outputState d.bool))),
   ("OUTput:AMPLitude",fun d => .set (.callback (.outputAmplitude d.number))),
   ("OUTput:FREQuency",fun d => .set (.callback (.outputFrequency d.number))),
   -- the units here carry no block
   ("PARallel:DATa",fun _ => .fail .parameter),
   ("PARallel:FREQuency",fun d => .set (.callback (.parallelFrequency d.number))),
   ("PARallel:NCYCles",fun d => .set (.parallelNcycles d.uint32)),
   ("PARallel:STATe",fun d => .set (.callback (.parallelState d.bool))),
   ("PARallel:TARget",fun d => .set (.callback (.parallelTarget d.parallelTarget))),
   ("RAMP:BOUNDary:MAXimum",fun d => .set (.callback (.rampBoundaryMaximum d.number))),
   ("RAMP:BOUNDary:MINimum",fun d => .set (.callback (.rampBoundaryMinimum d.number))),
   ("RAMP:DIRection",fun d => .set (.callback (.rampDirection d.bool))),
   ("RAMP:MODE",fun d => .set (.callback (.rampMode d.rampMode))),
   ("RAMP:RATE:DOWN",fun d => .set (.callback (.rampRateDown d.number))),
   ("RAMP:RATE:UP",fun d => .set (.callback (.rampRateUp d.number))),
   ("RAMP:STEP:DOWN",fun d => .set (.callback (.rampStepDown d.number))),
   ("RAMP:STEP:UP",fun d => .set (.callback (.rampStepUp d.number))),
   ("RAMP:TARget",fun d => .set (.callback (.rampTarget d.rampTarget))),
   ("SEQuence:NCYCles",fun d => .set (.sequenceNcycles d.number)),
   ("SYSTem:NETwork:ADDRess",fun _ => .other),
   ("SYSTem:NETwork:GATEway",fun _ => .other),
   ("SYSTem:NETwork:SUBmask",fun _ => .other)]

def patternsNoQuery : List (String × (ProgramData → Action)) :=
  [("SEQuence:CLEAR",fun _ => .clear),
   ("STARTup:CLEAR",fun _ => .other),
   ("STARTup:SAVE",fun _ => .other),
   ("TRIGger:SEND",fun _ => .set (.callback .triggerSend)),
   ("TRIGger:WAIT",fun d => .set (.callback (.triggerWait d.wait))),
   ("WAIT",fun d => .set (.callback (.wait d.wait)))]

def patternsOnlyQuery : List String := ["*TST","REGister","SYSTem:PLL"]

def patternsLibrary : List String :=
  ["*CLS","*ESE","*ESE?","*ESR?","*IDN?","*OPC","*OPC?","*RST","*SRE","*SRE?","*STB?","*WAI",
   "SYSTem:ERRor[:NEXT]?","SYSTem:ERRor:COUNt?","SYSTem:VERSion?"]

def scpiCommands : List (String × (ProgramData → Action)) :=
  patternsLibrary.map (fun p => (p,fun _ => .other)) ++
  patternsBoth ++
  patternsBoth.map (fun e => (e.1 ++ "?",fun _ => .other)) ++
  patternsNoQuery ++
  patternsOnlyQuery.map (fun p => (p ++ "?",fun _ => .other))

def findCommandHeader (header : List Char) : Option (ProgramData → Action) :=
  (scpiCommands.find? fun e => matchCommand e.1.toList header).map Prod.snd

def headerPath (header : List Char) : List Char :=
  (header.reverse.dropWhile fun c => c != ':').reverse

def composeCompoundCommand (prev current : List Char) : List Char :=
  if prev = [] ∨ current.head? = some '*' ∨ current.head? = some ':' ∨ prev.head? = some '*' then
    current
  else headerPath prev ++ current

/-- cmd_prev: its characters, and how far in front of the next unit it starts. -/
structure Previous where
  header : List Char
  back : Nat

def Previous.none : Previous := ⟨[],0⟩

def Previous.shift (prev : Previous) (header : List Char) : Nat :=
  (composeCompoundCommand prev.header header).length-header.length

/-- cmd_prev behind a unit. The path that is put in front of a header can be written over
the end of cmd_prev; this matters when the header is undefined and cmd_prev stays. -/
def Previous.behind (prev : Previous) (u : UnitHeader) : Previous :=
  if u.invalid ∨ u.header = [] then { prev with back := prev.back+u.size }
  else
    let header := composeCompoundCommand prev.header u.header
    let shift := prev.shift u.header
    if (findCommandHeader header).isSome then ⟨header,shift+u.size-u.headerAt⟩
    else
      let start := prev.back+u.headerAt-shift
      let path := prev.header.take shift
      ⟨prev.header.take start ++ path.take (prev.header.length-start),prev.back+u.size⟩

def scpiParse {σ : Type} (handle : σ → Action → σ) : Previous → List MessageUnit → σ → σ
  | _, [], s => s
  | prev, u :: us, s =>
    let next := prev.behind u.toUnitHeader
    if u.invalid then scpiParse handle next us (handle s (.fail .invalidCharacter))
    else if u.header = [] then scpiParse handle next us s
    else
      match findCommandHeader (composeCompoundCommand prev.header u.header) with
      | some callback => scpiParse handle next us (handle s (callback u.data))
      | none => scpiParse handle next us (handle s (.fail .undefinedHeader))

/-- The actions of a buffer, which do not depend on what the callbacks do. -/
def actionsOf : Previous → List MessageUnit → List Action
  | _, [] => []
  | prev, u :: us =>
    let next := prev.behind u.toUnitHeader
    if u.invalid then .fail .invalidCharacter :: actionsOf next us
    else if u.header = [] then actionsOf next us
    else
      match findCommandHeader (composeCompoundCommand prev.header u.header) with
      | some callback => callback u.data :: actionsOf next us
      | none => .fail .undefinedHeader :: actionsOf next us

theorem scpiParse_eq {σ : Type} (handle : σ → Action → σ) (prev : Previous)
    (us : List MessageUnit) (s : σ) :
    scpiParse handle prev us s = (actionsOf prev us).foldl handle s := by
  induction us generalizing prev s with
  | nil => rfl
  | cons u us ih =>
    rw [scpiParse,actionsOf]
    split
    · exact ih _ _
    · split
      · exact ih _ _
      · split
        · exact ih _ _
        · exact ih _ _

def Action.perform (lay : Layout) (k : Conversions) (dev : Device) : Action → Device
  | .set c => c.step lay k dev
  | .clear => (scpiCallbackSequenceClear dev).2
  | .other => dev
  | .fail e => { dev with errors := dev.errors ++ [e] }

end Stm32Dds.Scpi
