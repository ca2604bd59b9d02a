import Stm32Dds.CommandLines

/-! The errors of the commands that set something by one parameter: *ESE and *SRE of ieee488.c,
and those of scpi.c but for the network settings, which push two errors, PARallel:DATa, which
reads on from the network, and the two kinds of WAIT, whose list of choices has no end. -/

set_option autoImplicit false

namespace Stm32Dds.Setters
open Bytes Parameters Status Lines
open Stm32Dds.Scpi (SetCommand ScpiResult ScpiError Action Device Layout Conversions ProgramData
  Spells scpiCommands)

inductive Setter
  | ese | sre
  | mode | parallelNcycles
  | outputState | parallelState | rampDirection
  | parallelTarget | rampMode | rampTarget
  | number (s : NumberSetting)
  deriving DecidableEq, Repr

namespace Setter

/-- The command of scpi.c that a parameter makes up, if it is one of scpi.c. -/
def command (d : ProgramData) : Setter → Option SetCommand
  | .ese | .sre => none
  | .mode => some (.mode d.mode)
  | .parallelNcycles => some (.parallelNcycles d.uint32)
  | .outputState => some (.callback (.outputState d.bool))
  | .parallelState => some (.callback (.parallelState d.bool))
  | .rampDirection => some (.callback (.rampDirection d.bool))
  | .parallelTarget => some (.callback (.parallelTarget d.parallelTarget))
  | .rampMode => some (.callback (.rampMode d.rampMode))
  | .rampTarget => some (.callback (.rampTarget d.rampTarget))
  | .number s => some (s.command d.number)

def pattern : Setter → String
  | .ese => "*ESE"
  | .sre => "*SRE"
  | .mode => "MODE"
  | .parallelNcycles => "PARallel:NCYCles"
  | .outputState => "OUTput:STATe"
  | .parallelState => "PARallel:STATe"
  | .rampDirection => "RAMP:DIRection"
  | .parallelTarget => "PARallel:TARget"
  | .rampMode => "RAMP:MODE"
  | .rampTarget => "RAMP:TARget"
  | .number s => s.pattern

def entry (s : Setter) : String × (ProgramData → Action) :=
  (s.pattern,fun d => ((s.command d).map Action.set).getD .other)

theorem library_known {p : String} (h : p ∈ Scpi.patternsLibrary) :
    (p,fun _ => Action.other) ∈ scpiCommands :=
  List.mem_append_left _ (List.mem_append_left _ (List.mem_append_left _
    (List.mem_append_left _ (List.mem_map.mpr ⟨p,h,rfl⟩))))

theorem entry_known (s : Setter) : s.entry ∈ scpiCommands := by
  cases s with
  | number s => exact s.entry_known
  | ese | sre => exact library_known (by decide)
  | _ =>
    refine List.mem_append_left _ (List.mem_append_left _ (List.mem_append_left _
      (List.mem_append_right _ ?_)))
    simp [entry,pattern,command,Scpi.patternsBoth]

end Setter

def attempted {α : Type} (r : Reading α) : Reading Unit := ⟨r.value.map fun _ => (),r.errors,r.rest⟩

def Setter.attempt (p : Params) : Setter → Reading Unit
  | .ese | .sre => attempted (paramInt32 true p)
  | .mode => attempted (paramChoice modeChoices true p)
  | .parallelNcycles => attempted (paramUInt32 true p)
  | .outputState | .parallelState | .rampDirection => attempted (paramBool true p)
  | .parallelTarget => attempted (paramChoice parallelTargetChoices true p)
  | .rampMode => attempted (paramChoice rampModeChoices true p)
  | .rampTarget => attempted (paramChoice rampTargetChoices true p)
  | .number _ => attempted (paramNumber scpiSpecialNumbersDef .plain true p)

theorem sound_attempted {α : Type} {r : Reading α} (h : Sound r.value r.errors) :
    Sound (attempted r).value (attempted r).errors :=
  ⟨fun hsome => h.none_of_value (by simpa [attempted] using hsome),h.one,h.proper⟩

theorem Setter.attempt_sound (s : Setter) (p : Params) :
    Sound (s.attempt p).value (s.attempt p).errors := by
  cases s with
  | ese | sre => exact sound_attempted (paramSignUInt32_sound true true p)
  | parallelNcycles => exact sound_attempted (paramSignUInt32_sound true false p)
  | mode | parallelTarget | rampMode | rampTarget =>
    exact sound_attempted (paramChoice_sound _ true p)
  | outputState | parallelState | rampDirection => exact sound_attempted (paramBool_sound true p)
  | number s => exact sound_attempted (paramNumber_sound _ _ true p)

def dataOutOfRange : ErrorCode := -222
def tooMuchData : ErrorCode := -223

/-- The errors that are pushed for one of scpi.c, where a reader has pushed `own`. -/
def codes (own : List ErrorCode) : ScpiError → List ErrorCode
  | .parameter => own
  | .illegalParameterValue => [illegalParameterValue]
  | .dataOutOfRange => [dataOutOfRange]
  | .invalidSuffix => [invalidSuffix]
  | .tooMuchData => [tooMuchData]
  | .invalidCharacter => [invalidCharacter]
  | .undefinedHeader => [undefinedHeader]

theorem codes_sound {own : List ErrorCode} (hone : own.length ≤ 1) (hproper : noError ∉ own)
    (e : ScpiError) : (codes own e).length ≤ 1 ∧ noError ∉ codes own e := by
  have hsingle {err : ErrorCode} (h : noError ≠ err) : [err].length ≤ 1 ∧ noError ∉ [err] :=
    ⟨le_rfl,by simpa using h⟩
  cases e with
  | parameter => exact ⟨hone,hproper⟩
  | _ => exact hsingle (by decide)

section Callbacks
variable (lay : Layout) (k : Conversions)

def run (dev : Device) : SetCommand → ScpiResult × Device
  | .callback cb => cb.run lay k dev
  | .parallelData data => Scpi.scpiCallbackParallelData data dev
  | .parallelNcycles value => Scpi.scpiCallbackParallelNcycles value dev
  | .sequenceNcycles value => Scpi.scpiCallbackSequenceNcycles k value dev
  | .mode value => Scpi.scpiCallbackMode value dev

theorem run_step (dev : Device) (c : SetCommand) : (run lay k dev c).2 = c.step lay k dev := by
  cases c <;> rfl

theorem foldl_processCommand_errors (cs : List Commands.Cmd) (dev : Device) :
    (cs.foldl (Scpi.processCommand lay) dev).errors = dev.errors := by
  induction cs generalizing dev with
  | nil => rfl
  | cons c cs ih =>
    rw [List.foldl_cons,ih,Scpi.processCommand]
    split <;> rfl

/-- A callback succeeds without an error, or adds one and changes nothing else. -/
theorem run_cases (dev : Device) (c : SetCommand) :
    (run lay k dev c).1 = .ok ∧ (run lay k dev c).2.errors = dev.errors ∨
      ∃ e, run lay k dev c = (.err,{ dev with errors := dev.errors ++ [e] }) := by
  cases c with
  | callback cb =>
    simp only [run,Scpi.Callback.run]
    split
    · exact .inr ⟨_,rfl⟩
    · exact .inl ⟨rfl,foldl_processCommand_errors lay _ dev⟩
  | parallelData data =>
    simp only [run,Scpi.scpiCallbackParallelData]
    split
    · exact .inr ⟨_,rfl⟩
    · exact .inl ⟨rfl,rfl⟩
  | parallelNcycles value =>
    cases value with
    | none => exact .inr ⟨_,rfl⟩
    | some n => exact .inl ⟨rfl,rfl⟩
  | sequenceNcycles value =>
    simp only [run,Scpi.scpiCallbackSequenceNcycles]
    split <;> first | exact .inl ⟨rfl,rfl⟩ | exact .inr ⟨_,rfl⟩
  | mode value =>
    simp only [run,Scpi.scpiCallbackMode]
    split <;> first | exact .inl ⟨rfl,rfl⟩ | exact .inr ⟨_,rfl⟩

variable (s : Setter) (p : Params) (dev : Device)

/-- The errors the callback of a setter pushes, the reader's and its own. -/
def Setter.pushes : List ErrorCode :=
  match s.command (programDataOf p) with
  | none => (s.attempt p).errors
  | some c =>
    ((run lay k dev c).2.errors.drop dev.errors.length).flatMap (codes (s.attempt p).errors)

def Setter.calls (p : Params) : Setter → List Call
  | .ese => ((paramInt32 true p).value.map Call.ese).toList
  | .sre => ((paramInt32 true p).value.map Call.sre).toList
  | _ => []

def Setter.ok : Bool :=
  match s.command (programDataOf p) with
  | none => (s.attempt p).value.isSome
  | some c => (run lay k dev c).1 = .ok

theorem Setter.pushes_sound : (s.pushes lay k p dev).length ≤ 1 ∧ noError ∉ s.pushes lay k p dev ∧
    (s.ok lay k p dev = true → s.pushes lay k p dev = []) := by
  have hsound := s.attempt_sound p
  unfold Setter.pushes Setter.ok
  cases s.command (programDataOf p) with
  | none => exact ⟨hsound.one,hsound.proper,hsound.none_of_value⟩
  | some c =>
    rcases run_cases lay k dev c with ⟨hok,herrors⟩ | ⟨e,herr⟩
    · simp [herrors]
    · simpa [herr] using codes_sound hsound.one hsound.proper e

theorem Setter.calls_quiet : (s.calls p).any Call.isPush = false ∧
    (s.ok lay k p dev = false → s.calls p = []) := by
  have hmask (call : BitVec 32 → Call) (hcall : ∀ v, (call v).isPush = false) :
      ((paramInt32 true p).value.map call).toList.any Call.isPush = false ∧
        ((attempted (paramInt32 true p)).value.isSome = false →
          ((paramInt32 true p).value.map call).toList = []) := by
    cases hvalue : (paramInt32 true p).value with
    | none => simp
    | some v => simp [attempted,hvalue,hcall]
  cases s with
  | ese => exact hmask Call.ese fun _ => rfl
  | sre => exact hmask Call.sre fun _ => rfl
  | _ => exact ⟨rfl,fun _ => rfl⟩

theorem Setter.proper : .errorPush noError ∉
    (s.pushes lay k p dev).map Call.errorPush ++ s.calls p := by
  rw [List.mem_append,not_or]
  constructor
  · simpa using (s.pushes_sound lay k p dev).2.1
  · intro hmem
    exact absurd rfl (List.any_eq_false.mp (s.calls_quiet lay k p dev).1 _ hmem)

def Setter.outcome : Outcome where
  calls := (s.pushes lay k p dev).map .errorPush ++ s.calls p
  ok := s.ok lay k p dev
  unread := (s.attempt p).rest.data ≠ []
  proper := s.proper lay k p dev

/-- The one thing that a client is told about a command. -/
def Setter.complaint : Option ErrorCode :=
  if s.ok lay k p dev then
    if (s.attempt p).rest.data = [] then none else some parameterNotAllowed
  else some ((s.pushes lay k p dev).headD executionError)

def called (c : Context) : Context :=
  { c with cmdError := false, out := { c.out.writeSemicolon with count := 0 } }

theorem Setter.processCommand_outcome (c : Context) :
    let done := Runs.run Call.step (called c) (s.calls p)
    processCommand (s.outcome lay k p dev) c =
      match s.complaint lay k p dev with
      | none => (true,done)
      | some err => (false,errorPush err done) := by
  intro done
  obtain ⟨hone,hproper,hquiet⟩ := s.pushes_sound lay k p dev
  obtain ⟨hpush,hcalls⟩ := s.calls_quiet lay k p dev
  unfold Setter.complaint
  cases hok : s.ok lay k p dev with
  | false =>
    have hnone := hcalls hok
    rcases hes : s.pushes lay k p dev with _ | ⟨err,errs⟩
    · simp [processCommand,Setter.outcome,called,done,hok,hnone,hes,Runs.run,errorPush_cmdError]
    · obtain rfl : errs = [] := by
        rw [hes,List.length_cons] at hone
        exact List.length_eq_zero_iff.mp (by omega)
      simp [processCommand,Setter.outcome,called,done,hok,hnone,hes,Runs.run,Call.step,
        errorPush_cmdError]
  | true =>
    have hnone := hquiet hok
    have hclean : done.cmdError = false := by
      have hrun := (calls_run (s.proper lay k p dev) (called c)).1
      rw [hnone,List.map_nil,List.nil_append,hpush] at hrun
      exact hrun
    simp only [done,called] at hclean ⊢
    by_cases hrest : (s.attempt p).rest.data = []
    · simp [processCommand,Setter.outcome,hok,hnone,hrest,hclean]
    · simp [processCommand,Setter.outcome,hok,hnone,hrest,hclean]

end Callbacks

/-- A unit of a packet that is a set command: its header, completed, and its parameters. -/
structure Request where
  setter : Setter
  header : List Char
  params : Params
  spelled : Spells setter.pattern header

section Requests
variable (lay : Layout) (k : Conversions)

/-- What becomes of the device is decided by the command that the header is found as. -/
def Request.perform (dev : Device) (r : Request) : Device :=
  match Scpi.findCommandHeader r.header with
  | none => dev
  | some f => (f (programDataOf r.params)).perform lay k dev

theorem Request.perform_eq (dev : Device) (r : Request) : r.perform lay k dev =
    match r.setter.command (programDataOf r.params) with
    | none => dev
    | some c => c.step lay k dev := by
  rw [Request.perform,findCommandHeader_spelled r.setter.entry_known r.spelled]
  simp only [Setter.entry]
  cases r.setter.command (programDataOf r.params) <;> rfl

def Request.ok (dev : Device) (r : Request) : Bool := r.setter.ok lay k r.params dev

def turns (dev : Device) : List Request → List Turn
  | [] => []
  | r :: rs => .command (r.setter.outcome lay k r.params dev) :: turns (r.perform lay k dev) rs

def complaints (dev : Device) : List Request → List ErrorCode
  | [] => []
  | r :: rs => (r.setter.complaint lay k r.params dev).toList ++ complaints (r.perform lay k dev) rs

def accepted (dev : Device) : List Request → List Request
  | [] => []
  | r :: rs => (if r.ok lay k dev then [r] else []) ++ accepted (r.perform lay k dev) rs

def maskOf (name : RegName) : Call → Option RegVal
  | .ese value => if name = .ese then some (value.setWidth 16) else none
  | .sre value => if name = .sre then some (value.setWidth 16) else none
  | _ => none

/-- The same device but for the list of errors. -/
def Same (dev dev' : Device) : Prop := dev' = { dev with errors := dev'.errors }

end Requests

section Devices
variable {lay : Layout} {k : Conversions} {dev dev' : Device}

theorem Same.trans {dev'' : Device} (h : Same dev dev') (h' : Same dev' dev'') : Same dev dev'' := by
  rw [Same,h',h]

theorem Same.processCommand (h : Same dev dev') (c : Commands.Cmd) :
    Same (Scpi.processCommand lay dev c) (Scpi.processCommand lay dev' c) := by
  rw [h]
  simp only [Same,Scpi.processCommand]
  split <;> rfl

theorem Same.commands (h : Same dev dev') (cs : List Commands.Cmd) :
    Same (cs.foldl (Scpi.processCommand lay) dev) (cs.foldl (Scpi.processCommand lay) dev') := by
  induction cs generalizing dev dev' with
  | nil => exact h
  | cons c cs ih => exact ih (h.processCommand c)

theorem Same.step (h : Same dev dev') (c : SetCommand) :
    Same (c.step lay k dev) (c.step lay k dev') := by
  cases c with
  | callback cb =>
    have hparallel : dev'.parallel = dev.parallel := by rw [h]
    simp only [SetCommand.step,Scpi.Callback.run,hparallel]
    split
    · rw [h]
      rfl
    · exact h.commands _
  | parallelData data =>
    rw [h]
    simp only [Same,SetCommand.step,Scpi.scpiCallbackParallelData]
    split <;> rfl
  | parallelNcycles value =>
    rw [h]
    cases value <;> rfl
  | sequenceNcycles value =>
    rw [h]
    simp only [Same,SetCommand.step,Scpi.scpiCallbackSequenceNcycles]
    split <;> rfl
  | mode value =>
    rw [h]
    simp only [Same,SetCommand.step,Scpi.scpiCallbackMode]
    split <;> rfl

theorem Same.perform (h : Same dev dev') (r : Request) :
    Same (r.perform lay k dev) (r.perform lay k dev') := by
  rw [r.perform_eq,r.perform_eq]
  split
  · exact h
  · exact h.step _

theorem Same.run (h : Same dev dev') (rs : List Request) :
    Same (Runs.run (Request.perform lay k) dev rs) (Runs.run (Request.perform lay k) dev' rs) := by
  induction rs generalizing dev dev' with
  | nil => exact h
  | cons r rs ih => exact ih (h.perform r)

theorem same_refused {r : Request} (h : r.ok lay k dev = false) : Same (r.perform lay k dev) dev := by
  rw [r.perform_eq]
  unfold Request.ok Setter.ok at h
  cases hc : r.setter.command (programDataOf r.params) with
  | none => rfl
  | some c =>
    simp only [hc,decide_eq_false_iff_not] at h
    rcases run_cases lay k dev c with ⟨hok,-⟩ | ⟨e,herr⟩
    · exact absurd hok h
    · change Same (c.step lay k dev) dev
      rw [← run_step,herr]
      rfl

theorem same_accepted (rs : List Request) (dev : Device) :
    Same (Runs.run (Request.perform lay k) dev rs)
      (Runs.run (Request.perform lay k) dev (accepted lay k dev rs)) := by
  induction rs generalizing dev with
  | nil => rfl
  | cons r rs ih =>
    have hfirst := ih (r.perform lay k dev)
    rw [accepted]
    cases hok : r.ok lay k dev with
    | true => exact hfirst
    | false => exact hfirst.trans ((same_refused hok).run _)

end Devices

section Contexts
variable (lay : Layout) (k : Conversions)

theorem errorPush_registers (err : ErrorCode) (c : Context) {name : RegName} (hstb : name ≠ .stb)
    (hesr : name ≠ .esr) : (errorPush err c).registers name = c.registers name := by
  have hevents : ∀ (rows : List ErrorReg) (r : Registers),
      rows.foldl (errorEvent err) r name = r name := by
    intro rows
    induction rows with
    | nil => exact fun _ => rfl
    | cons e rows ih =>
      intro r
      rw [List.foldl_cons,ih,errorEvent]
      split
      · exact regSet_of_ne _ _ hstb hesr
      · rfl
  have hadd := (errorAddInternal_rest err c).1
  unfold errorPush
  cases hadded : (errorAddInternal err c).1 <;>
    simp [hadded,errorEmit,regSetBits,regSet_of_ne _ _ hstb hstb,hevents,hadd]

theorem Setter.calls_cases (s : Setter) (p : Params) : s.calls p = [] ∨
    ∃ value, s.calls p = [.ese value] ∨ s.calls p = [.sre value] := by
  cases s with
  | ese =>
    cases hvalue : (paramInt32 true p).value with
    | none => exact .inl (by simp [calls,hvalue])
    | some v => exact .inr ⟨v,.inl (by simp [calls,hvalue])⟩
  | sre =>
    cases hvalue : (paramInt32 true p).value with
    | none => exact .inl (by simp [calls,hvalue])
    | some v => exact .inr ⟨v,.inr (by simp [calls,hvalue])⟩
  | _ => exact .inl rfl

theorem Setter.calls_effect (s : Setter) (p : Params) (c : Context) :
    let done := Runs.run Call.step (called c) (s.calls p)
    done.errorQueue = c.errorQueue ∧ ∀ name, name = .ese ∨ name = .sre →
      done.registers name = ((s.calls p).filterMap (maskOf name)).getLastD (c.registers name) := by
  have hself (name : RegName) (h : name ≠ .stb) (val : RegVal) :
      regSet name val c.registers name = val := regSet_self _ _ h
  have hother (name m : RegName) (h : m ≠ .stb) (hne : m ≠ name) (val : RegVal) :
      regSet name val c.registers m = c.registers m := regSet_of_ne _ _ h hne
  rcases s.calls_cases p with h | ⟨value,h | h⟩ <;> rw [h]
  · exact ⟨rfl,fun _ _ => rfl⟩
  · refine ⟨rfl,?_⟩
    rintro name (rfl | rfl)
    · exact hself .ese (by decide) (value.setWidth 16)
    · exact hother .ese .sre (by decide) (by decide) (value.setWidth 16)
  · refine ⟨rfl,?_⟩
    rintro name (rfl | rfl)
    · exact hother .sre .ese (by decide) (by decide) (value.setWidth 16)
    · exact hself .sre (by decide) (value.setWidth 16)

structure Leaves (complaints : List ErrorCode) (calls : List Call) (p q : Bool × Context) : Prop where
  result : q.1 = (p.1 && complaints.isEmpty)
  errors : q.2.errorQueue.contents =
    complaints.foldl (RingBuffer.push errorQueueSize queueOverflow) p.2.errorQueue.contents
  masks : ∀ name, name = .ese ∨ name = .sre →
    q.2.registers name = (calls.filterMap (maskOf name)).getLastD (p.2.registers name)

theorem leaves_request (dev : Device) (r : Request) (p : Bool × Context) :
    Leaves (r.setter.complaint lay k r.params dev).toList (r.setter.calls r.params) p
      ((Turn.command (r.setter.outcome lay k r.params dev)).step p) := by
  obtain ⟨hqueue,hmasks⟩ := r.setter.calls_effect r.params p.2
  have hprocess := r.setter.processCommand_outcome lay k r.params dev p.2
  rw [Turn.step,hprocess]
  cases r.setter.complaint lay k r.params dev with
  | none => exact ⟨rfl,congrArg Fifo.contents hqueue,hmasks⟩
  | some err =>
    refine ⟨rfl,?_,fun name hname => ?_⟩
    · exact (contents_errorPush err _).trans (by rw [hqueue]; rfl)
    · have hne : name ≠ .stb ∧ name ≠ .esr := by
        rcases hname with rfl | rfl <;> decide
      exact (errorPush_registers err _ hne.1 hne.2).trans (hmasks name hname)

theorem Leaves.trans {es es' : List ErrorCode} {calls calls' : List Call} {p q r : Bool × Context}
    (h : Leaves es calls p q) (h' : Leaves es' calls' q r) :
    Leaves (es ++ es') (calls ++ calls') p r where
  result := by
    rw [h'.result,h.result,Bool.and_assoc]
    cases es <;> rfl
  errors := by rw [h'.errors,h.errors,List.foldl_append]
  masks := by
    intro name hname
    rw [h'.masks name hname,h.masks name hname,List.filterMap_append]
    cases hlast : calls'.filterMap (maskOf name) with
    | nil => simp
    | cons v vs => simp [List.getLastD_eq_getLast?,List.getLast?_append]

theorem leaves_turns (rs : List Request) (dev : Device) (p : Bool × Context) :
    Leaves (complaints lay k dev rs)
      ((accepted lay k dev rs).flatMap fun r => r.setter.calls r.params) p
      ((turns lay k dev rs).foldl Turn.step p) := by
  induction rs generalizing dev p with
  | nil => exact ⟨(Bool.and_true _).symm,rfl,fun _ _ => rfl⟩
  | cons r rs ih =>
    have hcalls : (if r.ok lay k dev then [r] else []).flatMap (fun r => r.setter.calls r.params) =
        r.setter.calls r.params := by
      cases hok : r.ok lay k dev with
      | true => simp
      | false => simp [(r.setter.calls_quiet lay k r.params dev).2 hok]
    have hboth := (leaves_request lay k dev r p).trans (ih (r.perform lay k dev) _)
    rw [complaints,accepted,List.flatMap_append,hcalls]
    exact hboth

/-- Of a packet of set commands each is complained about at most once, and SYSTem:ERRor gives
the complaints in the order of the units. A command that is refused, because of its parameter
or by its callback, changes nothing else: the device is, and the masks are, what the accepted
commands make of them. A command with more than one parameter is complained about and carried
out. -/
theorem set_commands_complain_once (rs : List Request) (dev : Device) (c : Context) :
    let p := scpiParse (turns lay k dev rs) c
    (p.1 = true ↔ complaints lay k dev rs = []) ∧
    p.2.errorQueue.contents = (complaints lay k dev rs).foldl
      (RingBuffer.push errorQueueSize queueOverflow) c.errorQueue.contents ∧
    (∀ name, name = .ese ∨ name = .sre → p.2.registers name =
      (((accepted lay k dev rs).flatMap fun r => r.setter.calls r.params).filterMap
        (maskOf name)).getLastD (c.registers name)) ∧
    Same (Runs.run (Request.perform lay k) dev rs)
      (Runs.run (Request.perform lay k) dev (accepted lay k dev rs)) := by
  intro p
  have hleaves := leaves_turns lay k rs dev (true,{ c with out := { c.out with count := 0 } })
  refine ⟨?_,hleaves.errors,hleaves.masks,same_accepted rs dev⟩
  have hresult : p.1 = (complaints lay k dev rs).isEmpty := hleaves.result
  rw [hresult,List.isEmpty_iff]

end Contexts

def Setter.request (s : Setter) (data : String)
    (h : Scpi.matchCommand s.pattern.toList s.pattern.toList = true) : Request :=
  ⟨s,s.pattern.toList,⟨Lexer.text data,0,[Lexer.newLine]⟩,
    (Scpi.entry_matches s.entry_known s.pattern.toList).mp h⟩

/-- `*ESE 5,6`, `MODE` without a mode, and `OUTput:FREQuency 1 s`. -/
def threeRequests : List Request :=
  [Setter.ese.request "5,6" (by decide +kernel),Setter.mode.request "" (by decide +kernel),
   (Setter.number .outputFrequency).request "1 s" (by decide +kernel)]

theorem three_complaints :
    let dev := Device.reset fun _ => 0
    let p := scpiParse (turns Layout.plain Conversions.plain dev threeRequests)
      (scpiInit (.replicate errorQueueSize 0))
    p.1 = false ∧ p.2.errorQueue.contents = [-108,-109,-131] ∧ p.2.registers .ese = 5 := by
  intro dev p
  obtain ⟨hresult,herrors,hmasks,-⟩ := set_commands_complain_once Layout.plain Conversions.plain
    threeRequests dev (scpiInit (.replicate errorQueueSize 0))
  have hcomplaints : complaints Layout.plain Conversions.plain dev threeRequests =
      [-108,-109,-131] := by decide +kernel
  rw [hcomplaints] at hresult herrors
  refine ⟨?_,herrors.trans (by decide),(hmasks .ese (.inl rfl)).trans (by decide +kernel)⟩
  exact Bool.eq_false_of_not_eq_true fun h => absurd (hresult.mp h) (by decide)

end Stm32Dds.Setters
