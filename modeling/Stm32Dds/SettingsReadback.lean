import Stm32Dds.ProgramMode

set_option autoImplicit false

namespace Stm32Dds.Scpi
open Bytes BitFields Ad9910 Commands

def RampMode.name : RampMode → String
  | .single => "SINGle"
  | .sawtoothDown => "DOWNSAWtooth"
  | .sawtoothUp => "UPSAWtooth"
  | .oscillating => "OSCillating"

def RampTarget.name : RampTarget → String
  | .off => "OFF"
  | .amplitude => "AMPLitude"
  | .frequency => "FREQuency"
  | .phase => "PHASe"

def ParallelMode.name : ParallelMode → String
  | .frequency => "FREQuency"
  | .amplitude => "AMPLitude"
  | .phase => "PHASe"
  | .polar => "POLar"

def rampModeChoices : List (String × BitVec 32) :=
  [RampMode.single,.sawtoothDown,.sawtoothUp,.oscillating].map fun m => (m.name,m.code)

def rampTargetChoices : List (String × BitVec 32) :=
  [RampTarget.off,.amplitude,.frequency,.phase].map fun t => (t.name,t.code)

def parallelTargetChoices : List (String × BitVec 32) :=
  [ParallelMode.frequency,.amplitude,.phase,.polar].map fun m => (m.name,m.code)

/-- SCPI_ChoiceToName; without a matching tag the name is not set. -/
def choiceToName (choices : List (String × BitVec 32)) (tag : BitVec 32) : Option String :=
  (choices.find? fun c => c.2 = tag).map Prod.fst

inductive Answer
  | name (text : Option String)
  | bool (value : Bool)
  | uint (value : BitVec 32)
  deriving DecidableEq, Repr

def level (high : Bool) : BitVec 32 := if high then 1 else 0

def fieldValue (f : RegisterBit) (dev : Device) : BitVec 32 := (getValue f dev.dds).setWidth 32

def scpiCallbackRampModeQ (dev : Device) : Answer :=
  let low := fieldValue Field.digitalRampNoDwellLow dev
  let high := fieldValue Field.digitalRampNoDwellHigh dev
  .name (choiceToName rampModeChoices (low ||| (high <<< 1)))

def scpiCallbackRampTargetQ (dev : Device) : Answer :=
  let enabled := fieldValue Field.digitalRampEnable dev
  let value := if enabled ≠ 0 then fieldValue Field.digitalRampDestination dev else RampTarget.off.code
  .name (choiceToName rampTargetChoices value)

def scpiPrintPin (p : GpioPin) (dev : Device) : Answer := .bool (gpioGet p dev.dds)

def scpiCallbackRampDirectionQ : Device → Answer := scpiPrintPin Pin.drctl

def scpiCallbackOutputStateQ : Device → Answer := scpiPrintPin Pin.rfSwitch

def scpiCallbackParallelTargetQ (dev : Device) : Answer :=
  .name (choiceToName parallelTargetChoices
    (level (gpioGet Pin.parallelF0 dev.dds) ||| (level (gpioGet Pin.parallelF1 dev.dds) <<< 1)))

def scpiCallbackParallelStateQ (dev : Device) : Answer :=
  .bool (fieldValue Field.parallelDataPortEnable dev ≠ 0)

def scpiCallbackParallelNcyclesQ (dev : Device) : Answer := .uint dev.parallel.repeats

def scpiCallbackSequenceNcyclesQ (dev : Device) : Answer := .uint dev.queue.repeatCount

inductive Setting
  | rampMode | rampTarget | rampDirection | outputState | parallelTarget | parallelState
  | parallelNcycles | sequenceNcycles
  deriving DecidableEq, Repr

def Setting.query : Setting → Device → Answer
  | .rampMode => scpiCallbackRampModeQ
  | .rampTarget => scpiCallbackRampTargetQ
  | .rampDirection => scpiCallbackRampDirectionQ
  | .outputState => scpiCallbackOutputStateQ
  | .parallelTarget => scpiCallbackParallelTargetQ
  | .parallelState => scpiCallbackParallelStateQ
  | .parallelNcycles => scpiCallbackParallelNcyclesQ
  | .sequenceNcycles => scpiCallbackSequenceNcyclesQ

/-- A set command with a parameter that is accepted. -/
inductive Assignment
  | rampMode (value : RampMode)
  | rampTarget (value : RampTarget)
  | rampDirection (value : Bool)
  | outputState (value : Bool)
  | parallelTarget (value : ParallelMode)
  | parallelState (value : Bool)
  | parallelNcycles (value : BitVec 32)
  | sequenceNcycles (value : BitVec 32)
  deriving DecidableEq, Repr

namespace Assignment

def setting : Assignment → Setting
  | .rampMode _ => .rampMode
  | .rampTarget _ => .rampTarget
  | .rampDirection _ => .rampDirection
  | .outputState _ => .outputState
  | .parallelTarget _ => .parallelTarget
  | .parallelState _ => .parallelState
  | .parallelNcycles _ => .parallelNcycles
  | .sequenceNcycles _ => .sequenceNcycles

def command : Assignment → SetCommand
  | .rampMode value => .callback (.rampMode (some value))
  | .rampTarget value => .callback (.rampTarget (some value))
  | .rampDirection value => .callback (.rampDirection (some value))
  | .outputState value => .callback (.outputState (some value))
  | .parallelTarget value => .callback (.parallelTarget (some value))
  | .parallelState value => .callback (.parallelState (some value))
  | .parallelNcycles value => .parallelNcycles (some value)
  | .sequenceNcycles value => .sequenceNcycles (some (.plain value.toNat .none))

/-- What the query of the setting should report. -/
def answer : Assignment → Answer
  | .rampMode value => .name (some value.name)
  | .rampTarget value => .name (some value.name)
  | .rampDirection value | .outputState value | .parallelState value => .bool value
  | .parallelTarget value => .name (some value.name)
  | .parallelNcycles value | .sequenceNcycles value => .uint value

/-- What it does report: the high bit of the ramp mode is cut off by its field, and
every PARallel:STATe starts the port. -/
def echo : Assignment → Answer
  | .rampMode .sawtoothUp => .name (some RampMode.single.name)
  | .rampMode .oscillating => .name (some RampMode.sawtoothDown.name)
  | .parallelState _ => .bool true
  | a => a.answer

end Assignment

/-- The pointers in the register commands point at the descriptors they were made from. -/
def Layout.Resolves (lay : Layout) : Prop :=
  ∀ f ∈ [Field.digitalRampDestination,Field.digitalRampEnable,Field.digitalRampNoDwellHigh,
    Field.digitalRampNoDwellLow], lay.env.field (lay.fieldAddr f) = f

section Effects
variable (s : Dds)

@[simp] theorem getValue_updateReg (f : RegisterBit) (r : Reg) : getValue f (updateReg r s) = getValue f s := rfl
@[simp] theorem getValue_gpioSet (f : RegisterBit) (p : GpioPin) (b : Bool) :
    getValue f (gpioSet p b s) = getValue f s := rfl
@[simp] theorem pins_setValue (f : RegisterBit) (value : BitVec 64) : (setValue f value s).pins = s.pins := rfl
@[simp] theorem pins_updateReg (r : Reg) : (updateReg r s).pins = s.pins := rfl
@[simp] theorem pins_gpioSet (p : GpioPin) (b : Bool) :
    (gpioSet p b s).pins = Function.update s.pins p b := rfl

theorem executeParallel_kept (data : Nat → BitVec 16) (len rep : BitVec 32) (flag : Nat → Bool) :
    (executeParallel data len rep flag s).regs = (enableParallel 1 s).regs ∧
      (executeParallel data len rep flag s).pins = (enableParallel 1 s).pins := by
  have hloop : ∀ (is : List Nat) (s : Dds),
      (is.foldl (fun s i => if flag i then setParallel (data (i % len.toNat)) s else s) s).regs = s.regs ∧
      (is.foldl (fun s i => if flag i then setParallel (data (i % len.toNat)) s else s) s).pins = s.pins := by
    intro is
    induction is with
    | nil => exact fun s => ⟨rfl,rfl⟩
    | cons i is ih =>
      intro s
      rw [List.foldl_cons]
      cases flag i with
      | false => exact ih s
      | true => exact ih (setParallel (data (i % len.toNat)) s)
  exact hloop _ _

theorem getValue_executeParallel (f : RegisterBit) (data : Nat → BitVec 16) (len rep : BitVec 32)
    (flag : Nat → Bool) :
    getValue f (executeParallel data len rep flag s) = getValue f (enableParallel 1 s) := by
  rw [getValue,getValue,(executeParallel_kept s data len rep flag).1]

theorem pins_executeParallel (data : Nat → BitVec 16) (len rep : BitVec 32) (flag : Nat → Bool) :
    (executeParallel data len rep flag s).pins = (enableParallel 1 s).pins :=
  (executeParallel_kept s data len rep flag).2

end Effects

section Step
variable {lay : Layout} {k : Conversions} {dev : Device}

theorem foldl_processCommand_normal (lay : Layout) (cs : List Cmd) (dev : Device)
    (h : dev.mode = .normal) :
    cs.foldl (processCommand lay) dev =
      { dev with dds := cs.foldl (fun s c => c.execute (lay.envOf dev.parallel) s) dev.dds } := by
  induction cs generalizing dev with
  | nil => rfl
  | cons c cs ih =>
    have hstep : processCommand lay dev c =
        { dev with dds := c.execute (lay.envOf dev.parallel) dev.dds } := by
      simp [processCommand,h]
    rw [List.foldl_cons,hstep]
    exact ih _ h

def Assignment.step (lay : Layout) (k : Conversions) (dev : Device) (a : Assignment) : Device :=
  a.command.step lay k dev

theorem callback_step (h : dev.mode = .normal) {cb : Callback} {cs : List Cmd}
    (hcs : cb.commands lay k dev.parallel = .ok cs) :
    (SetCommand.callback cb).step lay k dev =
      { dev with dds := cs.foldl (fun s c => c.execute (lay.envOf dev.parallel) s) dev.dds } := by
  simp only [SetCommand.step,Callback.run,hcs]
  exact foldl_processCommand_normal lay cs dev h

theorem execute_registerCommand {f : RegisterBit} (hf : lay.env.field (lay.fieldAddr f) = f)
    (p : Parallel) (value : BitVec 32) (s : Dds) :
    (registerCommand lay f value).execute (lay.envOf p) s =
      updateReg f.reg (setValue f (value.setWidth 64) s) := by
  simp [registerCommand,Cmd.execute,Layout.envOf,hf,executeCommandRegister,updateMatchingReg]

end Step

structure Panel where
  low : BitVec 32
  high : BitVec 32
  enabled : BitVec 32
  destination : BitVec 32
  port : BitVec 32
  direction : Bool
  output : Bool
  f0 : Bool
  f1 : Bool
  repeats : BitVec 32
  repeatCount : BitVec 32

def Device.panel (dev : Device) : Panel where
  low := fieldValue Field.digitalRampNoDwellLow dev
  high := fieldValue Field.digitalRampNoDwellHigh dev
  enabled := fieldValue Field.digitalRampEnable dev
  destination := fieldValue Field.digitalRampDestination dev
  port := fieldValue Field.parallelDataPortEnable dev
  direction := gpioGet Pin.drctl dev.dds
  output := gpioGet Pin.rfSwitch dev.dds
  f0 := gpioGet Pin.parallelF0 dev.dds
  f1 := gpioGet Pin.parallelF1 dev.dds
  repeats := dev.parallel.repeats
  repeatCount := dev.queue.repeatCount

def Setting.display (p : Panel) : Setting → Answer
  | .rampMode => .name (choiceToName rampModeChoices (p.low ||| (p.high <<< 1)))
  | .rampTarget => .name (choiceToName rampTargetChoices
      (if p.enabled ≠ 0 then p.destination else RampTarget.off.code))
  | .rampDirection => .bool p.direction
  | .outputState => .bool p.output
  | .parallelTarget => .name (choiceToName parallelTargetChoices
      (level p.f0 ||| (level p.f1 <<< 1)))
  | .parallelState => .bool (p.port ≠ 0)
  | .parallelNcycles => .uint p.repeats
  | .sequenceNcycles => .uint p.repeatCount

theorem query_eq_display (s : Setting) (dev : Device) : s.query dev = s.display dev.panel := by
  cases s <;> rfl

def Assignment.apply (p : Panel) : Assignment → Panel
  | .rampMode value => { p with low := value.code &&& 1, high := 0 }
  | .rampTarget .off => { p with enabled := 0 }
  | .rampTarget value => { p with enabled := 1, destination := value.code }
  | .rampDirection value => { p with direction := value }
  | .outputState value => { p with output := value }
  | .parallelTarget value => { p with
      f0 := truth (value.code &&& 1), f1 := truth (if value.code &&& 2 ≠ 0 then 1 else 0) }
  | .parallelState _ => { p with port := 1 }
  | .parallelNcycles value => { p with repeats := value }
  | .sequenceNcycles value => { p with repeatCount := value }

theorem display_apply_same (a : Assignment) (p : Panel) : a.setting.display (a.apply p) = a.echo := by
  cases a with
  | rampMode value => cases value <;> simp only [Assignment.setting,Assignment.apply,Setting.display] <;> decide
  | rampTarget value => cases value <;> rfl
  | parallelTarget value =>
    cases value <;> simp only [Assignment.setting,Assignment.apply,Setting.display] <;> decide
  | _ => rfl

theorem display_apply_other (a : Assignment) (p : Panel) (s : Setting) (h : a.setting ≠ s) :
    s.display (a.apply p) = s.display p := by
  cases a with
  | rampTarget value => cases value <;> cases s <;> first | rfl | exact absurd rfl h
  | _ => cases s <;> first | rfl | exact absurd rfl h

section Refines
variable {lay : Layout} {k : Conversions} {dev : Device}

theorem panel_rampMode (hlay : lay.Resolves) (h : dev.mode = .normal) (value : RampMode) :
    (Assignment.step lay k dev (.rampMode value)).panel =
      { dev.panel with low := value.code &&& 1, high := 0 } := by
  have hhigh := hlay Field.digitalRampNoDwellHigh (by simp)
  have hlow := hlay Field.digitalRampNoDwellLow (by simp)
  rw [Assignment.step,Assignment.command,callback_step h rfl]
  simp only [List.foldl_cons,List.foldl_nil,execute_registerCommand hhigh,execute_registerCommand hlow]
  simp (disch := decide) only [Device.panel,fieldValue,gpioGet,getValue_updateReg,getValue_setValue,
    getValue_setValue_apart,pins_updateReg,pins_setValue,Panel.mk.injEq,and_true]
  cases value <;> decide

theorem panel_rampTarget_off (hlay : lay.Resolves) (h : dev.mode = .normal) :
    (Assignment.step lay k dev (.rampTarget .off)).panel = { dev.panel with enabled := 0 } := by
  have henable := hlay Field.digitalRampEnable (by simp)
  rw [Assignment.step,Assignment.command,callback_step h rfl]
  simp only [List.foldl_cons,List.foldl_nil,execute_registerCommand henable]
  simp (disch := decide) only [Device.panel,fieldValue,gpioGet,getValue_updateReg,getValue_setValue,
    getValue_setValue_apart,pins_updateReg,pins_setValue,Panel.mk.injEq,and_true]
  decide

theorem panel_rampTarget_on (hlay : lay.Resolves) (h : dev.mode = .normal) {value : RampTarget}
    (hvalue : value ≠ .off) :
    (Assignment.step lay k dev (.rampTarget value)).panel =
      { dev.panel with enabled := 1, destination := value.code } := by
  have hdest := hlay Field.digitalRampDestination (by simp)
  have henable := hlay Field.digitalRampEnable (by simp)
  have hcs : (Callback.rampTarget (some value)).commands lay k dev.parallel =
      .ok [registerCommand lay Field.digitalRampDestination value.code,
        registerCommand lay Field.digitalRampEnable 1] := by
    cases value with
    | off => exact absurd rfl hvalue
    | _ => rfl
  rw [Assignment.step,Assignment.command,callback_step h hcs]
  simp only [List.foldl_cons,List.foldl_nil,execute_registerCommand henable,
    execute_registerCommand hdest]
  simp (disch := decide) only [Device.panel,fieldValue,gpioGet,getValue_updateReg,getValue_setValue,
    getValue_setValue_apart,pins_updateReg,pins_setValue,Panel.mk.injEq,and_true,true_and]
  cases value with
  | off => exact absurd rfl hvalue
  | _ => decide

theorem panel_rampDirection (h : dev.mode = .normal) (value : Bool) :
    (Assignment.step lay k dev (.rampDirection value)).panel = { dev.panel with direction := value } := by
  rw [Assignment.step,Assignment.command,callback_step h rfl]
  simp only [List.foldl_cons,List.foldl_nil,pinCommand,Cmd.execute,executeCommandPin]
  simp (disch := decide) only [Device.panel,fieldValue,gpioGet,getValue_gpioSet,pins_gpioSet,
    Function.update_self,Function.update_of_ne,Panel.mk.injEq,and_true,true_and]
  cases value <;> decide

theorem panel_outputState (h : dev.mode = .normal) (value : Bool) :
    (Assignment.step lay k dev (.outputState value)).panel = { dev.panel with output := value } := by
  rw [Assignment.step,Assignment.command,callback_step h rfl]
  simp only [List.foldl_cons,List.foldl_nil,pinCommand,Cmd.execute,executeCommandPin]
  simp (disch := decide) only [Device.panel,fieldValue,gpioGet,getValue_gpioSet,pins_gpioSet,
    Function.update_self,Function.update_of_ne,Panel.mk.injEq,and_true,true_and]
  cases value <;> decide

theorem panel_parallelTarget (h : dev.mode = .normal) (value : ParallelMode) :
    (Assignment.step lay k dev (.parallelTarget value)).panel = { dev.panel with
      f0 := truth (value.code &&& 1), f1 := truth (if value.code &&& 2 ≠ 0 then 1 else 0) } := by
  rw [Assignment.step,Assignment.command,callback_step h rfl]
  simp only [List.foldl_cons,List.foldl_nil,pinCommand,Cmd.execute,executeCommandPin]
  simp (disch := decide) only [Device.panel,fieldValue,gpioGet,getValue_gpioSet,pins_gpioSet,
    Function.update_self,Function.update_of_ne]

theorem panel_parallelState (h : dev.mode = .normal) (value : Bool) :
    (Assignment.step lay k dev (.parallelState value)).panel = { dev.panel with port := 1 } := by
  rw [Assignment.step,Assignment.command,callback_step h rfl]
  simp only [List.foldl_cons,List.foldl_nil,Cmd.execute,executeCommandParallel]
  simp (disch := decide) only [Device.panel,fieldValue,gpioGet,getValue_executeParallel,
    pins_executeParallel,enableParallel,updateMatchingReg,getValue_gpioSet,pins_gpioSet,
    getValue_updateReg,getValue_setValue,getValue_setValue_apart,pins_updateReg,pins_setValue,
    Function.update_of_ne,Panel.mk.injEq,and_true,true_and]
  decide

/-- On the panel every set command is a plain assignment. -/
theorem panel_step (hlay : lay.Resolves) (hk : ∀ n : BitVec 32, k.toUInt32 n.toNat = n)
    (h : dev.mode = .normal) (a : Assignment) : (a.step lay k dev).panel = a.apply dev.panel := by
  cases a with
  | rampMode value => exact panel_rampMode hlay h value
  | rampTarget value =>
    cases value with
    | off => exact panel_rampTarget_off hlay h
    | _ => exact panel_rampTarget_on hlay h (by decide)
  | rampDirection value => exact panel_rampDirection h value
  | outputState value => exact panel_outputState h value
  | parallelTarget value => exact panel_parallelTarget h value
  | parallelState value => exact panel_parallelState h value
  | parallelNcycles value => rfl
  | sequenceNcycles value =>
    simp only [Assignment.step,Assignment.command,SetCommand.step,scpiCallbackSequenceNcycles,hk]
    rfl

theorem mode_step (h : dev.mode = .normal) (a : Assignment) : (a.step lay k dev).mode = .normal := by
  cases a with
  | parallelNcycles value => exact h
  | sequenceNcycles value => exact h
  | rampTarget value =>
    cases value <;> rw [Assignment.step,Assignment.command,callback_step h rfl] <;> exact h
  | _ =>
    rw [Assignment.step,Assignment.command,callback_step h rfl]
    exact h

theorem panel_run (hlay : lay.Resolves) (hk : ∀ n : BitVec 32, k.toUInt32 n.toNat = n)
    (h : dev.mode = .normal) (as : List Assignment) :
    (Runs.run (Assignment.step lay k) dev as).panel = as.foldl Assignment.apply dev.panel := by
  induction as generalizing dev with
  | nil => rfl
  | cons a as ih =>
    rw [Runs.run,ih (mode_step h a),panel_step hlay hk h,List.foldl_cons]

end Refines

def lastFor (s : Setting) (as : List Assignment) : Option Assignment :=
  (as.filter fun a => a.setting = s).getLast?

theorem display_foldl (s : Setting) (p : Panel) (as : List Assignment) (a : Assignment)
    (h : lastFor s as = some a) : s.display (as.foldl Assignment.apply p) = a.echo := by
  induction as using List.reverseRec with
  | nil => simp [lastFor] at h
  | append_singleton as b ih =>
    rw [List.foldl_append,List.foldl_cons,List.foldl_nil]
    by_cases hb : b.setting = s
    · have hba : b = a := by simpa [lastFor,hb] using h
      subst hba
      subst hb
      exact display_apply_same b _
    · rw [display_apply_other b _ s hb]
      exact ih (by simpa [lastFor,hb] using h)

def ReadsBack (lay : Layout) (k : Conversions) (dev : Device) (as : List Assignment) : Prop :=
  ∀ s a, lastFor s as = some a → s.query (Runs.run (Assignment.step lay k) dev as) = a.answer

def Assignment.Faithful : Assignment → Prop
  | .rampMode value => value = .single ∨ value = .sawtoothDown
  | .parallelState value => value = true
  | _ => True

theorem echo_eq_answer_iff (a : Assignment) : a.echo = a.answer ↔ a.Faithful := by
  cases a with
  | rampMode value => cases value <;> simp [Assignment.echo,Assignment.answer,Assignment.Faithful,RampMode.name]
  | parallelState value =>
    cases value <;> simp [Assignment.echo,Assignment.answer,Assignment.Faithful]
  | _ => simp [Assignment.echo,Assignment.Faithful]

theorem settings_read_back_iff (lay : Layout) (hlay : lay.Resolves) (k : Conversions)
    (hk : ∀ n : BitVec 32, k.toUInt32 n.toNat = n) (dev : Device) (h : dev.mode = .normal)
    (as : List Assignment) :
    ReadsBack lay k dev as ↔ ∀ s a, lastFor s as = some a → a.Faithful := by
  have hquery : ∀ s a, lastFor s as = some a →
      s.query (Runs.run (Assignment.step lay k) dev as) = a.echo := by
    intro s a hlast
    rw [query_eq_display,panel_run hlay hk h]
    exact display_foldl s _ as a hlast
  constructor
  · intro hback s a hlast
    exact (echo_eq_answer_iff a).mp ((hquery s a hlast).symm.trans (hback s a hlast))
  · intro hfaithful s a hlast
    exact (hquery s a hlast).trans ((echo_eq_answer_iff a).mpr (hfaithful s a hlast))

def Layout.byOffset : Layout where
  env := ⟨fun a =>
    if a = 20 then Field.digitalRampDestination
    else if a = 19 then Field.digitalRampEnable
    else if a = 18 then Field.digitalRampNoDwellHigh
    else Field.digitalRampNoDwellLow,fun _ _ => 0,fun _ => true⟩
  fieldAddr := fun f => BitVec.ofNat 32 f.offset
  bufferAddr := 0x20001000

theorem byOffset_resolves : Layout.byOffset.Resolves := by
  intro f hf
  simp only [List.mem_cons,List.not_mem_nil,or_false] at hf
  obtain rfl | rfl | rfl | rfl := hf <;> rfl

theorem plain_toUInt32 (n : BitVec 32) : Conversions.plain.toUInt32 n.toNat = n := by
  have hfloor : ((n.toNat : ℚ)).floor = n.toNat := Rat.floor_intCast n.toNat
  simp only [Conversions.plain,hfloor]
  rw [BitVec.ofInt_natCast,BitVec.ofNat_toNat,BitVec.setWidth_eq]

theorem settings_read_back_mixed :
    ReadsBack Layout.byOffset Conversions.plain (Device.reset fun _ => 0)
      [.rampMode .sawtoothDown,.rampTarget .amplitude,.outputState true,.sequenceNcycles 7,
        .rampTarget .off,.parallelState true,.parallelTarget .polar] := by
  apply (settings_read_back_iff _ byOffset_resolves _ plain_toUInt32 _ rfl _).mpr
  intro s a hlast
  have hmem := List.mem_of_mem_filter (List.mem_of_getLast? hlast)
  simp only [List.mem_cons,List.not_mem_nil,or_false] at hmem
  obtain rfl | rfl | rfl | rfl | rfl | rfl | rfl := hmem <;> simp [Assignment.Faithful]

/-- An oscillating ramp reads back as a falling sawtooth, and a port that was
switched off as on. -/
theorem oscillating_and_off_lost :
    let run := Runs.run (Assignment.step Layout.byOffset Conversions.plain) (Device.reset fun _ => 0)
    Setting.rampMode.query (run [.rampMode .oscillating]) = .name (some "DOWNSAWtooth") ∧
      Setting.parallelState.query (run [.parallelState false]) = .bool true ∧
      ¬ ReadsBack Layout.byOffset Conversions.plain (Device.reset fun _ => 0)
        [.rampMode .oscillating,.parallelState false] := by
  intro run
  have hpanel := fun as => @panel_run _ _ (Device.reset fun _ => 0) byOffset_resolves plain_toUInt32 rfl as
  refine ⟨?_,?_,?_⟩
  · rw [query_eq_display,hpanel]
    exact display_foldl .rampMode _ _ (.rampMode .oscillating) rfl
  · rw [query_eq_display,hpanel]
    exact display_foldl .parallelState _ _ (.parallelState false) rfl
  · intro hback
    have hmode := hback .rampMode (.rampMode .oscillating) rfl
    rw [query_eq_display,hpanel,display_foldl .rampMode _ _ (.rampMode .oscillating) rfl] at hmode
    revert hmode
    decide

end Stm32Dds.Scpi
