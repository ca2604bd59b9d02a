import Stm32Dds.QueuePlayback
import Stm32Dds.StartupStore
import Stm32Dds.ValueResend

set_option autoImplicit false

namespace Stm32Dds.Scpi
open Bytes Tagged BitFields Ad9910 Commands Startup

def Mode.name : Mode → String
  | .normal => "NORMal"
  | .program => "PROGram"
  | .execute => "EXECute"

def Mode.code : Mode → BitVec 32
  | .normal => 0
  | .program => 1
  | .execute => 2

def scpiModeChoices : List (String × BitVec 32) :=
  [Mode.normal,.program,.execute].map fun m => (m.name,m.code)

def scpiCallbackModeQ (dev : Device) : Answer :=
  .name (choiceToName scpiModeChoices dev.mode.code)

def commandFields : List RegisterBit :=
  [Field.profileFrequency,Field.profileAmplitude,Field.rampLowerLimit,Field.rampUpperLimit,
   Field.rampIncrementStep,Field.rampDecrementStep,Field.rampPositiveRate,Field.rampNegativeRate,
   Field.digitalRampNoDwellHigh,Field.digitalRampNoDwellLow,Field.digitalRampEnable,
   Field.digitalRampDestination]

def Layout.ResolvesAll (lay : Layout) : Prop :=
  ∀ f ∈ commandFields, lay.env.field (lay.fieldAddr f) = f

/-- A record that is in the queue because of a set callback. -/
inductive Issued (lay : Layout) (k : Conversions) : Rec → Prop
  | flush : Issued lay k spiRecord
  | command {cb : Callback} {p : Parallel} {cs : List Cmd} {c : Cmd}
      (h : cb.commands lay k p = .ok cs) (hc : c ∈ cs) : Issued lay k c.record

/-- What the device can be after ad9910_init has come to its last step, the startup command.
A queue that is played may be the one of SEQuence or the one saved in the EEPROM. -/
inductive Reachable (lay : Layout) (k : Conversions) : Device → Prop
  | init (mem : Memory) (chip : Chip) (pins : GpioPin → Bool) :
      Reachable lay k { Device.reset mem with dds := initOutputs (initUpload (Dds.boot chip pins)) }
  | set {dev : Device} (h : Reachable lay k dev) (c : SetCommand) : Reachable lay k (c.step lay k dev)
  | clear {dev : Device} (h : Reachable lay k dev) : Reachable lay k (scpiCallbackSequenceClear dev).2
  | play {dev : Device} {dds : Dds} (h : Reachable lay k dev) (q : RecordQueue)
      (hq : ∀ r ∈ q.records, Issued lay k r)
      (hdds : commandsExecute (lay.envOf dev.parallel) q.queue dev.dds = some dds) :
      Reachable lay k { dev with dds := dds }

/-- The destination is not 3, the only pattern without a name. -/
def DestinationNamed (s : Dds) : Prop := getValue Field.digitalRampDestination s ≠ 3

section Destination
variable {s : Dds}

theorem DestinationNamed.congr {s' : Dds} (h : DestinationNamed s) (hregs : s'.regs = s.regs) :
    DestinationNamed s' := by
  rw [DestinationNamed,getValue,hregs]
  exact h

theorem DestinationNamed.apart (h : DestinationNamed s) {f : RegisterBit}
    (hf : f.Apart Field.digitalRampDestination) (value : BitVec 64) :
    DestinationNamed (setValue f value s) := by
  rw [DestinationNamed,getValue_setValue_apart hf]
  exact h

theorem destinationNamed_setValue {value : BitVec 32} (h : value ∈ [0,1,2]) (s : Dds) :
    DestinationNamed (setValue Field.digitalRampDestination (value.setWidth 64) s) := by
  rw [DestinationNamed,getValue_setValue]
  simp only [List.mem_cons,List.not_mem_nil,or_false] at h
  obtain rfl | rfl | rfl := h <;> decide

theorem DestinationNamed.executeParallel (h : DestinationNamed s) (data : Nat → BitVec 16)
    (len rep : BitVec 32) (flag : Nat → Bool) :
    DestinationNamed (executeParallel data len rep flag s) := by
  rw [DestinationNamed,getValue_executeParallel]
  exact h.apart (f := Field.parallelDataPortEnable) (by decide) _

def Cmd.Names (env : Env) : Cmd → Prop
  | .register reg value => (env.field reg).Apart Field.digitalRampDestination ∨
      env.field reg = Field.digitalRampDestination ∧ value ∈ [0,1,2]
  | _ => True

theorem Cmd.Names.setValue {env : Env} {reg value : BitVec 32} (hc : Cmd.Names env (.register reg value))
    (h : DestinationNamed s) : DestinationNamed (setValue (env.field reg) (value.setWidth 64) s) := by
  obtain hapart | ⟨hfield,hvalue⟩ := hc
  · exact h.apart hapart _
  · rw [hfield]
    exact destinationNamed_setValue hvalue s

theorem Cmd.Names.execute {env : Env} {c : Cmd} (hc : Cmd.Names env c) (h : DestinationNamed s) :
    DestinationNamed (c.execute env s) := by
  cases c with
  | register reg value => exact (hc.setValue h).congr rfl
  | parallel data length repeats => exact h.executeParallel _ _ _ _
  | _ => exact h.congr rfl

theorem Cmd.Names.executeCommand {env : Env} {c : Cmd} (hc : Cmd.Names env c)
    (h : DestinationNamed s) {s' : Dds} (hs' : executeCommand env c.record s = some s') :
    DestinationNamed s' := by
  cases hreg : c.isRegister with
  | false =>
    rw [executeCommand_record env c hreg] at hs'
    cases hs'
    exact hc.execute h
  | true =>
    obtain ⟨reg,value,rfl⟩ := c.isRegister_iff.mp hreg
    rw [executeCommand_register] at hs'
    cases hs'
    exact (hc.setValue h).congr rfl

end Destination

section Commands
variable {lay : Layout} {k : Conversions}

theorem registerCommand_apart (hlay : lay.ResolvesAll) {f : RegisterBit} (hf : f ∈ commandFields)
    (hapart : f.Apart Field.digitalRampDestination) (value : BitVec 32) :
    Cmd.Names lay.env (registerCommand lay f value) := by
  refine .inl ?_
  rw [hlay f hf]
  exact hapart

theorem scpiParseRegisterCommand_names (hlay : lay.ResolvesAll) (s : RegisterSetting)
    {param : Except ScpiError (BitVec 32)} {cs : List Cmd}
    (h : scpiParseRegisterCommand lay s.field param = .ok cs) : ∀ c ∈ cs, Cmd.Names lay.env c := by
  cases param with
  | error e => cases h
  | ok w =>
    cases h
    exact List.forall_mem_singleton.mpr (registerCommand_apart hlay
      (by cases s <;> simp [RegisterSetting.field,commandFields]) (by cases s <;> decide) w)

theorem scpiParsePinCommand_names {p : GpioPin} {v : Option Bool} {cs : List Cmd}
    (h : scpiParsePinCommand p v = .ok cs) : ∀ c ∈ cs, Cmd.Names lay.env c := by
  cases v with
  | none => cases h
  | some value =>
    cases h
    exact List.forall_mem_singleton.mpr trivial

theorem scpiCallbackWait_names {v : Option WaitNumber} {cs : List Cmd}
    (h : scpiCallbackWait k v = .ok cs) : ∀ c ∈ cs, Cmd.Names lay.env c := by
  cases v with
  | none => cases h
  | some n =>
    cases n with
    | plain value unit => cases unit <;> cases h <;> exact List.forall_mem_singleton.mpr trivial
    | _ =>
      cases h
      exact List.forall_mem_singleton.mpr trivial

theorem scpiCallbackRampTarget_names (hlay : lay.ResolvesAll) {t : RampTarget} (ht : t ≠ .off) :
    ∀ c ∈ [registerCommand lay Field.digitalRampDestination t.code,
      registerCommand lay Field.digitalRampEnable 1], Cmd.Names lay.env c := by
  refine List.forall_mem_cons.mpr ⟨.inr ⟨hlay _ (by simp [commandFields]),?_⟩,
    List.forall_mem_singleton.mpr ?_⟩
  · cases t with
    | off => exact absurd rfl ht
    | _ => decide
  · exact registerCommand_apart hlay (by simp [commandFields]) (by decide) 1

theorem commands_name (hlay : lay.ResolvesAll) {cb : Callback} {p : Parallel} {cs : List Cmd}
    (h : cb.commands lay k p = .ok cs) : ∀ c ∈ cs, Cmd.Names lay.env c := by
  cases cb with
  | outputState v | rampDirection v => exact scpiParsePinCommand_names h
  | outputFrequency v => exact scpiParseRegisterCommand_names hlay .outputFrequency h
  | outputAmplitude v => exact scpiParseRegisterCommand_names hlay .outputAmplitude h
  | rampBoundaryMinimum v => exact scpiParseRegisterCommand_names hlay .rampBoundaryMinimum h
  | rampBoundaryMaximum v => exact scpiParseRegisterCommand_names hlay .rampBoundaryMaximum h
  | rampStepUp v => exact scpiParseRegisterCommand_names hlay .rampStepUp h
  | rampStepDown v => exact scpiParseRegisterCommand_names hlay .rampStepDown h
  | rampRateUp v => exact scpiParseRegisterCommand_names hlay .rampRateUp h
  | rampRateDown v => exact scpiParseRegisterCommand_names hlay .rampRateDown h
  | rampMode v =>
    cases v with
    | none => cases h
    | some m =>
      cases h
      refine List.forall_mem_cons.mpr ⟨?_,List.forall_mem_singleton.mpr ?_⟩
      · exact registerCommand_apart hlay (by simp [commandFields]) (by decide) _
      · exact registerCommand_apart hlay (by simp [commandFields]) (by decide) _
  | rampTarget v =>
    cases v with
    | none => cases h
    | some t =>
      cases t with
      | off =>
        cases h
        exact List.forall_mem_singleton.mpr
          (registerCommand_apart hlay (by simp [commandFields]) (by decide) 0)
      | _ =>
        cases h
        exact scpiCallbackRampTarget_names hlay (by decide)
  | parallelFrequency v => cases v <;> cases h
  | parallelTarget v =>
    cases v with
    | none => cases h
    | some m =>
      cases h
      exact List.forall_mem_cons.mpr ⟨trivial,List.forall_mem_singleton.mpr trivial⟩
  | parallelState v =>
    cases v with
    | none => cases h
    | some on =>
      cases h
      exact List.forall_mem_singleton.mpr trivial
  | wait v | triggerWait v => exact scpiCallbackWait_names h
  | triggerSend =>
    cases h
    exact List.forall_mem_singleton.mpr trivial

end Commands

section Steps
variable {lay : Layout} {k : Conversions} {dev : Device}

theorem processCommand_named (h : DestinationNamed dev.dds) {c : Cmd} (hc : Cmd.Names lay.env c) :
    DestinationNamed (processCommand lay dev c).dds := by
  have henv : Cmd.Names (lay.envOf dev.parallel) c := hc
  rw [processCommand]
  split
  · exact h
  · exact henv.execute h

theorem run_named (hlay : lay.ResolvesAll) (h : DestinationNamed dev.dds) (cb : Callback) :
    DestinationNamed (cb.run lay k dev).2.dds := by
  rw [Callback.run]
  split
  · exact h
  · rename_i cs hcs
    have hnames := commands_name hlay hcs
    clear hcs
    induction cs generalizing dev with
    | nil => exact h
    | cons c cs ih =>
      exact ih (processCommand_named h (hnames c (by simp))) fun c' hc' => hnames c' (by simp [hc'])

theorem step_named (hlay : lay.ResolvesAll) (h : DestinationNamed dev.dds) (c : SetCommand) :
    DestinationNamed (c.step lay k dev).dds := by
  cases c with
  | callback cb => exact run_named hlay h cb
  | parallelData data =>
    simp only [SetCommand.step,scpiCallbackParallelData]
    split <;> exact h
  | parallelNcycles value => cases value <;> exact h
  | sequenceNcycles value =>
    simp only [SetCommand.step,scpiCallbackSequenceNcycles]
    split <;> exact h
  | mode value =>
    simp only [SetCommand.step,scpiCallbackMode]
    split <;> exact h

def NamedIfAny (o : Option Dds) : Prop := ∀ s, o = some s → DestinationNamed s

theorem NamedIfAny.record (hlay : lay.ResolvesAll) {p : Parallel} {o : Option Dds} (h : NamedIfAny o)
    {r : Rec} (hr : Issued lay k r) : NamedIfAny (o.bind (executeCommand (lay.envOf p) r)) := by
  intro s' hs'
  obtain ⟨s,hs,hexec⟩ := Option.bind_eq_some_iff.mp hs'
  cases hr with
  | flush =>
    rw [executeCommand_spiRecord] at hexec
    exact (h s hs).congr (executeCommandSpiWrite_quiet hexec).1.regs
  | @command cb p' cs c hcs hc =>
    have hnames : Cmd.Names (lay.envOf p) c := commands_name hlay hcs c hc
    exact hnames.executeCommand (h s hs) hexec

theorem NamedIfAny.pass (hlay : lay.ResolvesAll) {p : Parallel} {rs : List Rec}
    (hrs : ∀ r ∈ rs, Issued lay k r) {o : Option Dds} (h : NamedIfAny o) :
    NamedIfAny (rs.foldl (fun s r => s.bind (executeCommand (lay.envOf p) r)) o) := by
  induction rs generalizing o with
  | nil => exact h
  | cons r rs ih => exact ih (fun r' hr' => hrs r' (by simp [hr'])) (h.record hlay (hrs r (by simp)))

theorem NamedIfAny.led {o : Option Dds} (h : NamedIfAny o) (level : Bool) :
    NamedIfAny (o.map (gpioSet Pin.ledFront level)) := by
  intro s' hs'
  obtain ⟨s,hs,rfl⟩ := Option.map_eq_some_iff.mp hs'
  exact (h s hs).congr rfl

theorem commandsExecute_named (hlay : lay.ResolvesAll) {p : Parallel} (q : RecordQueue)
    (hq : ∀ r ∈ q.records, Issued lay k r) {s s' : Dds} (h : DestinationNamed s)
    (hs' : commandsExecute (lay.envOf p) q.queue s = some s') : DestinationNamed s' := by
  have hstart : NamedIfAny (some s) := by
    rintro _ ⟨⟩
    exact h
  have hpass : ∀ o, NamedIfAny o →
      NamedIfAny (q.records.foldl (fun s r => s.bind (executeCommand (lay.envOf p) r)) o) :=
    fun o ho => NamedIfAny.pass hlay hq ho
  have hpasses := Function.Iterate.rec NamedIfAny (hstart.led true) hpass
    (q.queue.repeatCount.toNat+1)
  rw [commandsExecute,executeCommands_eq _ _ _ _ _
    (executePass_encode q.inBuffer.1 q.sized q.content_eq _)] at hs'
  exact hpasses.led false s' hs'

end Steps

theorem initUpload_named (chip : Chip) (pins : GpioPin → Bool) :
    DestinationNamed (initUpload (Dds.boot chip pins)) := by
  have hupload (rs : List Reg) (s : Dds) :
      (rs.foldl (fun s r => updateReg r s) s).regs = s.regs := by
    induction rs generalizing s with
    | nil => rfl
    | cons r rs ih => rw [List.foldl_cons,ih,updateReg_regs]
  have hboot : DestinationNamed (Dds.boot chip pins) := by
    have hvalue : getField (Reg.bootValue .cfr2) 2 20 ≠ 3 := by decide
    exact hvalue
  have hsettings : getValue Field.digitalRampDestination (initSettings (Dds.boot chip pins)) =
      getValue Field.digitalRampDestination (Dds.boot chip pins) := by
    simp (disch := decide) only [initSettings,getValue_setValue_apart,gpioSetHigh,gpioSetLow,
      getValue_gpioSet]
    rfl
  have hnamed : DestinationNamed (initSettings (Dds.boot chip pins)) := by
    rw [DestinationNamed,hsettings]
    exact hboot
  exact hnamed.congr (hupload Reg.all _)

theorem DestinationNamed.initOutputs {s : Dds} (h : DestinationNamed s) :
    DestinationNamed (initOutputs s) := by
  have hport : Field.parallelDataPortEnable.Apart Field.digitalRampDestination := by decide
  have hpins : DestinationNamed (selectParallelTarget 0 (selectProfile 0 s)) := h.congr rfl
  exact (hpins.apart hport (truthValue 0)).congr rfl

theorem reachable_named {lay : Layout} (hlay : lay.ResolvesAll) {k : Conversions} {dev : Device}
    (h : Reachable lay k dev) : DestinationNamed dev.dds := by
  induction h with
  | init mem chip pins => exact (initUpload_named chip pins).initOutputs
  | set _ c ih => exact step_named hlay ih c
  | clear _ ih => exact ih
  | play _ q hq hdds ih => exact commandsExecute_named hlay q hq ih hdds

section Names

/-- Each of the four queries finds a name, and the queries of the ramp a printer. -/
structure Answered (dev : Device) : Prop where
  mode : ∃ text, scpiCallbackModeQ dev = .name (some text)
  parallelTarget : ∃ text, scpiCallbackParallelTargetQ dev = .name (some text)
  rampMode : ∃ text, scpiCallbackRampModeQ dev = .name (some text)
  rampTarget : ∃ text, scpiCallbackRampTargetQ dev = .name (some text)
  ramp : ∀ value, (scpiPrintRamp dev value).isSome

theorem fieldValue_lt (f : RegisterBit) (dev : Device) : (fieldValue f dev).toNat < 2^f.bits := by
  have hlt := getField_lt (dev.dds.regs f.reg) f.bits f.offset f.bits_lt
  rw [fieldValue,getValue,BitVec.toNat_setWidth]
  exact lt_of_le_of_lt (Nat.mod_le _ _) hlt

theorem bit_cases {f : RegisterBit} (hf : f.bits = 1) (dev : Device) :
    fieldValue f dev = 0 ∨ fieldValue f dev = 1 := by
  have hlt := fieldValue_lt f dev
  rw [hf] at hlt
  have hnat : (fieldValue f dev).toNat = 0 ∨ (fieldValue f dev).toNat = 1 := by omega
  exact hnat.imp (fun h => BitVec.eq_of_toNat_eq h) fun h => BitVec.eq_of_toNat_eq h

theorem destination_cases {dev : Device} (h : DestinationNamed dev.dds) :
    fieldValue Field.digitalRampDestination dev ∈ [0,1,2] := by
  have hlt := getField_lt (dev.dds.regs .cfr2) 2 20 (by decide)
  have hthree : (getValue Field.digitalRampDestination dev.dds).toNat ≠ 3 :=
    fun he => h (BitVec.eq_of_toNat_eq he)
  have hnat : (getValue Field.digitalRampDestination dev.dds).toNat < 3 := by
    have : (getValue Field.digitalRampDestination dev.dds).toNat < 2^2 := hlt
    omega
  simp only [List.mem_cons,List.not_mem_nil,or_false]
  have hvalue : (fieldValue Field.digitalRampDestination dev).toNat =
      (getValue Field.digitalRampDestination dev.dds).toNat := by
    rw [fieldValue,BitVec.toNat_setWidth]
    omega
  have hcases : (fieldValue Field.digitalRampDestination dev).toNat = 0 ∨
      (fieldValue Field.digitalRampDestination dev).toNat = 1 ∨
      (fieldValue Field.digitalRampDestination dev).toNat = 2 := by omega
  exact hcases.imp (fun h => BitVec.eq_of_toNat_eq h)
    (Or.imp (fun h => BitVec.eq_of_toNat_eq h) fun h => BitVec.eq_of_toNat_eq h)

theorem answered_of_named {dev : Device} (h : DestinationNamed dev.dds) : Answered dev where
  mode := by
    rw [scpiCallbackModeQ]
    cases dev.mode <;> exact ⟨_,rfl⟩
  parallelTarget := by
    rw [scpiCallbackParallelTargetQ]
    cases gpioGet Pin.parallelF0 dev.dds <;> cases gpioGet Pin.parallelF1 dev.dds <;> exact ⟨_,rfl⟩
  rampMode := by
    rw [scpiCallbackRampModeQ]
    obtain hlow | hlow := bit_cases (f := Field.digitalRampNoDwellLow) rfl dev <;>
      obtain hhigh | hhigh := bit_cases (f := Field.digitalRampNoDwellHigh) rfl dev <;>
      rw [hlow,hhigh] <;> exact ⟨_,rfl⟩
  rampTarget := by
    have hdest := destination_cases h
    simp only [List.mem_cons,List.not_mem_nil,or_false] at hdest
    rw [scpiCallbackRampTargetQ]
    obtain hon | hon := bit_cases (f := Field.digitalRampEnable) rfl dev
    · rw [hon]
      exact ⟨_,rfl⟩
    · obtain hdest | hdest | hdest := hdest <;> rw [hon,hdest] <;> exact ⟨_,rfl⟩
  ramp := by
    intro value
    have hdest := destination_cases h
    simp only [List.mem_cons,List.not_mem_nil,or_false] at hdest
    obtain hdest | hdest | hdest := hdest <;> rw [scpiPrintRamp,hdest] <;> rfl

end Names

theorem choice_queries_answered (lay : Layout) (hlay : lay.ResolvesAll) (k : Conversions)
    (dev : Device) (h : Reachable lay k dev) : Answered dev :=
  answered_of_named (reachable_named hlay h)

def Layout.table : Layout where
  env := ⟨fun a => (commandFields[a.toNat]?).getD Field.ftw,fun _ _ => 0,fun _ => true⟩
  fieldAddr := fun f => BitVec.ofNat 32 (commandFields.findIdx fun g =>
    g.reg = f.reg ∧ g.offset = f.offset)
  bufferAddr := 0x20001000

theorem table_resolvesAll : Layout.table.ResolvesAll := by
  intro f hf
  simp only [commandFields,List.mem_cons,List.not_mem_nil,or_false] at hf
  obtain rfl | rfl | rfl | rfl | rfl | rfl | rfl | rfl | rfl | rfl | rfl | rfl := hf <;> rfl

theorem choice_queries_answered_phase :
    Answered ((SetCommand.callback (.rampTarget (some .phase))).step Layout.table Conversions.plain
      { Device.reset fun _ => 0 with
        dds := initOutputs (initUpload (Dds.boot (Chip.ofRegs Reg.bootValue) fun _ => false)) }) :=
  choice_queries_answered Layout.table table_resolvesAll Conversions.plain _
    ((Reachable.init (fun _ => 0) (Chip.ofRegs Reg.bootValue) fun _ => false).set _)

end Stm32Dds.Scpi
