import Stm32Dds.Runs
import Stm32Dds.ProgramMode
import Stm32Dds.HeaderCarry

/-! ethernet_loop on a sequence of packets. MODE EXECute only raises a flag; the
queue is played when the next packet has arrived. All lines of a packet go through
one call of the parser, which carries the path of a header on to the next line. -/

set_option autoImplicit false

namespace Stm32Dds.Scpi
open Bytes Ad9910 Commands

inductive Observed
  | effect (e : Effect)
  | clear
  | playback (bytes : List Byte) (repeatCount : BitVec 32)
  deriving DecidableEq

/-- The device is gone once a playback has left the register struct. -/
structure Station where
  device : Option Device
  trace : List Observed

abbrev Packet := List (List MessageUnit)

def newEffects (before after : Dds) : List Observed :=
  (after.log.drop before.log.length).map fun e => .effect e.1

def Action.marks : Action → List Observed
  | .clear => [.clear]
  | _ => []

section
variable (lay : Layout) (k : Conversions)

def Station.act (s : Station) (a : Action) : Station :=
  match s.device with
  | none => s
  | some dev => ⟨some (a.perform lay k dev),
      s.trace ++ a.marks ++ newEffects dev.dds (a.perform lay k dev).dds⟩

/-- `if (command_execute_flag) { commands_execute(); command_execute_flag = 0; }` -/
def Station.executePending (s : Station) : Station :=
  match s.device with
  | none => s
  | some dev =>
    if dev.executeFlag then
      let mark := Observed.playback (content dev.queue) dev.queue.repeatCount
      match commandsExecute (lay.envOf dev.parallel) dev.queue dev.dds with
      | none => ⟨none,s.trace ++ [mark]⟩
      | some dds => ⟨some { dev with dds := dds, executeFlag := false },
          s.trace ++ mark :: newEffects dev.dds dds⟩
    else s

def Station.receive (s : Station) (p : Packet) : Station :=
  scpiParse (Station.act lay k) .none p.flatten (s.executePending lay)

def ethernetLoop (s : Station) (ps : List Packet) : Station := ps.foldl (Station.receive lay k) s

/-- The meaning of a line by itself: MODE EXECute plays the queue on the spot. -/
def Station.line (s : Station) (l : List MessageUnit) : Station :=
  scpiParse (fun s a => (s.act lay k a).executePending lay) .none l s

end

def Action.executes : Action → Bool
  | .set (.mode (some .execute)) => true
  | _ => false

/-- Actions that touch neither the DDS nor the queue, nor what a playback reads. -/
def Action.inert : Action → Bool
  | .set (.mode m) => m != some .execute
  | .other | .fail _ => true
  | _ => false

def executesLast : List Action → Bool
  | [] => true
  | a :: as => (!a.executes || as.all Action.inert) && executesLast as

def headersOf (l : List MessageUnit) : List UnitHeader := l.map MessageUnit.toUnitHeader

/-- No header is completed with the path of another line, and only inert commands follow
MODE EXECute. -/
structure Separable (p : Packet) : Prop where
  apart : Apart false (p.map headersOf)
  execute : executesLast (p.flatMap (actionsOf .none)) = true

instance (p : Packet) : Decidable (Separable p) :=
  decidable_of_iff (Apart false (p.map headersOf) ∧
    executesLast (p.flatMap (actionsOf .none)) = true) ⟨fun h => ⟨h.1,h.2⟩,fun h => ⟨h.1,h.2⟩⟩

theorem actionsOf_append (prev : Previous) (us vs : List MessageUnit) :
    actionsOf prev (us ++ vs) =
      actionsOf prev us ++ actionsOf ((headersOf us).foldl Previous.behind prev) vs := by
  induction us generalizing prev with
  | nil => rfl
  | cons u us ih =>
    rw [List.cons_append,actionsOf,actionsOf,ih]
    change _ = _ ++ actionsOf ((headersOf us).foldl Previous.behind (prev.behind u.toUnitHeader)) vs
    split
    · rfl
    · split
      · rfl
      · split <;> rfl

theorem actionsOf_congr {p q : Previous} {us : List MessageUnit}
    (h : SameHeaders p q (headersOf us)) : actionsOf p us = actionsOf q us := by
  induction us generalizing p q with
  | nil => rfl
  | cons u us ih =>
    obtain ⟨hheader,hrest⟩ := h
    rw [actionsOf,actionsOf,ih hrest]
    by_cases hskip : u.Skipped
    · obtain hinvalid | hempty := hskip
      · simp [hinvalid]
      · simp [hempty]
    · rw [hheader hskip]

theorem actionsOf_apart {carried : Bool} {prev : Previous}
    (hprev : carried = false → ':' ∉ prev.header) {p : Packet}
    (h : Apart carried (p.map headersOf)) :
    actionsOf prev p.flatten = p.flatMap (actionsOf .none) := by
  induction p generalizing carried prev with
  | nil => rfl
  | cons l p ih =>
    obtain ⟨hline,hrest⟩ := h
    rw [List.flatten_cons,List.flatMap_cons,actionsOf_append,
      actionsOf_congr (sameHeaders_alone hprev hline),ih (foldl_carriesPath hprev _) hrest]

theorem Separable.actions {p : Packet} (h : Separable p) :
    actionsOf .none p.flatten = p.flatMap (actionsOf .none) :=
  actionsOf_apart (by simp [Previous.none]) h.apart

theorem inert_behind {pre post : List Action} {a : Action}
    (h : executesLast (pre ++ a :: post) = true) (ha : a.executes = true) :
    ∀ b ∈ post, b.inert = true := by
  induction pre with
  | nil =>
    simp only [List.nil_append,executesLast,ha] at h
    simpa using (Bool.and_eq_true_iff.mp h).1
  | cons c pre ih =>
    rw [List.cons_append,executesLast,Bool.and_eq_true] at h
    exact ih h.2

section
variable {lay : Layout} {k : Conversions}

theorem executePending_self {s : Station} :
    s.executePending lay = s ↔ ∀ dev, s.device = some dev → dev.executeFlag = false := by
  obtain ⟨device,trace⟩ := s
  cases device with
  | none => simp [Station.executePending]
  | some dev =>
    cases hf : dev.executeFlag with
    | false => simp [Station.executePending,hf]
    | true =>
      -- a playback leaves its mark, so the station is not the same
      simp only [Station.executePending,hf,if_true]
      split <;> simp [hf]

theorem executePending_idem (s : Station) :
    (s.executePending lay).executePending lay = s.executePending lay := by
  rw [executePending_self]
  intro dev hdev
  obtain ⟨device,trace⟩ := s
  cases device with
  | none => cases hdev
  | some old =>
    cases hf : old.executeFlag with
    | false =>
      simp only [Station.executePending,hf] at hdev
      cases hdev
      exact hf
    | true =>
      simp only [Station.executePending,hf,if_true] at hdev
      split at hdev
      · cases hdev
      · cases hdev
        rfl

theorem foldl_processCommand_flag (cs : List Cmd) (dev : Device) :
    (cs.foldl (processCommand lay) dev).executeFlag = dev.executeFlag := by
  induction cs generalizing dev with
  | nil => rfl
  | cons c cs ih =>
    rw [List.foldl_cons,ih]
    unfold processCommand
    split <;> rfl

theorem perform_flag {a : Action} (h : a.executes = false) (dev : Device) :
    (a.perform lay k dev).executeFlag = dev.executeFlag := by
  cases a with
  | set c =>
    cases c with
    | callback cb =>
      simp only [Action.perform,SetCommand.step,Callback.run]
      split
      · rfl
      · exact foldl_processCommand_flag _ dev
    | parallelData data =>
      simp only [Action.perform,SetCommand.step,scpiCallbackParallelData]
      split <;> rfl
    | parallelNcycles value => cases value <;> rfl
    | sequenceNcycles value =>
      simp only [Action.perform,SetCommand.step,scpiCallbackSequenceNcycles]
      split <;> rfl
    | mode value =>
      cases value with
      | none => rfl
      | some m =>
        cases m with
        | normal => rfl
        | program => rfl
        | execute => cases h
  | clear => rfl
  | other => rfl
  | fail e => rfl

theorem calm_of_not_executes {a : Action} (h : a.executes = false) :
    Runs.Calm (Station.act lay k) (Station.executePending lay) a := by
  rintro ⟨device,trace⟩ hs
  rw [executePending_self] at hs ⊢
  intro dev hdev
  cases device with
  | none => cases hdev
  | some old =>
    cases hdev
    rw [perform_flag h]
    exact hs old rfl

theorem perform_inert (lay : Layout) (k : Conversions) {a : Action} (h : a.inert = true) :
    ∃ (f : Mode → Mode) (g : List ScpiError → List ScpiError), ∀ dev : Device,
      a.perform lay k dev = { dev with mode := f dev.mode, errors := g dev.errors } := by
  cases a with
  | set c =>
    cases c with
    | mode value =>
      cases value with
      | none => exact ⟨id,fun es => es ++ [.parameter],fun dev => rfl⟩
      | some m =>
        cases m with
        | normal => exact ⟨fun _ => .normal,id,fun dev => rfl⟩
        | program => exact ⟨fun _ => .program,id,fun dev => rfl⟩
        | execute => cases h
    | _ => cases h
  | clear => cases h
  | other => exact ⟨id,id,fun dev => rfl⟩
  | fail e => exact ⟨id,fun es => es ++ [e],fun dev => rfl⟩

theorem inert_of_inert {a : Action} (h : a.inert = true) :
    Runs.Inert (Station.act lay k) (Station.executePending lay) a := by
  obtain ⟨f,g,hperform⟩ := perform_inert lay k h
  have hmarks : a.marks = [] := by
    cases a with
    | clear => cases h
    | _ => rfl
  rintro ⟨device,trace⟩
  cases device with
  | none => rfl
  | some dev =>
    cases hf : dev.executeFlag with
    | false => simp [Station.act,Station.executePending,hperform,hmarks,newEffects,hf]
    | true =>
      cases he : commandsExecute (lay.envOf dev.parallel) dev.queue dev.dds with
      | none => simp [Station.act,Station.executePending,hperform,hmarks,newEffects,hf,he]
      | some dds => simp [Station.act,Station.executePending,hperform,hmarks,newEffects,hf,he]

theorem Separable.batchable {p : Packet} (h : Separable p) :
    Runs.Batchable (Station.act lay k) (Station.executePending lay) (actionsOf .none p.flatten) := by
  cases hfind : (actionsOf .none p.flatten).find? Action.executes with
  | none =>
    refine Runs.batchable_calm fun a ha => calm_of_not_executes ?_
    simpa using List.find?_eq_none.mp hfind a ha
  | some a =>
    -- the first MODE EXECute: nothing before it raises the flag, what follows is inert
    obtain ⟨hexec,pre,post,hsplit,hpre⟩ := List.find?_eq_some_iff_append.mp hfind
    have hlast := h.execute
    rw [← h.actions,hsplit] at hlast
    rw [hsplit]
    refine Runs.batchable_last executePending_idem a (fun b hb => calm_of_not_executes ?_)
      fun b hb => inert_of_inert (inert_behind hlast hexec b hb)
    simpa using hpre b hb

theorem receive_eq (s : Station) (p : Packet) :
    s.receive lay k p =
      Runs.batch (Station.act lay k) (Station.executePending lay) s (actionsOf .none p.flatten) :=
  scpiParse_eq _ _ _ _

theorem lines_eq (s : Station) (ls : List (List MessageUnit)) :
    ls.foldl (Station.line lay k) s = (ls.flatMap (actionsOf .none)).foldl
      (Runs.eager (Station.act lay k) (Station.executePending lay)) s := by
  induction ls generalizing s with
  | nil => rfl
  | cons l ls ih =>
    rw [List.foldl_cons,ih,List.flatMap_cons,List.foldl_append,Station.line,scpiParse_eq]
    rfl

/-- Separable packets, once another one has arrived, have done what their lines do. -/
theorem ethernetLoop_eq_lines (s : Station) (ps : List Packet) (h : ∀ p ∈ ps, Separable p) :
    (ethernetLoop lay k s ps).executePending lay =
      ps.flatten.foldl (Station.line lay k) (s.executePending lay) := by
  have hloop : ethernetLoop lay k s ps = (ps.map fun p => actionsOf .none p.flatten).foldl
      (Runs.batch (Station.act lay k) (Station.executePending lay)) s := by
    rw [List.foldl_map,ethernetLoop]
    congr 1
    funext s p
    exact receive_eq s p
  have hacts : (ps.map fun p => actionsOf .none p.flatten).flatten =
      ps.flatten.flatMap (actionsOf .none) := by
    rw [← List.flatMap_def,List.flatten_eq_flatMap,List.flatMap_assoc]
    exact List.flatMap_congr fun p hp => (h p hp).actions
  rw [hloop,Runs.flush_batches executePending_idem,hacts,lines_eq]
  simp only [List.mem_map]
  rintro b ⟨p,hp,rfl⟩
  exact (h p hp).batchable

end

/-- Two ways to cut the same lines into separable packets have the same effects:
those of the lines one by one, with every playback at its MODE EXECute. -/
theorem grouping_irrelevant (lay : Layout) (k : Conversions) (s : Station) (ps qs : List Packet)
    (further : Packet) (hlines : ps.flatten = qs.flatten)
    (hps : ∀ p ∈ ps, Separable p) (hqs : ∀ q ∈ qs, Separable q) :
    let meant := scpiParse (Station.act lay k) .none further.flatten
      (ps.flatten.foldl (Station.line lay k) (s.executePending lay))
    ethernetLoop lay k s (ps ++ [further]) = meant ∧
      ethernetLoop lay k s (qs ++ [further]) = meant := by
  have hloop : ∀ rs : List Packet, (∀ r ∈ rs, Separable r) →
      ethernetLoop lay k s (rs ++ [further]) = scpiParse (Station.act lay k) .none further.flatten
        (rs.flatten.foldl (Station.line lay k) (s.executePending lay)) := by
    intro rs hrs
    rw [← ethernetLoop_eq_lines s rs hrs]
    simp [ethernetLoop,Station.receive]
  exact ⟨hloop ps hps,hlines ▸ hloop qs hqs⟩

def ProgramData.empty : ProgramData := ⟨none,none,none,none,none,none,none,none⟩

def lineOf (header : String) (size : Nat) (data : ProgramData) : List MessageUnit :=
  [⟨⟨false,header.toList,0,size⟩,data⟩]

def playAndClear : List (List MessageUnit) :=
  [lineOf ":MODE" 14 { ProgramData.empty with mode := some .program },
   lineOf ":TRIGger:SEND" 14 ProgramData.empty,
   lineOf ":MODE" 14 { ProgramData.empty with mode := some .execute },
   lineOf ":SEQuence:CLEAR" 16 ProgramData.empty]

def outputAndUpdate : List (List MessageUnit) :=
  [lineOf "OUTput:STATe" 16 { ProgramData.empty with bool := some true },
   lineOf "TRIGger:SEND" 13 ProgramData.empty]

def Station.start : Station := ⟨some (Device.reset fun _ => 0),[]⟩

theorem grouping_irrelevant_play :
    ethernetLoop Layout.plain Conversions.plain Station.start
        ([playAndClear.take 3,playAndClear.drop 3] ++ [[]]) =
      ethernetLoop Layout.plain Conversions.plain Station.start
        (playAndClear.map (fun l => [l]) ++ [[]]) := by
  have h := grouping_irrelevant Layout.plain Conversions.plain Station.start
    [playAndClear.take 3,playAndClear.drop 3] (playAndClear.map fun l => [l]) []
    rfl (by decide +kernel) (by decide +kernel)
  exact h.1.trans h.2.symm

/-- In one packet the queue is cleared before it is played, and TRIGger:SEND is read
as OUTput:TRIGger:SEND. -/
theorem one_packet_differs :
    (ethernetLoop Layout.plain Conversions.plain Station.start [playAndClear,[]]).trace ≠
      (ethernetLoop Layout.plain Conversions.plain Station.start
        (playAndClear.map (fun l => [l]) ++ [[]])).trace ∧
    (ethernetLoop Layout.plain Conversions.plain Station.start [outputAndUpdate,[]]).trace ≠
      (ethernetLoop Layout.plain Conversions.plain Station.start
        (outputAndUpdate.map (fun l => [l]) ++ [[]])).trace := by
  decide +kernel

end Stm32Dds.Scpi
