import Stm32Dds.ProgramMode

set_option autoImplicit false

namespace Stm32Dds.Scpi
open Bytes Tagged Ad9910 Commands

section
variable (lay : Layout) (k : Conversions)

/-- The commands queued by a set command, with the operands of that moment. -/
def SetCommand.queued (dev : Device) : SetCommand → List Cmd
  | .callback cb =>
    if dev.mode = .program then ((cb.commands lay k dev.parallel).toOption).getD [] else []
  | _ => []

def queuedBy (dev : Device) : List SetCommand → List Cmd
  | [] => []
  | c :: cs => c.queued lay k dev ++ queuedBy (c.step lay k dev) cs

def snapshots (dev : Device) : List SetCommand → List (Env × Cmd)
  | [] => []
  | c :: cs => (c.queued lay k dev).map (fun d => (lay.envOf dev.parallel,d)) ++
      snapshots (c.step lay k dev) cs

end

def replay (snaps : List (Env × Cmd)) (s : Dds) : Option Dds :=
  snaps.foldl (fun o x => o.bind (executeCommand x.1 x.2.record)) (some s)

def portValues (s : Dds) : List (BitVec 16) :=
  s.log.filterMap fun
    | (.port v,_) => some v
    | _ => none

theorem searchesRight_of_append {pre post : List Cmd} (h : SearchesRight (pre ++ post)) :
    SearchesRight pre := by
  intro p c q he hc
  exact h p c (q ++ post) (by simp [he]) hc

theorem closed_length_mono (pre post : List Cmd) :
    (encode (closed pre)).length ≤ (encode (closed (pre ++ post))).length := by
  induction post using List.reverseRec with
  | nil => simp
  | append_singleton post c ih =>
    rw [← List.append_assoc,encode_closed_snoc]
    exact ih.trans (extend_length _ _ _)

theorem queueEach_content {q : CommandQueue} (hq : InBuffer q) (pre cs : List Cmd)
    (hpre : content q = encode (closed pre)) (hright : SearchesRight (pre ++ cs))
    (hfit : (encode (closed (pre ++ cs))).length ≤ commandQueueLength) :
    content (queueEach q cs) = encode (closed (pre ++ cs)) := by
  induction cs generalizing q pre with
  | nil => simpa [queueEach] using hpre
  | cons c cs ih =>
    have hsnoc : pre ++ c :: cs = (pre ++ [c]) ++ cs := by simp
    rw [hsnoc] at hright hfit ⊢
    have hlast := ((searchesRight_snoc pre c).mp (searchesRight_of_append hright)).2
    have happ : append (content q) c = encode (closed (pre ++ [c])) := by
      rw [encode_closed_snoc,append,hpre]
      cases hc : c.isRegister with
      | false => simp [extend,hc]
      | true => rw [hlast hc]
    have hz : (c.queue q).1 = 0 := by
      rw [c.queue_zero_iff hq,happ]
      exact (closed_length_mono (pre ++ [c]) cs).trans hfit
    have hcontent := (c.queue_content hq hz).trans happ
    exact ih (c.queue_kept hq).inBuffer (pre ++ [c]) hcontent hright hfit

theorem processCommand_mode (lay : Layout) (dev : Device) (c : Cmd) :
    (processCommand lay dev c).mode = dev.mode := by
  unfold processCommand
  split <;> rfl

theorem foldl_processCommand_queue (lay : Layout) (cs : List Cmd) (dev : Device)
    (h : dev.mode ≠ .program) : (cs.foldl (processCommand lay) dev).queue = dev.queue := by
  induction cs generalizing dev with
  | nil => rfl
  | cons c cs ih =>
    have hstep : (processCommand lay dev c).queue = dev.queue := by
      unfold processCommand
      split
      · rename_i hm
        exact absurd hm h
      · rfl
    rw [List.foldl_cons,ih _ (by rw [processCommand_mode]; exact h),hstep]

theorem SetCommand.step_queue (lay : Layout) (k : Conversions) (dev : Device) (c : SetCommand) :
    content (c.step lay k dev).queue = content (queueEach dev.queue (c.queued lay k dev)) ∧
      (InBuffer dev.queue → InBuffer (c.step lay k dev).queue) := by
  cases c with
  | callback cb =>
    cases hcs : cb.commands lay k dev.parallel with
    | error e =>
      have hstep : (SetCommand.callback cb).step lay k dev =
          { dev with errors := dev.errors ++ [e] } := by simp [step,Callback.run,hcs]
      simp [hstep,queued,hcs,Except.toOption,queueEach]
    | ok cs =>
      have hstep : (SetCommand.callback cb).step lay k dev =
          cs.foldl (processCommand lay) dev := by simp [step,Callback.run,hcs]
      by_cases hm : dev.mode = .program
      · rw [hstep,foldl_processCommand lay cs dev hm]
        simp only [queued,hm,if_true,hcs,Except.toOption,Option.getD_some]
        exact ⟨rfl,fun hq => queueEach_inBuffer hq cs⟩
      · rw [hstep,foldl_processCommand_queue lay cs dev hm]
        simp [queued,hm,queueEach]
  | parallelData data =>
    simp only [step,queued,queueEach,scpiCallbackParallelData]
    split <;> exact ⟨rfl,id⟩
  | parallelNcycles value => cases value <;> exact ⟨rfl,id⟩
  | sequenceNcycles value =>
    simp only [step,queued,queueEach,scpiCallbackSequenceNcycles]
    split <;> exact ⟨rfl,id⟩
  | mode value =>
    simp only [step,queued,queueEach,scpiCallbackMode]
    split <;> exact ⟨rfl,id⟩

theorem queuedBy_append (lay : Layout) (k : Conversions) (dev : Device)
    (as bs : List SetCommand) :
    queuedBy lay k dev (as ++ bs) =
      queuedBy lay k dev as ++ queuedBy lay k (Runs.run (SetCommand.step lay k) dev as) bs := by
  induction as generalizing dev with
  | nil => rfl
  | cons a as ih => simp [queuedBy,ih,Runs.run]

/-- Over a whole run the queue spells the commands queued so far, operands included. -/
theorem run_content (lay : Layout) (k : Conversions) (cs : List SetCommand) {dev : Device}
    (hq : InBuffer dev.queue) (pre : List Cmd) (hpre : content dev.queue = encode (closed pre))
    (hright : SearchesRight (pre ++ queuedBy lay k dev cs))
    (hfit : (encode (closed (pre ++ queuedBy lay k dev cs))).length ≤ commandQueueLength) :
    InBuffer (Runs.run (SetCommand.step lay k) dev cs).queue ∧
      content (Runs.run (SetCommand.step lay k) dev cs).queue =
        encode (closed (pre ++ queuedBy lay k dev cs)) := by
  induction cs generalizing dev pre with
  | nil => exact ⟨hq,by simpa [queuedBy,Runs.run] using hpre⟩
  | cons c cs ih =>
    have hsplit : pre ++ queuedBy lay k dev (c :: cs) =
        (pre ++ c.queued lay k dev) ++ queuedBy lay k (c.step lay k dev) cs := by
      simp [queuedBy]
    rw [hsplit] at hright hfit ⊢
    obtain ⟨hstep,hin⟩ := c.step_queue lay k dev
    have hnow := queueEach_content hq pre (c.queued lay k dev) hpre (searchesRight_of_append hright)
      ((closed_length_mono _ _).trans hfit)
    exact ih (hin hq) _ (hstep.trans hnow) hright hfit

/-- What is queued is replayed with the operands of that moment, whatever is set
later; a parallel run plays the samples the buffer holds at the replay. -/
theorem queued_operands_kept (lay : Layout) (k : Conversions) (dev : Device)
    (earlier later : List SetCommand) (hempty : dev.queue.endPtr = 0)
    (hright : SearchesRight (queuedBy lay k dev (earlier ++ later)))
    (hfit : (encode (closed (queuedBy lay k dev (earlier ++ later)))).length ≤
      commandQueueLength) :
    let queued := Runs.run (SetCommand.step lay k) dev earlier
    let last := Runs.run (SetCommand.step lay k) queued later
    Decodes last.queue (queuedBy lay k dev earlier ++ queuedBy lay k queued later) ∧
      ∀ length repeats s,
        executeCommand (lay.envOf last.parallel)
            (Cmd.parallel lay.bufferAddr length repeats).record s =
          some (executeParallel last.parallel.sample length repeats lay.env.timerFired s) := by
  intro queued last
  have hstart : InBuffer dev.queue ∧ content dev.queue = encode (closed []) := by
    obtain ⟨mode,⟨mem,endPtr,repeatCount⟩,rest⟩ := dev
    cases hempty
    exact ⟨inBuffer_empty mem repeatCount,rfl⟩
  obtain ⟨hin,hcontent⟩ := run_content lay k (earlier ++ later) hstart.1 [] hstart.2 hright hfit
  rw [Runs.run_append] at hin hcontent
  rw [List.nil_append,queuedBy_append] at hcontent
  refine ⟨(decodes_iff_content hin _).mpr hcontent,fun length repeats s => ?_⟩
  rw [executeCommand_record _ _ rfl]
  simp [Cmd.execute,executeCommandParallel,Layout.envOf]

def twoUploads : List SetCommand :=
  [.mode (some .program),.parallelNcycles (some 1),
   .parallelData [0x11,0x11],.callback (.parallelState (some true)),
   .parallelData [0x22,0x22],.callback (.parallelState (some true))]

theorem queued_operands_kept_uploads :
    let start := Device.reset fun _ => 0
    let queued := Runs.run (SetCommand.step Layout.plain Conversions.plain) start
      (twoUploads.take 4)
    let last := Runs.run (SetCommand.step Layout.plain Conversions.plain) queued
      (twoUploads.drop 4)
    Decodes last.queue [.parallel 0x20001000 2 1,.parallel 0x20001000 2 1] ∧
      ∀ length repeats s,
        executeCommand (Layout.plain.envOf last.parallel)
            (Cmd.parallel Layout.plain.bufferAddr length repeats).record s =
          some (executeParallel last.parallel.sample length repeats
            Layout.plain.env.timerFired s) :=
  queued_operands_kept Layout.plain Conversions.plain (Device.reset fun _ => 0)
    (twoUploads.take 4) (twoUploads.drop 4) rfl
    (by
      intro pre c post he hc
      have hmem : c ∈ queuedBy Layout.plain Conversions.plain (Device.reset fun _ => 0)
          (twoUploads.take 4 ++ twoUploads.drop 4) := by rw [he]; simp
      have hnone : ∀ c ∈ queuedBy Layout.plain Conversions.plain (Device.reset fun _ => 0)
          (twoUploads.take 4 ++ twoUploads.drop 4), c.isRegister = false := by decide +kernel
      rw [hnone c hmem] at hc
      cases hc)
    (by decide +kernel)

/-- The first run plays the second upload: its samples were not copied. -/
theorem first_upload_overwritten :
    let last := Runs.run (SetCommand.step Layout.plain Conversions.plain)
      (Device.reset fun _ => 0) twoUploads
    (commandsExecute (Layout.plain.envOf last.parallel) last.queue last.dds).map portValues ≠
      (replay (snapshots Layout.plain Conversions.plain (Device.reset fun _ => 0) twoUploads)
        last.dds).map portValues := by
  decide +kernel

end Stm32Dds.Scpi
