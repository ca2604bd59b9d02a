import Stm32Dds.Timing
import Stm32Dds.WrappingTimers

set_option autoImplicit false

namespace Stm32Dds.Periodic
open Runs WrappingTimers

inductive Timer
  | link
  | tcpFast
  | tcpSlow
  | arp
  deriving DecidableEq, Repr

inductive Action
  | readPhyRegister
  | setLinkUp
  | setLinkDown
  | tcpFasttmr
  | tcpSlowtmr
  | etharpTmr
  deriving DecidableEq, Repr

namespace Timer

/-- TCP_FAST_INTERVAL, TCP_SLOW_INTERVAL and ARP_TMR_INTERVAL are those of lwIP. -/
def interval : Timer → Nat
  | link => 1000
  | tcpFast => 250
  | tcpSlow => 500
  | arp => 5000

def action : Timer → Action
  | link => .readPhyRegister
  | tcpFast => .tcpFasttmr
  | tcpSlow => .tcpSlowtmr
  | arp => .etharpTmr

def expired (t : Timer) (localtime stamp : BitVec 32) : Bool :=
  decide ((localtime-stamp).toNat ≥ t.interval)

end Timer

structure Statics where
  stamp : Timer → BitVec 32
  linkStatus : BitVec 16

namespace Statics

def initial : Statics := ⟨fun _ => 0,0⟩

def restart (t : Timer) (localtime : BitVec 32) (s : Statics) : Statics :=
  { s with stamp := Function.update s.stamp t localtime }

end Statics

def linkAction (status : BitVec 16) : Action := if status = 1 then .setLinkUp else .setLinkDown

/-- PHY_SR is what the register of the PHY holds if it is read. -/
def pollLink (localtime : BitVec 32) (phySr : BitVec 16) (s : Statics) : List Action × Statics :=
  if Timer.link.expired localtime (s.stamp .link) then
    let s := s.restart .link localtime
    let newStatus := phySr &&& 1
    if s.linkStatus ≠ newStatus then
      ([.readPhyRegister,linkAction newStatus],{ s with linkStatus := newStatus })
    else ([.readPhyRegister],s)
  else ([],s)

def runTimer (t : Timer) (localtime : BitVec 32) (s : Statics) : List Action × Statics :=
  if t.expired localtime (s.stamp t) then ([t.action],s.restart t localtime) else ([],s)

def lwipPeriodicHandle (localtime : BitVec 32) (phySr : BitVec 16) (s : Statics) :
    List Action × Statics :=
  let link := pollLink localtime phySr s
  let fast := runTimer .tcpFast localtime link.2
  let slow := runTimer .tcpSlow localtime fast.2
  let arp := runTimer .arp localtime slow.2
  (link.1 ++ fast.1 ++ slow.1 ++ arp.1,arp.2)

section Call
variable (localtime : BitVec 32) (phySr : BitVec 16) (s : Statics)

theorem restart_stamp (t u : Timer) :
    (s.restart t localtime).stamp u = if u = t then localtime else s.stamp u := by
  simp only [Statics.restart,Function.update_apply]

theorem pollLink_stamp (u : Timer) : (pollLink localtime phySr s).2.stamp u =
    if u = .link ∧ Timer.link.expired localtime (s.stamp .link) then localtime else s.stamp u := by
  unfold pollLink
  by_cases h : Timer.link.expired localtime (s.stamp .link)
  · simp only [h,if_true,and_true]
    split <;> exact restart_stamp localtime s .link u
  · simp [h]

theorem runTimer_stamp (t u : Timer) : (runTimer t localtime s).2.stamp u =
    if u = t ∧ t.expired localtime (s.stamp t) then localtime else s.stamp u := by
  unfold runTimer
  by_cases h : t.expired localtime (s.stamp t)
  · simp only [h,if_true,and_true]
    exact restart_stamp localtime s t u
  · simp [h]

theorem runTimer_linkStatus (t : Timer) : (runTimer t localtime s).2.linkStatus = s.linkStatus := by
  unfold runTimer
  split <;> rfl

theorem pollLink_linkStatus : (pollLink localtime phySr s).2.linkStatus =
    if Timer.link.expired localtime (s.stamp .link) then phySr &&& 1 else s.linkStatus := by
  unfold pollLink
  by_cases h : Timer.link.expired localtime (s.stamp .link)
  · simp only [h,if_true]
    split
    · rfl
    · rename_i hsame
      exact not_not.mp hsame
  · simp [h]

theorem handle_stamp (t : Timer) : (lwipPeriodicHandle localtime phySr s).2.stamp t =
    if t.expired localtime (s.stamp t) then localtime else s.stamp t := by
  cases t <;> simp [lwipPeriodicHandle,runTimer_stamp,pollLink_stamp]

theorem handle_linkStatus : (lwipPeriodicHandle localtime phySr s).2.linkStatus =
    if Timer.link.expired localtime (s.stamp .link) then phySr &&& 1 else s.linkStatus := by
  simp only [lwipPeriodicHandle,runTimer_linkStatus,pollLink_linkStatus]

def changeActions (newStatus : BitVec 16) (s : Statics) : List Action :=
  if s.linkStatus = newStatus then [] else [linkAction newStatus]

theorem pollLink_actions : (pollLink localtime phySr s).1 =
    if Timer.link.expired localtime (s.stamp .link) then
      .readPhyRegister :: changeActions (phySr &&& 1) s else [] := by
  unfold pollLink changeActions
  by_cases h : Timer.link.expired localtime (s.stamp .link)
  · rw [if_pos h,if_pos h]
    by_cases hsame : s.linkStatus = phySr &&& 1
    · rw [if_pos hsame]
      exact congrArg Prod.fst (if_neg (not_not.mpr hsame))
    · rw [if_neg hsame]
      exact congrArg Prod.fst (if_pos hsame)
  · rw [if_neg h,if_neg h]

theorem runTimer_actions (t : Timer) : (runTimer t localtime s).1 =
    if t.expired localtime (s.stamp t) then [t.action] else [] := by
  unfold runTimer
  split <;> rfl

theorem handle_actions : (lwipPeriodicHandle localtime phySr s).1 =
    (if Timer.link.expired localtime (s.stamp .link) then
      .readPhyRegister :: changeActions (phySr &&& 1) s else []) ++
    (if Timer.tcpFast.expired localtime (s.stamp .tcpFast) then [.tcpFasttmr] else []) ++
    (if Timer.tcpSlow.expired localtime (s.stamp .tcpSlow) then [.tcpSlowtmr] else []) ++
    (if Timer.arp.expired localtime (s.stamp .arp) then [.etharpTmr] else []) := by
  simp [lwipPeriodicHandle,pollLink_actions,runTimer_actions,runTimer_stamp,pollLink_stamp,
    Timer.action]

theorem mem_handle (t : Timer) : t.action ∈ (lwipPeriodicHandle localtime phySr s).1 ↔
    t.expired localtime (s.stamp t) := by
  have hchange : t.action ∉ changeActions (phySr &&& 1) s := by
    unfold changeActions linkAction
    split
    · exact List.not_mem_nil
    · split <;> cases t <;> decide
  rw [handle_actions]
  cases t <;> simp_all [Timer.action]

def Action.OfLink (a : Action) : Bool := a = .setLinkUp ∨ a = .setLinkDown

theorem filter_handle : (lwipPeriodicHandle localtime phySr s).1.filter Action.OfLink =
    if Timer.link.expired localtime (s.stamp .link) then changeActions (phySr &&& 1) s else [] := by
  have hchange : (changeActions (phySr &&& 1) s).filter Action.OfLink = changeActions (phySr &&& 1) s := by
    unfold changeActions linkAction
    split
    · rfl
    · split <;> rfl
  have hother : ∀ (due : Bool) (a : Action), a.OfLink = false →
      (if due then [a] else []).filter Action.OfLink = [] := by
    intro due a ha
    cases due <;> simp [ha]
  rw [handle_actions,List.filter_append,List.filter_append,List.filter_append,hother _ _ rfl,
    hother _ _ rfl,hother _ _ rfl,List.append_nil,List.append_nil,List.append_nil]
  split
  · rw [List.filter_cons_of_neg (by decide),hchange]
  · rfl

end Call

structure Call where
  time : Nat
  phySr : BitVec 16

def Call.linkBit (c : Call) : BitVec 16 := c.phySr &&& 1

def actions (s : Statics) (c : Call) : List Action :=
  (lwipPeriodicHandle (clock 32 c.time) c.phySr s).1

def step (s : Statics) (c : Call) : Statics := (lwipPeriodicHandle (clock 32 c.time) c.phySr s).2

def fires (t : Timer) (s : Statics) (c : Call) : Bool := decide (t.action ∈ actions s c)

theorem localTime_eq_clock (t : Nat) : Timing.timeUpdate^[t] 0 = clock 32 t := by
  induction t with
  | zero => rfl
  | succ t ih =>
    rw [Function.iterate_succ_apply',ih,Timing.timeUpdate,clock,clock,BitVec.ofNat_add]
    rfl

theorem fires_eq (t : Timer) (s : Statics) (c : Call) :
    fires t s c = t.expired (clock 32 c.time) (s.stamp t) := by
  rw [fires,actions,Bool.eq_iff_iff,decide_eq_true_eq,mem_handle]

theorem keepsTimer (t : Timer) :
    KeepsTimer step (fires t) Call.time t.interval (fun s : Statics => s.stamp t) where
  fires_iff s c := by rw [fires_eq,Timer.expired,decide_eq_true_eq]
  stamp_step s c := by rw [fires_eq,step,handle_stamp]

theorem step_linkStatus (s : Statics) (c : Call) :
    (step s c).linkStatus = if fires .link s c then c.linkBit else s.linkStatus := by
  rw [step,handle_linkStatus,fires_eq,Call.linkBit]

theorem synced_initial (t : Timer) :
    Synced t.interval (fun s : Statics => s.stamp t) 0 0 Statics.initial :=
  ⟨rfl,le_rfl,by cases t <;> decide⟩

theorem room (t : Timer) : t.interval + 2^31 ≤ 2^32 := by cases t <;> decide

def firings (t : Timer) (calls : List Call) : List Nat :=
  (fired step (fires t) .initial calls).map Call.time

/-- The start counts as a firing. -/
def lastFiring (t : Timer) (calls : List Call) : Nat := (firings t calls).getLastD 0

def lastLinkBit (calls : List Call) : BitVec 16 :=
  ((fired step (fires .link) .initial calls).map Call.linkBit).getLastD 0

def linkCalls : Statics → List Call → List Action
  | _, [] => []
  | s, c :: cs => (actions s c).filter Action.OfLink ++ linkCalls (step s c) cs

theorem linkBit_cases (c : Call) : c.linkBit = 0 ∨ c.linkBit = 1 := by
  have hle : c.linkBit.toNat ≤ 1 := by
    rw [Call.linkBit,BitVec.toNat_and]
    exact Nat.and_le_right
  obtain h | h : c.linkBit.toNat = 0 ∨ c.linkBit.toNat = 1 := by omega
  · exact .inl (BitVec.eq_of_toNat_eq h)
  · exact .inr (BitVec.eq_of_toNat_eq h)

theorem filter_actions (s : Statics) (c : Call) : (actions s c).filter Action.OfLink =
    if fires .link s c ∧ c.linkBit ≠ s.linkStatus then [linkAction c.linkBit] else [] := by
  have hfilter := filter_handle (clock 32 c.time) c.phySr s
  rw [← Call.linkBit,← fires_eq,changeActions] at hfilter
  rw [actions,hfilter]
  by_cases hsame : s.linkStatus = c.linkBit
  · simp [hsame]
  · simp [hsame,Ne.symm hsame]

theorem linkAction_ne {v v' : BitVec 16} (h : v = 0 ∨ v = 1) (h' : v' = 0 ∨ v' = 1)
    (hne : v' ≠ v) : linkAction v ≠ linkAction v' := by
  obtain rfl | rfl := h <;> obtain rfl | rfl := h'
  · exact absurd rfl hne
  · decide
  · decide
  · exact absurd rfl hne

/-- The link is reported up and down in turn, after a report of the status at the start. -/
theorem linkCalls_alternate (s : Statics) (h : s.linkStatus = 0 ∨ s.linkStatus = 1)
    (calls : List Call) :
    (linkAction s.linkStatus :: linkCalls s calls).IsChain fun a b => a ≠ b := by
  induction calls generalizing s with
  | nil => exact .singleton _
  | cons c cs ih =>
    have hbit := linkBit_cases c
    have hstatus := step_linkStatus s c
    rw [linkCalls,filter_actions]
    by_cases hchange : fires .link s c ∧ c.linkBit ≠ s.linkStatus
    · rw [if_pos hchange.1] at hstatus
      have hrest := ih (step s c) (by rw [hstatus]; exact hbit)
      rw [hstatus] at hrest
      rw [if_pos hchange,List.singleton_append]
      exact List.isChain_cons_cons.mpr ⟨linkAction_ne h hbit hchange.2,hrest⟩
    · have hkept : (step s c).linkStatus = s.linkStatus := by
        rw [hstatus]
        split
        next hf => exact not_not.mp fun hne => hchange ⟨hf,hne⟩
        next => rfl
      have hrest := ih (step s c) (by rw [hkept]; exact h)
      rw [hkept] at hrest
      rw [if_neg hchange,List.nil_append]
      exact hrest

/-- Calls that begin less than 2^31 ms after the start and follow each other as fast. -/
structure Schedule where
  calls : List Call
  paced : Paced (2^31) 0 (calls.map Call.time)

theorem synced_after (t : Timer) {pre : List Call} (h : Paced (2^31) 0 (pre.map Call.time)) :
    Synced t.interval (fun s : Statics => s.stamp t) (lastFiring t pre)
      ((pre.map Call.time).getLastD 0) (run step .initial pre) :=
  (synced_initial t).run (keepsTimer t) (room t) h

/-- Each timer keeps its interval in true time, and the link is reported at the firings at
which it has changed. -/
theorem timers_keep_interval (plan : Schedule) :
    (∀ t : Timer, (0 :: firings t plan.calls).IsChain fun a b => a+t.interval ≤ b) ∧
    (∀ pre c post, plan.calls = pre ++ c :: post →
      (∀ t : Timer,
        (t.action ∈ actions (run step .initial pre) c ↔ lastFiring t pre + t.interval ≤ c.time) ∧
        c.time < lastFiring t (pre ++ [c]) + t.interval) ∧
      (actions (run step .initial pre) c).filter Action.OfLink =
        if Timer.link.action ∈ actions (run step .initial pre) c ∧ c.linkBit ≠ lastLinkBit pre then
          [linkAction c.linkBit]
        else []) ∧
    (.setLinkDown :: linkCalls .initial plan.calls).IsChain fun a b => a ≠ b := by
  refine ⟨?_,?_,linkCalls_alternate .initial (.inl rfl) plan.calls⟩
  · intro t
    have hfired := (synced_initial t).fired_eq (keepsTimer t) (room t) plan.paced
    rw [firings,hfired]
    exact List.isChain_destutter' _ _ _
  · intro pre c post hsplit
    have hpaced := plan.paced
    rw [hsplit,List.map_append,List.map_cons,paced_append,paced_cons] at hpaced
    obtain ⟨hpre,hc,-⟩ := hpaced
    constructor
    · intro t
      constructor
      · have hiff := (synced_after t hpre).fires_iff (keepsTimer t) (room t) hc
        rwa [fires,decide_eq_true_eq] at hiff
      · have hnext : Paced (2^31) 0 ((pre ++ [c]).map Call.time) := by
          rw [List.map_append,paced_append]
          exact ⟨hpre,List.isChain_cons_cons.mpr ⟨hc,.singleton _⟩⟩
        have hfresh := (synced_after t hnext).fresh
        rwa [List.map_append,List.map_cons,List.map_nil,List.getLastD_concat] at hfresh
    · have hstatus : (run step .initial pre).linkStatus = lastLinkBit pre :=
        latch_run step (fires .link) step_linkStatus .initial pre
      rw [filter_actions,hstatus]
      simp only [fires,decide_eq_true_eq]

/-- Calls before and behind the wrap of LocalTime, one of them a millisecond too early for the
ARP timer. -/
def wrapPlan : Schedule where
  calls := [⟨2^31-1,1⟩,⟨2^32-2,0⟩,⟨2^32+4997,0⟩,⟨2^32+4998,1⟩]
  paced := by
    simp only [List.map_cons,List.map_nil,paced_cons]
    exact ⟨by decide,by decide,by decide,by decide,.singleton _⟩

theorem arp_timer_over_wrap :
    let before := run step .initial [⟨2^31-1,1⟩,⟨2^32-2,0⟩]
    Timing.timeUpdate^[2^32+4998] 0 = 4998 ∧ .etharpTmr ∉ actions before ⟨2^32+4997,0⟩ ∧
      .etharpTmr ∈ actions (step before ⟨2^32+4997,0⟩) ⟨2^32+4998,1⟩ := by
  intro before
  obtain ⟨-,hcalls,-⟩ := timers_keep_interval wrapPlan
  have hearly := ((hcalls [⟨2^31-1,1⟩,⟨2^32-2,0⟩] ⟨2^32+4997,0⟩ [⟨2^32+4998,1⟩] rfl).1 .arp).1
  have hdue := ((hcalls [⟨2^31-1,1⟩,⟨2^32-2,0⟩,⟨2^32+4997,0⟩] ⟨2^32+4998,1⟩ [] rfl).1 .arp).1
  refine ⟨(localTime_eq_clock _).trans rfl,fun h => absurd (hearly.mp h) ?_,hdue.mpr ?_⟩
  · decide
  · decide

end Stm32Dds.Periodic
