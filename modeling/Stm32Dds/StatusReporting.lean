import Stm32Dds.ErrorQueue
import Stm32Dds.Runs

/-! The status commands of ieee488.c and minimal.c over whole sessions. What the registers
and the error queue are for is said by a report: the errors that were not read yet, the
events since the last query, and the two enable masks. -/

set_option autoImplicit false

namespace Stm32Dds.Status
open Bytes Replies Results

/-- What the parser and the callbacks ask of the library. *RST and *WAI do nothing; the
callbacks of scpi.c push errors and write results. -/
inductive Call
  | errorPush (err : ErrorCode)
  | cls
  | ese (value : BitVec 32)
  | eseQ
  | esrQ
  | opc
  | opcQ
  | sre (value : BitVec 32)
  | sreQ
  | stbQ
  | errorNextQ
  | errorCountQ
  | characters (data : List Byte)
  | number (value : BitVec 32) (base : Base) (sign : Bool)
  | block (data : List Byte)

section
variable (c : Context)

def result (f : Output → Output) : Context := { c with out := f c.out }

def resultReg (name : RegName) : Context :=
  result c (Output.resultInt32 ((c.registers name).setWidth 32))

def setReg (name : RegName) (val : RegVal) : Context :=
  { c with registers := regSet name val c.registers }

def coreCls : Context :=
  let c := { c with registers := eventClear c.registers }
  let c := errorClear c
  let c := setReg c .oper 0
  setReg c .ques 0

def coreEse (value : BitVec 32) : Context := setReg c .ese (value.setWidth 16)

def coreEsrQ : Context := setReg (resultReg c .esr) .esr 0

def coreOpc : Context := { c with registers := regSetBits .esr Esr.opc c.registers }

def coreSre (value : BitVec 32) : Context := setReg c .sre (value.setWidth 16)

def systemErrorNextQ : Context :=
  let (error,c) := errorPop c
  result c (Output.resultError error (errorTranslate error))

def systemErrorCountQ : Context :=
  result c (Output.resultInt32 (BitVec.ofNat 32 (errorCount c)))

end

def Call.step (c : Context) : Call → Context
  | .errorPush err => Status.errorPush err c
  | .cls => coreCls c
  | .ese value => coreEse c value
  | .eseQ => resultReg c .ese
  | .esrQ => coreEsrQ c
  | .opc => coreOpc c
  | .opcQ => result c (Output.resultInt32 1)
  | .sre value => coreSre c value
  | .sreQ => resultReg c .sre
  | .stbQ => resultReg c .stb
  | .errorNextQ => systemErrorNextQ c
  | .errorCountQ => systemErrorCountQ c
  | .characters data => result c (Output.resultCharacters data)
  | .number value base sign => result c (Output.resultUInt32BaseSign value base sign)
  | .block data => result c (Output.resultArbitraryBlock data)

/-- What a client can know of the device by its status commands. -/
structure Report where
  errors : List ErrorCode
  events : RegVal
  eventEnable : RegVal
  serviceEnable : RegVal
  out : Output

namespace Report

/-- A bit for unread errors, one for enabled events, and the service request if one of the
two is enabled. -/
def stb (s : Report) : RegVal :=
  let conditions := flag (s.errors ≠ []) Stb.qma ||| flag (enabled s.events s.eventEnable) Stb.esr
  if conditions &&& s.serviceEnable ≠ 0 then conditions ||| Stb.srq else conditions

/-- The class of an error. Codes above zero, which a device can define, are in none. -/
def eventOf (err : ErrorCode) : RegVal :=
  match -err.toInt/100 with
  | 1 => Esr.cer
  | 2 => Esr.eer
  | 3 => Esr.der
  | 4 => Esr.qer
  | 5 => Esr.pon
  | 6 => Esr.urq
  | 7 => Esr.req
  | 8 => Esr.opc
  | _ => 0

def answer (value : RegVal) (s : Report) : Report :=
  { s with out := s.out.resultInt32 (value.setWidth 32) }

def readUp (s : Report) : Report :=
  if s.errors = [] then s else { s with errors := [], out := emit noError s.out }

def step (s : Report) : Call → Report
  | .errorPush err =>
    { s with
      errors := RingBuffer.push errorQueueSize queueOverflow s.errors err
      events := s.events ||| eventOf err
      out := if s.errors.length < errorQueueSize then emit err s.out
        else emit queueOverflow (emit err s.out) }
  | .cls => readUp { s with events := 0 }
  | .ese value => { s with eventEnable := value.setWidth 16 }
  | .eseQ => s.answer s.eventEnable
  | .esrQ => { s.answer s.events with events := 0 }
  | .opc => { s with events := s.events ||| Esr.opc }
  | .opcQ => s.answer 1
  | .sre value => { s with serviceEnable := value.setWidth 16 }
  | .sreQ => s.answer s.serviceEnable
  | .stbQ => s.answer s.stb
  | .errorNextQ =>
    match s.errors with
    | [] => { s with out := s.out.resultError noError (errorTranslate noError) }
    | [e] => { s.readUp with out := s.readUp.out.resultError e (errorTranslate e) }
    | e :: es => { s with errors := es, out := s.out.resultError e (errorTranslate e) }
  | .errorCountQ => { s with out := s.out.resultInt32 (BitVec.ofNat 32 s.errors.length) }
  | .characters data => { s with out := s.out.resultCharacters data }
  | .number value base sign => { s with out := s.out.resultUInt32BaseSign value base sign }
  | .block data => { s with out := s.out.resultArbitraryBlock data }

def init : Report := ⟨[],0,0,0,⟨0,[]⟩⟩

def register (s : Report) : Registers
  | .stb => s.stb
  | .sre => s.serviceEnable
  | .esr => s.events
  | .ese => s.eventEnable
  | _ => 0

end Report

structure Reports (s : Report) (c : Context) : Prop where
  errors : c.errorQueue.contents = s.errors
  registers : c.registers = s.register
  out : c.out = s.out

section Registers
variable {s s' : Report}

theorem summary_eq (a b : Bool) : summary a false b false = flag a Stb.qma ||| flag b Stb.esr := by
  cases a <;> cases b <;> decide

theorem coherent_register (s : Report) : Coherent (s.errors ≠ []) s.register := by
  have hzero : enabled 0 0 = false := by decide
  simp only [Coherent,statusByte,Report.register,hzero,summary_eq]
  rfl

theorem register_ext {r : Registers} (h : ∀ m, m ≠ .stb → r m = s.register m)
    (hstb : Coherent (s.errors ≠ []) r) : r = s.register := by
  have hbyte : r .stb = s.register .stb := by
    rw [hstb,coherent_register s,statusByte_congr h]
  funext m
  by_cases hm : m = .stb
  · rw [hm,hbyte]
  · exact h m hm

theorem regSet_register {name : RegName} (hname : name ≠ .stb) {val : RegVal}
    (herrors : s'.errors = s.errors)
    (h : ∀ m, m ≠ .stb → s'.register m = Function.update s.register name val m) :
    regSet name val s.register = s'.register := by
  apply register_ext
  · intro m hm
    rw [h m hm]
    by_cases hne : m = name
    · rw [hne,regSet_self _ _ hname,Function.update_self]
    · rw [regSet_of_ne _ _ hm hne,Function.update_of_ne hne]
  · rw [herrors]
    exact coherent_regSet (coherent_register s) hname val

theorem regSet_esr (s : Report) (val : RegVal) :
    regSet .esr val s.register = { s with events := val : Report }.register :=
  regSet_register (by decide) rfl fun m hm => by cases m <;> first | contradiction | rfl

theorem regSet_ese (s : Report) (val : RegVal) :
    regSet .ese val s.register = { s with eventEnable := val : Report }.register :=
  regSet_register (by decide) rfl fun m hm => by cases m <;> first | contradiction | rfl

theorem regSet_sre (s : Report) (val : RegVal) :
    regSet .sre val s.register = { s with serviceEnable := val : Report }.register :=
  regSet_register (by decide) rfl fun m hm => by cases m <;> first | contradiction | rfl

/-- OPER and QUES are only ever cleared. -/
theorem regSet_zero (s : Report) {name : RegName} (hname : name = .oper ∨ name = .ques) :
    regSet name 0 s.register = s.register := by
  obtain rfl | rfl := hname
  · exact regSet_register (by decide) rfl fun m hm => by cases m <;> first | contradiction | rfl
  · exact regSet_register (by decide) rfl fun m hm => by cases m <;> first | contradiction | rfl

theorem setQma_register (s : Report) {errors : List ErrorCode} (h : errors ≠ []) :
    regSetBits .stb Stb.qma s.register = { s with errors := errors : Report }.register := by
  refine register_ext (fun m hm => ?_) ?_
  · rw [regSetBits,regSet_of_ne _ _ hm hm]
    cases m <;> first | contradiction | rfl
  · rw [decide_eq_true h]
    exact coherent_setQma (coherent_register s)

theorem clearQma_register (s : Report) :
    regClearBits .stb Stb.qma s.register = { s with errors := [] : Report }.register := by
  refine register_ext (fun m hm => ?_) ?_
  · rw [regClearBits,regSet_of_ne _ _ hm hm]
    cases m <;> first | contradiction | rfl
  · exact coherent_clearQma (coherent_register s)

theorem stb_and_qma (s : Report) : s.register .stb &&& Stb.qma ≠ 0 ↔ s.errors ≠ [] := by
  have hbit : ∀ (a b : Bool) (enable : RegVal),
      withService enable (flag a Stb.qma ||| flag b Stb.esr) &&& Stb.qma ≠ 0 ↔ a = true := by
    intro a b enable
    unfold withService
    split <;> cases a <;> cases b <;> decide
  exact (hbit _ _ s.serviceEnable).trans decide_eq_true_iff

def ErrorReg.bitFor (err : ErrorCode) (e : ErrorReg) : RegVal :=
  if err.toInt ≤ e.errFrom ∧ err.toInt ≥ e.errTo then e.esrBit else 0

/-- Each row stands for one class of errors. The row of the positive codes has the ends of
its range the wrong way round: no code is at most 1 and at least 32767. -/
theorem errs_eventOf (err : ErrorCode) (events : RegVal) :
    errs.foldl (fun v e => v ||| e.bitFor err) events = events ||| Report.eventOf err := by
  unfold Report.eventOf
  split <;> simp only [errs,List.foldl_cons,List.foldl_nil,ErrorReg.bitFor,imp_false] at *
  all_goals
    repeat first | rw [if_neg (by omega)] | rw [if_pos (by omega)]
    simp

theorem errs_register (err : ErrorCode) (s : Report) :
    errs.foldl (errorEvent err) s.register =
      { s with events := s.events ||| Report.eventOf err : Report }.register := by
  have hfold : ∀ (rows : List ErrorReg) (t : Report), rows.foldl (errorEvent err) t.register =
      { t with events := rows.foldl (fun v e => v ||| e.bitFor err) t.events : Report }.register := by
    intro rows
    induction rows with
    | nil => exact fun t => rfl
    | cons e rows ih =>
      intro t
      rw [List.foldl_cons,List.foldl_cons,errorEvent,ErrorReg.bitFor]
      split
      · rw [regSetBits,regSet_esr,ih]
        rfl
      · rw [ih t]
        congr 3
        exact BitVec.or_zero.symm
  rw [hfold,errs_eventOf]

end Registers

section Steps
variable {s : Report} {c : Context}

theorem Reports.result (h : Reports s c) (f : Output → Output) :
    Reports { s with out := f s.out } (result c f) :=
  ⟨h.errors,h.registers,congrArg f h.out⟩

theorem Reports.resultReg (h : Reports s c) (name : RegName) :
    Reports (s.answer (s.register name)) (resultReg c name) := by
  rw [← h.registers]
  exact h.result _

theorem Reports.setReg (h : Reports s c) {s' : Report} {name : RegName} {val : RegVal}
    (hregs : regSet name val s.register = s'.register) (herrors : s'.errors = s.errors)
    (hout : s'.out = s.out) : Reports s' (setReg c name val) :=
  ⟨h.errors.trans herrors.symm,(congrArg (regSet name val) h.registers).trans hregs,
    h.out.trans hout.symm⟩

theorem Reports.errorEmit (h : Reports s c) (hne : s.errors ≠ []) (err : ErrorCode) :
    Reports { s with out := emit err s.out } (errorEmit err c) where
  errors := h.errors
  registers := by
    rw [Status.errorEmit,h.registers,setQma_register s hne]
    rfl
  out := congrArg (emit err) h.out

theorem Reports.errorPush (h : Reports s c) (err : ErrorCode) :
    Reports (s.step (.errorPush err)) (errorPush err c) := by
  obtain ⟨hadded,hqueue⟩ := contents_errorAddInternal err c
  obtain ⟨hregs,hout⟩ := errorAddInternal_rest err c
  rw [h.errors] at hadded hqueue
  -- the report behind the loop over the event classes and the first notice
  have hfirst : Reports { s with
        errors := RingBuffer.push errorQueueSize queueOverflow s.errors err
        events := s.events ||| Report.eventOf err
        out := emit err s.out }
      (Status.errorEmit err { (errorAddInternal err c).2 with
        registers := errs.foldl (errorEvent err) (errorAddInternal err c).2.registers }) := by
    refine ⟨hqueue,?_,?_⟩
    · simp only [Status.errorEmit]
      rw [hregs,h.registers,errs_register,setQma_register _ (RingBuffer.push_ne_nil s.errors err)]
      rfl
    · exact congrArg (emit err) (hout.trans h.out)
  unfold Status.errorPush
  simp only [hadded,decide_eq_true_eq,Report.step]
  split
  · exact ⟨hfirst.errors,hfirst.registers,hfirst.out⟩
  · have hsecond := hfirst.errorEmit (RingBuffer.push_ne_nil s.errors err) queueOverflow
    exact ⟨hsecond.errors,hsecond.registers,hsecond.out⟩

theorem reports_errorEmitEmpty {errors : List ErrorCode} (hqueue : c.errorQueue.contents = errors)
    (hregs : c.registers = s.register) (hout : c.out = s.out) (hempty : s.errors = [] → errors = []) :
    Reports (if errors = [] then s.readUp else { s with errors := errors }) (errorEmitEmpty c) := by
  have hcond : (errorCount c = 0 ∧ c.registers .stb &&& Stb.qma ≠ 0) ↔
      errors = [] ∧ s.errors ≠ [] := by
    rw [hregs,stb_and_qma,← hqueue,← List.length_eq_zero_iff,Fifo.contents_length]
    rfl
  unfold errorEmitEmpty
  by_cases herrors : errors = []
  · subst herrors
    by_cases hs : s.errors = []
    · rw [if_neg fun hc => (hcond.mp hc).2 hs,if_pos rfl,Report.readUp,if_pos hs]
      exact ⟨hqueue.trans hs.symm,hregs,hout⟩
    · rw [if_pos (hcond.mpr ⟨rfl,hs⟩),if_pos rfl,Report.readUp,if_neg hs]
      exact ⟨hqueue,(congrArg _ hregs).trans (clearQma_register s),congrArg (emit noError) hout⟩
  · have hs : s.errors ≠ [] := fun h => herrors (hempty h)
    have hsame : s.register = { s with errors := errors : Report }.register := by
      refine register_ext (fun m hm => ?_) ?_
      · cases m <;> first | contradiction | rfl
      · rw [decide_eq_true herrors]
        have hold := coherent_register s
        rwa [decide_eq_true hs] at hold
    rw [if_neg fun hc => herrors (hcond.mp hc).1,if_neg herrors]
    exact ⟨hqueue,hregs.trans hsame,hout⟩

theorem Reports.coreCls (h : Reports s c) : Reports (s.step .cls) (coreCls c) := by
  have hevents : Reports { s with events := 0 }
      { c with registers := eventClear c.registers } := h.setReg (regSet_esr s 0) rfl rfl
  have hcleared : (fifoClear c.errorQueue).contents = [] := rfl
  have hclear : Reports (s.step .cls) (errorClear { c with registers := eventClear c.registers }) :=
    reports_errorEmitEmpty
      (c := { c with registers := eventClear c.registers, errorQueue := fifoClear c.errorQueue })
      hcleared hevents.registers hevents.out fun _ => rfl
  have hoper := hclear.setReg (regSet_zero _ (.inl rfl)) rfl rfl
  exact hoper.setReg (regSet_zero _ (.inr rfl)) rfl rfl

theorem Reports.systemErrorNextQ (h : Reports s c) :
    Reports (s.step .errorNextQ) (systemErrorNextQ c) := by
  obtain ⟨hhead,htail⟩ := contents_fifoRemove c.errorQueue
  rw [h.errors] at hhead htail
  have hpop := reports_errorEmitEmpty (s := s)
    (c := { c with errorQueue := (fifoRemove c.errorQueue).2 }) htail h.registers h.out
    (fun hnil => by rw [hnil]; rfl)
  have herror : (errorPop c).1 = s.errors.head?.getD noError := congrArg (Option.getD · noError) hhead
  have hstep : s.step .errorNextQ =
      let t := if s.errors.tail = [] then s.readUp else { s with errors := s.errors.tail }
      let error := s.errors.head?.getD noError
      { t with out := t.out.resultError error (errorTranslate error) } := by
    unfold Report.step
    cases hs : s.errors with
    | nil => simp [Report.readUp,hs]
    | cons e es => cases es <;> simp
  rw [hstep,← herror]
  exact hpop.result _

theorem Reports.step (h : Reports s c) (call : Call) : Reports (s.step call) (call.step c) := by
  cases call with
  | errorPush err => exact h.errorPush err
  | cls => exact h.coreCls
  | ese value => exact h.setReg (regSet_ese s _) rfl rfl
  | eseQ => exact h.resultReg .ese
  | esrQ => exact (h.resultReg .esr).setReg (regSet_esr _ 0) rfl rfl
  | opc =>
    have hesr : c.registers .esr = s.events := congrFun h.registers .esr
    rw [Call.step,coreOpc,regSetBits,hesr]
    exact h.setReg (regSet_esr s (s.events ||| Esr.opc)) rfl rfl
  | opcQ => exact h.result _
  | sre value => exact h.setReg (regSet_sre s _) rfl rfl
  | sreQ => exact h.resultReg .sre
  | stbQ => exact h.resultReg .stb
  | errorNextQ => exact h.systemErrorNextQ
  | errorCountQ =>
    have hcount : errorCount c = s.errors.length := by
      rw [← h.errors,Fifo.contents_length]
      rfl
    rw [Call.step,systemErrorCountQ,hcount]
    exact h.result _
  | characters data => exact h.result _
  | number value base sign => exact h.result _
  | block data => exact h.result _

end Steps

theorem reports_init (data : Vector ErrorCode errorQueueSize) :
    Reports Report.init (scpiInit data) := by
  refine ⟨rfl,?_,rfl⟩
  funext m
  cases m <;> rfl

theorem reports_run {s : Report} {c : Context} (h : Reports s c) (calls : List Call) :
    Reports (Runs.run Report.step s calls) (Runs.run Call.step c calls) := by
  induction calls generalizing s c with
  | nil => exact h
  | cons call calls ih => exact ih (h.step call)

/-- In every session the queue, the registers and what the calls write are what the report
says: *STB? shows unread errors, enabled events and the service request, *ESR? the classes
of the errors since the last look. What the parser itself writes between commands, and its
resetting of output_count, are no calls. -/
theorem session_follows_report (data : Vector ErrorCode errorQueueSize) (calls : List Call) :
    let c := Runs.run Call.step (scpiInit data) calls
    let s := Runs.run Report.step Report.init calls
    c.errorQueue.contents = s.errors ∧ c.registers = s.register ∧ c.out = s.out := by
  intro c s
  have h : Reports s c := reports_run (reports_init data) calls
  exact ⟨h.errors,h.registers,h.out⟩

end Stm32Dds.Status
