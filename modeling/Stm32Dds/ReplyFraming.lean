import Stm32Dds.PacketStream
import Stm32Dds.StatusReporting

set_option autoImplicit false

namespace Stm32Dds.Status
open Bytes Replies Results

/-- A callback as the library sees it: the calls it makes, whether it returns SCPI_RES_OK,
and whether it leaves data of its unit unread. No callback pushes the code 0. -/
structure Outcome where
  calls : List Call
  ok : Bool
  unread : Bool
  proper : .errorPush noError ∉ calls

inductive Turn
  | invalid
  | empty
  | undefined
  | command (o : Outcome)

def invalidCharacter : ErrorCode := -101
def parameterNotAllowed : ErrorCode := -108
def undefinedHeader : ErrorCode := -113
def executionError : ErrorCode := -200

def processCommand (o : Outcome) (c : Context) : Bool × Context :=
  let out := c.out.writeSemicolon
  let c := { c with cmdError := false, out := { out with count := 0 } }
  let c := Runs.run Call.step c o.calls
  let result := o.ok && !c.cmdError
  let c := if o.ok || c.cmdError then c else errorPush executionError c
  if o.unread && !c.cmdError then (false,errorPush parameterNotAllowed c) else (result,c)

/-- A round of the loop of SCPI_Parse, with the result so far. -/
def Turn.step (p : Bool × Context) : Turn → Bool × Context
  | .invalid => (false,errorPush invalidCharacter p.2)
  | .empty => p
  | .undefined => (false,errorPush undefinedHeader p.2)
  | .command o =>
    let q := processCommand o p.2
    (p.1 && q.1,q.2)

/-- The units of a packet. A header is completed and looked up; what the callback of its
pattern does depends on the data of the unit and on the rest of the device. -/
def turns {σ : Type} (callback : String → Lexer.Message → σ → Outcome × σ) :
    Scpi.Previous → List Lexer.Message → σ → List Turn
  | _, [], _ => []
  | prev, m :: ms, s =>
    let next := prev.behind (Stream.unitHeader m)
    if m.invalid then .invalid :: turns callback next ms s
    else if m.header = [] then .empty :: turns callback next ms s
    else
      match Stream.findPattern (Scpi.composeCompoundCommand prev.header (Stream.chars m.header)) with
      | none => .undefined :: turns callback next ms s
      | some pattern =>
        let (o,s) := callback pattern m s
        .command o :: turns callback next ms s

def scpiParse (turns : List Turn) (c : Context) : Bool × Context :=
  let p := turns.foldl Turn.step (true,{ c with out := { c.out with count := 0 } })
  (p.1,{ p.2 with out := p.2.out.writeNewLine })

section Notices

/-- A call of interface->error with an error; the code 0 says that there is none any more. -/
def isNotice : Piece → Bool
  | .error err _ => err ≠ noError
  | .write _ => false

def notices (o : Output) : Nat := o.pieces.countP isNotice

@[simp] theorem notices_writeData (data : List Byte) (o : Output) :
    notices (o.writeData data) = notices o := by
  unfold Output.writeData
  split <;> simp [notices,isNotice]

@[simp] theorem notices_writeDelimiter (o : Output) : notices o.writeDelimiter = notices o := by
  unfold Output.writeDelimiter
  split <;> simp

@[simp] theorem notices_counted (o : Output) : notices o.counted = notices o := rfl

@[simp] theorem notices_resultInt32 (val : BitVec 32) (o : Output) :
    notices (o.resultInt32 val) = notices o := by
  simp [Output.resultInt32,Output.resultUInt32BaseSign]

theorem notices_emit (err : ErrorCode) (o : Output) :
    notices (emit err o) = notices o + if err ≠ noError then 1 else 0 := by
  simp [notices,emit,isNotice,List.countP_cons]

theorem notices_errorEmitEmpty (c : Context) : notices (errorEmitEmpty c).out = notices c.out := by
  unfold errorEmitEmpty
  split
  · simp [notices_emit]
  · rfl

theorem notices_errorPush {err : ErrorCode} (h : err ≠ noError) (c : Context) :
    notices c.out < notices (errorPush err c).out := by
  have hout := (errorAddInternal_rest err c).2
  unfold errorPush
  cases hadded : (errorAddInternal err c).1 <;>
    simp [hadded,errorEmit,notices_emit,hout,h]
  omega

theorem call_step (call : Call) (c : Context) (h : ∀ err, call ≠ .errorPush err) :
    (call.step c).cmdError = c.cmdError ∧ notices (call.step c).out = notices c.out := by
  cases call with
  | errorPush err => exact absurd rfl (h err)
  | cls =>
    have hempty := notices_errorEmitEmpty
      { c with registers := eventClear c.registers, errorQueue := fifoClear c.errorQueue }
    constructor
    · simp only [Call.step,coreCls,setReg,errorClear,errorEmitEmpty]
      split <;> rfl
    · exact hempty
  | errorNextQ =>
    have hempty := notices_errorEmitEmpty { c with errorQueue := (fifoRemove c.errorQueue).2 }
    constructor
    · simp only [Call.step,systemErrorNextQ,errorPop,result,errorEmitEmpty]
      split <;> rfl
    · simp only [Call.step,systemErrorNextQ,errorPop,result,Output.resultError,notices_writeData,
        notices_writeDelimiter,notices_resultInt32]
      exact hempty
  | ese | sre | opc => exact ⟨rfl,rfl⟩
  | eseQ | esrQ | opcQ | sreQ | stbQ | errorCountQ => exact ⟨rfl,notices_resultInt32 _ _⟩
  | characters data => exact ⟨rfl,by simp [Call.step,result,Output.resultCharacters]⟩
  | number value base sign => exact ⟨rfl,by simp [Call.step,result,Output.resultUInt32BaseSign]⟩
  | block data => exact ⟨rfl,by simp [Call.step,result,Output.resultArbitraryBlock]⟩

def Call.isPush : Call → Bool
  | .errorPush _ => true
  | _ => false

theorem errorPush_cmdError (err : ErrorCode) (c : Context) : (errorPush err c).cmdError = true := by
  unfold errorPush
  rfl

theorem calls_run {calls : List Call} (hproper : .errorPush noError ∉ calls) (c : Context) :
    (Runs.run Call.step c calls).cmdError = (c.cmdError || calls.any Call.isPush) ∧
      (if calls.any Call.isPush then notices c.out < notices (Runs.run Call.step c calls).out
        else notices (Runs.run Call.step c calls).out = notices c.out) := by
  induction calls generalizing c with
  | nil => simp [Runs.run]
  | cons call calls ih =>
    obtain ⟨herror,hnotices⟩ := ih (fun h => hproper (List.mem_cons_of_mem _ h)) (call.step c)
    rw [Runs.run,herror,List.any_cons]
    by_cases hpush : ∃ err, call = .errorPush err
    · obtain ⟨err,rfl⟩ := hpush
      have hne : err ≠ noError := fun h => hproper (by rw [h]; exact List.mem_cons_self)
      have hlt := notices_errorPush hne c
      refine ⟨by simp [Call.isPush,Call.step,errorPush_cmdError],?_⟩
      simp only [Call.isPush,Bool.true_or,if_true]
      split at hnotices
      · exact hlt.trans hnotices
      · rw [hnotices]
        exact hlt
    · have hnone : call.isPush = false := by
        cases call <;> first | rfl | exact absurd ⟨_,rfl⟩ hpush
      obtain ⟨hcmd,hout⟩ := call_step call c fun err h => hpush ⟨err,h⟩
      rw [hnone,Bool.false_or,hcmd,← hout]
      exact ⟨rfl,hnotices⟩

def Turn.good : Turn → Bool
  | .empty => true
  | .command o => o.ok && !o.unread && !o.calls.any Call.isPush
  | _ => false

theorem notices_writeSemicolon (o : Output) : notices o.writeSemicolon = notices o := by
  unfold Output.writeSemicolon
  split <;> simp

theorem processCommand_reports (o : Outcome) (c : Context) :
    (processCommand o c).1 = (Turn.command o).good ∧
      (if (Turn.command o).good then notices (processCommand o c).2.out = notices c.out
        else notices c.out < notices (processCommand o c).2.out) := by
  have hsemicolon := notices_writeSemicolon c.out
  obtain ⟨herror,hnotices⟩ := calls_run o.proper
    { c with cmdError := false, out := { c.out.writeSemicolon with count := 0 } }
  generalize hd : Runs.run Call.step
    { c with cmdError := false, out := { c.out.writeSemicolon with count := 0 } } o.calls = d at *
  have hstart : notices { c.out.writeSemicolon with count := 0 : Output } = notices c.out := hsemicolon
  simp only [hstart,Bool.false_or] at hnotices herror
  have hexec := notices_errorPush (show executionError ≠ noError by decide) d
  have hparam := notices_errorPush (show parameterNotAllowed ≠ noError by decide) d
  simp only [processCommand,hd,Turn.good,herror]
  cases hok : o.ok <;> cases hunread : o.unread <;> cases hpush : o.calls.any Call.isPush <;>
    simp [hpush,herror,errorPush_cmdError] at hnotices ⊢ <;> omega

theorem Turn.step_reports (t : Turn) (p : Bool × Context) :
    (t.step p).1 = (p.1 && t.good) ∧
      (if t.good then notices (t.step p).2.out = notices p.2.out
        else notices p.2.out < notices (t.step p).2.out) := by
  cases t with
  | invalid => exact ⟨(Bool.and_false _).symm,notices_errorPush (by decide) p.2⟩
  | empty => exact ⟨(Bool.and_true _).symm,rfl⟩
  | undefined => exact ⟨(Bool.and_false _).symm,notices_errorPush (by decide) p.2⟩
  | command o =>
    obtain ⟨hresult,hnotices⟩ := processCommand_reports o p.2
    exact ⟨congrArg (p.1 && ·) hresult,hnotices⟩

theorem turns_report (turns : List Turn) (p : Bool × Context) :
    let q := turns.foldl Turn.step p
    q.1 = (p.1 && turns.all Turn.good) ∧
      notices p.2.out + turns.countP (fun t => !t.good) ≤ notices q.2.out ∧
      (turns.all Turn.good = true → notices q.2.out = notices p.2.out) := by
  induction turns generalizing p with
  | nil => simp
  | cons t turns ih =>
    obtain ⟨hresult,hle,heq⟩ := ih (t.step p)
    obtain ⟨hstep,hnotices⟩ := t.step_reports p
    simp only [List.foldl_cons,List.all_cons,List.countP_cons]
    rw [hresult,hstep,Bool.and_assoc]
    refine ⟨rfl,?_,?_⟩
    · cases hgood : t.good <;> simp only [hgood,Bool.false_eq_true,if_false,if_true] at hnotices <;>
        simp <;> omega
    · intro hall
      simp only [Bool.and_eq_true] at hall
      rw [if_pos hall.1] at hnotices
      rw [heq hall.2,hnotices]

theorem notices_writeNewLine (o : Output) : notices o.writeNewLine = notices o := by
  unfold Output.writeNewLine
  split <;> simp

/-- SCPI_Parse fails exactly if a unit of the packet is not carried out without complaint:
an invalid character, an unknown header, a callback that fails or pushes an error, or data
that is left over. For each such unit interface->error is called at least once with a code
other than 0, and without such a unit it is not. -/
theorem packet_failures_reported {σ : Type} (callback : String → Lexer.Message → σ → Outcome × σ)
    (packet : List Byte) (s : σ) (c : Context) :
    let ts := turns callback .none (Lexer.units packet) s
    let p := scpiParse ts c
    (p.1 = true ↔ ∀ t ∈ ts, t.good = true) ∧
      notices c.out + ts.countP (fun t => !t.good) ≤ notices p.2.out ∧
      ((∀ t ∈ ts, t.good = true) → notices p.2.out = notices c.out) := by
  intro ts
  obtain ⟨hresult,hle,heq⟩ := turns_report ts (true,{ c with out := { c.out with count := 0 } })
  have hnewLine := notices_writeNewLine
    (ts.foldl Turn.step (true,{ c with out := { c.out with count := 0 } })).2.out
  simp only [scpiParse,hnewLine]
  rw [hresult,Bool.true_and,← List.all_eq_true]
  exact ⟨Iff.rfl,hle,heq⟩

end Notices

section Framing

def comma : List Byte := ascii ","
def semicolon : List Byte := ascii ";"

def written (o : Output) : List Byte := o.pieces.flatMap fun
  | .write data => data
  | .error _ _ => []

@[simp] theorem written_writeData (data : List Byte) (o : Output) :
    written (o.writeData data) = written o ++ data := by
  unfold Output.writeData
  split
  · rename_i h
    rw [h,List.append_nil]
  · simp [written]

@[simp] theorem written_emit (err : ErrorCode) (o : Output) : written (emit err o) = written o := by
  simp [written,emit]

@[simp] theorem written_counted (o : Output) : written o.counted = written o := rfl

@[simp] theorem count_writeData (data : List Byte) (o : Output) :
    (o.writeData data).count = o.count := by
  unfold Output.writeData
  split <;> rfl

@[simp] theorem count_writeDelimiter (o : Output) : o.writeDelimiter.count = o.count := by
  unfold Output.writeDelimiter
  split <;> simp

/-- A result of a command. No comma is written in front of a block. -/
structure Result where
  text : List Byte
  delimited : Bool

def numberResult (val : BitVec 32) (base : Base) (sign : Bool) : Result :=
  ⟨getBasePrefix base ++ uint32ToStrBaseSign val 33 base sign,true⟩

def errorResult (err : ErrorCode) : Result :=
  ⟨(numberResult (err.signExtend 32) .dec true).text ++
    (comma ++ quote :: (ascii (errorTranslate err) ++ [quote])),true⟩

def blockResult (data : List Byte) : Result :=
  let digits := uint32ToStrBaseSign (BitVec.ofNat 32 data.length) 10 .dec false
  ⟨ascii "#" ++ BitVec.ofNat 8 (digits.length+48) :: (digits ++ data),false⟩

def Call.result (c : Context) : Call → Option Result
  | .errorPush _ | .cls | .ese _ | .opc | .sre _ => none
  | .eseQ => some (numberResult ((c.registers .ese).setWidth 32) .dec true)
  | .esrQ => some (numberResult ((c.registers .esr).setWidth 32) .dec true)
  | .opcQ => some (numberResult 1 .dec true)
  | .sreQ => some (numberResult ((c.registers .sre).setWidth 32) .dec true)
  | .stbQ => some (numberResult ((c.registers .stb).setWidth 32) .dec true)
  | .errorNextQ => some (errorResult (errorPop c).1)
  | .errorCountQ => some (numberResult (BitVec.ofNat 32 (errorCount c)) .dec true)
  | .characters data => some ⟨data,true⟩
  | .number value base sign => some (numberResult value base sign)
  | .block data => some (blockResult data)

def callResults : Context → List Call → List Result
  | _, [] => []
  | c, call :: calls => (call.result c).toList ++ callResults (call.step c) calls

/-- The results behind others, or from the first one on. -/
def joined : Bool → List Result → List Byte
  | _, [] => []
  | behind, r :: rs => (if behind && r.delimited then comma else []) ++ (r.text ++ joined true rs)

structure Adds (o : Output) (r : Result) (o' : Output) : Prop where
  written : written o' = written o ++
    ((if decide (o.count > 0) && r.delimited then comma else []) ++ r.text)
  count : o'.count = o.count+1

section
variable (o : Output)

theorem written_writeDelimiter :
    written o.writeDelimiter = written o ++ if o.count > 0 then comma else [] := by
  unfold Output.writeDelimiter
  split <;> simp [comma]

theorem adds_characters (data : List Byte) : Adds o ⟨data,true⟩ (o.resultCharacters data) :=
  ⟨by simp [Output.resultCharacters,written_writeDelimiter],
    by simp [Output.resultCharacters,Output.counted]⟩

theorem adds_number (val : BitVec 32) (base : Base) (sign : Bool) :
    Adds o (numberResult val base sign) (o.resultUInt32BaseSign val base sign) :=
  ⟨by simp [Output.resultUInt32BaseSign,numberResult,written_writeDelimiter],
    by simp [Output.resultUInt32BaseSign,Output.counted]⟩

theorem adds_error (err : ErrorCode) :
    Adds o (errorResult err) (o.resultError err (errorTranslate err)) := by
  obtain ⟨hwritten,hcount⟩ := adds_number o (err.signExtend 32) .dec true
  refine ⟨?_,by simp [Output.resultError,Output.resultInt32,hcount]⟩
  simp [Output.resultError,Output.resultInt32,written_writeDelimiter,hwritten,hcount,errorResult,
    numberResult]

theorem adds_block (data : List Byte) : Adds o (blockResult data) (o.resultArbitraryBlock data) :=
  ⟨by simp [Output.resultArbitraryBlock,blockResult],
    by simp [Output.resultArbitraryBlock,Output.counted]⟩

end

theorem errorEmitEmpty_out (c : Context) :
    written (errorEmitEmpty c).out = written c.out ∧ (errorEmitEmpty c).out.count = c.out.count := by
  unfold errorEmitEmpty
  split
  · exact ⟨written_emit _ _,rfl⟩
  · exact ⟨rfl,rfl⟩

theorem step_adds {call : Call} {c : Context} {r : Result} (h : call.result c = some r) :
    Adds c.out r (call.step c).out := by
  cases call with
  | eseQ | esrQ | opcQ | sreQ | stbQ | errorCountQ | number =>
    cases h
    exact adds_number _ _ _ _
  | errorNextQ =>
    cases h
    obtain ⟨hwritten,hcount⟩ := errorEmitEmpty_out { c with errorQueue := (fifoRemove c.errorQueue).2 }
    have hadds := adds_error (errorPop c).2.out (errorPop c).1
    refine ⟨hadds.written.trans ?_,hadds.count.trans (congrArg (·+1) hcount)⟩
    rw [show written (errorPop c).2.out = written c.out from hwritten,
      show (errorPop c).2.out.count = c.out.count from hcount]
  | characters data =>
    cases h
    exact adds_characters _ _
  | block data =>
    cases h
    exact adds_block _ _
  | _ => cases h

theorem step_quiet {call : Call} (hpush : call.isPush = false) {c : Context}
    (h : call.result c = none) :
    written (call.step c).out = written c.out ∧ (call.step c).out.count = c.out.count := by
  cases call with
  | errorPush err => cases hpush
  | cls =>
    exact errorEmitEmpty_out
      { c with registers := eventClear c.registers, errorQueue := fifoClear c.errorQueue }
  | ese | opc | sre => exact ⟨rfl,rfl⟩
  | _ => cases h

theorem run_written {calls : List Call} (h : calls.any Call.isPush = false) (c : Context) :
    let d := Runs.run Call.step c calls
    written d.out = written c.out ++ joined (c.out.count > 0) (callResults c calls) ∧
      d.out.count = c.out.count + (callResults c calls).length := by
  induction calls generalizing c with
  | nil => simp [Runs.run,callResults,joined]
  | cons call calls ih =>
    rw [List.any_cons,Bool.or_eq_false_iff] at h
    obtain ⟨hwritten,hcount⟩ := ih h.2 (call.step c)
    rw [Runs.run,callResults]
    cases hr : call.result c with
    | none =>
      obtain ⟨hsame,hzero⟩ := step_quiet h.1 hr
      rw [hsame,hzero] at hwritten
      rw [hzero] at hcount
      exact ⟨hwritten,hcount⟩
    | some r =>
      obtain ⟨hadded,hone⟩ := step_adds hr
      rw [hadded,hone] at hwritten
      rw [hone] at hcount
      refine ⟨?_,?_⟩
      · simp [hwritten,joined]
      · simp only [hcount,Option.toList_some,List.length_append,List.length_singleton]
        omega

def Context.fresh (c : Context) : Context :=
  { c with cmdError := false, out := { c.out.writeSemicolon with count := 0 } }

/-- What the commands of a packet answer, each in the context it is called in. -/
def answers : Context → List Turn → List (List Result)
  | _, [] => []
  | c, t :: ts =>
    (match t with
    | .command o => [callResults c.fresh o.calls]
    | _ => []) ++ answers (t.step (true,c)).2 ts

def answered (commands : List (List Result)) : List (List Byte) :=
  (commands.filter fun rs => !rs.isEmpty).map (joined false)

theorem processCommand_good {o : Outcome} (h : (Turn.command o).good = true) (c : Context) :
    (processCommand o c).2 = Runs.run Call.step c.fresh o.calls := by
  simp only [Turn.good,Bool.and_eq_true,Bool.not_eq_true'] at h
  obtain ⟨⟨hok,hunread⟩,hpush⟩ := h
  have herror := (calls_run o.proper c.fresh).1
  rw [hpush] at herror
  simp only [processCommand,hok,hunread,Bool.true_or,if_true,Bool.false_and]
  rfl

theorem written_writeSemicolon (o : Output) :
    written o.writeSemicolon = written o ++ if o.count > 0 then semicolon else [] := by
  unfold Output.writeSemicolon
  split <;> simp [semicolon]

theorem command_written {o : Outcome} (h : (Turn.command o).good = true) (c : Context) :
    let d := (processCommand o c).2
    d.out.count = (callResults c.fresh o.calls).length ∧
      written d.out.writeSemicolon = written c.out.writeSemicolon ++
        (answered [callResults c.fresh o.calls]).flatMap (· ++ semicolon) := by
  have hpush : o.calls.any Call.isPush = false := by
    simp only [Turn.good,Bool.and_eq_true,Bool.not_eq_true'] at h
    exact h.2
  obtain ⟨hwritten,hcount⟩ := run_written hpush c.fresh
  rw [← processCommand_good h] at hwritten hcount
  have hzero : c.fresh.out.count = 0 := rfl
  rw [hzero,Nat.zero_add] at hcount
  refine ⟨hcount,?_⟩
  rw [written_writeSemicolon,hwritten,hcount,hzero]
  change written c.out.writeSemicolon ++ _ ++ _ = _
  cases callResults c.fresh o.calls with
  | nil => simp [joined,answered]
  | cons r rs => simp [answered]

/-- Before the end of the line: a semicolon is owed if the last command has answered. -/
theorem framed_turns {ts : List Turn} (h : ∀ t ∈ ts, t.good = true) (p : Bool × Context) :
    let q := ts.foldl Turn.step p
    q.2.out.count = ((answers p.2 ts).getLast?.map List.length).getD p.2.out.count ∧
      written q.2.out.writeSemicolon =
        written p.2.out.writeSemicolon ++ (answered (answers p.2 ts)).flatMap (· ++ semicolon) := by
  induction ts generalizing p with
  | nil => simp [answers,answered]
  | cons t ts ih =>
    have hrest := ih (fun t' ht' => h t' (List.mem_cons_of_mem _ ht')) (t.step p)
    have hgood := h t List.mem_cons_self
    cases t with
    | invalid | undefined => cases hgood
    | empty => exact hrest
    | command o =>
      obtain ⟨hcount,hwritten⟩ := command_written hgood p.2
      obtain ⟨hcounts,hwrittens⟩ := hrest
      have hnext : ((Turn.command o).step p).2 = (processCommand o p.2).2 := rfl
      rw [hnext,hcount] at hcounts
      rw [hnext,hwritten] at hwrittens
      have hanswers : answers p.2 (.command o :: ts) =
          callResults p.2.fresh o.calls :: answers (processCommand o p.2).2 ts := rfl
      rw [List.foldl_cons,hanswers]
      refine ⟨hcounts.trans ?_,hwrittens.trans ?_⟩
      · rw [List.getLast?_cons]
        cases (answers (processCommand o p.2).2 ts).getLast? <;> rfl
      · cases callResults p.2.fresh o.calls <;> simp [answered]

theorem intercalate_cons (sep x : List Byte) (xs : List (List Byte)) :
    List.intercalate sep (x :: xs) = x ++ xs.flatMap (sep ++ ·) := by
  induction xs generalizing x with
  | nil => simp [List.intercalate]
  | cons y ys ih =>
    have hrest := ih y
    simp only [List.intercalate,List.intersperse_cons_cons,List.flatten_cons] at hrest ⊢
    rw [hrest]
    simp

theorem intercalate_end (sep : List Byte) {xs : List (List Byte)} (h : xs ≠ []) :
    xs.flatMap (· ++ sep) = List.intercalate sep xs ++ sep := by
  obtain ⟨x,xs,rfl⟩ := List.exists_cons_of_ne_nil h
  rw [intercalate_cons]
  clear h
  induction xs generalizing x with
  | nil => simp
  | cons y ys ih =>
    rw [List.flatMap_cons,ih y,List.flatMap_cons]
    simp

/-- The line of answers. Without an answer of the last command it is not ended. -/
def framed (commands : List (List Result)) : List Byte :=
  if commands.getLast?.getD [] ≠ [] then
    List.intercalate semicolon (answered commands) ++ lineEnding
  else (answered commands).flatMap (· ++ semicolon)

theorem answered_ne_nil {commands : List (List Result)} (h : commands.getLast?.getD [] ≠ []) :
    answered commands ≠ [] := by
  cases hl : commands.getLast? with
  | none => simp [hl] at h
  | some rs =>
    rw [hl,Option.getD_some] at h
    have hmem := List.mem_of_getLast? hl
    simp only [answered,ne_eq,List.map_eq_nil_iff,List.filter_eq_nil_iff]
    intro hnone
    exact hnone rs hmem (by simpa using h)

/-- The end of the line takes the place of the last semicolon. -/
theorem written_framed {o : Output} {before : List Byte} {commands : List (List Result)}
    (hcount : o.count = (commands.getLast?.getD []).length)
    (hwritten : written o.writeSemicolon = before ++ (answered commands).flatMap (· ++ semicolon)) :
    written o.writeNewLine = before ++ framed commands := by
  rw [written_writeSemicolon] at hwritten
  unfold Output.writeNewLine framed
  by_cases hlast : commands.getLast?.getD [] = []
  · have hzero : ¬o.count > 0 := by
      rw [hcount,hlast]
      exact Nat.lt_irrefl 0
    rw [if_neg hzero,List.append_nil] at hwritten
    rw [if_neg hzero,if_neg (not_not.mpr hlast),hwritten]
  · have hpos : o.count > 0 := by
      rw [hcount]
      exact List.length_pos_iff.mpr hlast
    rw [if_pos hpos,intercalate_end semicolon (answered_ne_nil hlast),← List.append_assoc]
      at hwritten
    rw [if_pos hpos,if_pos hlast,written_writeData,List.append_cancel_right hwritten,
      List.append_assoc]

/-- The reply to a packet whose units are all carried out. If the last command answers, the
answers are separated by semicolons and end with a line ending. If it does not, every answer
is followed by a semicolon, and the line is not ended. interface->error is at most told that
there is no error any more, by *CLS or by the query that has read the last one. -/
theorem reply_framed {σ : Type} (callback : String → Lexer.Message → σ → Outcome × σ)
    (packet : List Byte) (s : σ) (c : Context)
    (h : ∀ t ∈ turns callback .none (Lexer.units packet) s, t.good = true) :
    let ts := turns callback .none (Lexer.units packet) s
    let d := (scpiParse ts c).2
    let start := { c with out := { c.out with count := 0 } }
    written d.out = written c.out ++ framed (answers start ts) ∧ notices d.out = notices c.out := by
  intro ts d start
  have hnotices : notices d.out = notices c.out := by
    obtain ⟨-,-,heq⟩ := turns_report ts (true,start)
    exact (notices_writeNewLine _).trans (heq (List.all_eq_true.mpr h))
  refine ⟨?_,hnotices⟩
  obtain ⟨hcount,hwritten⟩ := framed_turns h (true,start)
  have hstart : written start.out.writeSemicolon = written c.out := by
    rw [written_writeSemicolon,if_neg (Nat.lt_irrefl 0),List.append_nil]
    rfl
  refine written_framed (hcount.trans ?_) (hwritten.trans (by rw [hstart]))
  cases (answers start ts).getLast? <;> rfl

def libraryCalls : String → List Call
  | "*CLS" => [.cls]
  | "*ESE?" => [.eseQ]
  | "*ESR?" => [.esrQ]
  | "*OPC" => [.opc]
  | "*OPC?" => [.opcQ]
  | "*SRE?" => [.sreQ]
  | "*STB?" => [.stbQ]
  | "SYSTem:ERRor[:NEXT]?" => [.errorNextQ]
  | "SYSTem:ERRor:COUNt?" => [.errorCountQ]
  | _ => []

theorem libraryCalls_proper (pattern : String) : .errorPush noError ∉ libraryCalls pattern := by
  unfold libraryCalls
  split <;> simp

/-- Reading the last error makes interface->error say that there is none any more, which is
no part of the line. -/
theorem reply_framed_status :
    let callback := fun pattern (_ : Lexer.Message) (s : Unit) =>
      ((⟨libraryCalls pattern,true,false,libraryCalls_proper pattern⟩ : Outcome),s)
    let c := errorPush undefinedHeader (scpiInit (Vector.replicate errorQueueSize 0))
    let ts := turns callback .none (Lexer.units (Lexer.text "*STB?;SYST:ERR?;*CLS;*OPC?;*ESR?")) ()
    written (scpiParse ts c).2.out =
      ascii "4;-113,\"Undefined header\";1;0" ++ lineEnding := by
  intro callback c ts
  exact (reply_framed callback (Lexer.text "*STB?;SYST:ERR?;*CLS;*OPC?;*ESR?") () c
    (by decide +kernel)).1.trans (by decide +kernel)

end Framing

end Stm32Dds.Status
