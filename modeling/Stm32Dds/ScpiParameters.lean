import Stm32Dds.BlockUnits
import Stm32Dds.ReplyFraming

/-! The parameters of a command. SCPI_Parameter takes the next token from the data of the
unit; the readers built on it turn the token into a number or a choice, or push an error. -/

set_option autoImplicit false

namespace Stm32Dds.Parameters
open Bytes Scanning Lexer Numerals Results Status

/-- The data of the unit that is not read yet, input_count, and the bytes behind the data.
strtol and strtod do not know where the data ends. -/
structure Params where
  data : List Byte
  inputCount : Nat
  behind : List Byte
deriving DecidableEq

/-- Nothing that a number could go on with. Behind the data of a unit comes a semicolon or the
end of the line, if the packet does not end there. -/
def Closed (behind : List Byte) : Prop :=
  ∀ b ∈ behind.head?, isMnemonic b = false ∧ b ≠ chr '.' ∧ isws b = false

theorem closed_newLine (w : List Byte) : Closed (newLine :: w) := by
  rintro _ ⟨⟩
  decide

/-- scpi_parameter_t, with the text that ptr points at. -/
structure Parameter where
  type : TokenType
  ptr : List Byte
  len : Nat

def Parameter.text (p : Parameter) : List Byte := p.ptr.take p.len

/-- What a reader returns, the errors it pushes, and what it leaves to be read. -/
structure Reading (α : Type) where
  value : Option α
  errors : List ErrorCode
  rest : Params
deriving DecidableEq

def invalidSeparator : ErrorCode := -103
def dataTypeError : ErrorCode := -104
def missingParameter : ErrorCode := -109
def suffixNotAllowed : ErrorCode := -138
def invalidStringData : ErrorCode := -151
def illegalParameterValue : ErrorCode := -224

/-- The token of a number in another base and that of a block start behind a header. -/
def headerLen (l : Lexed) : Nat :=
  match l.type with
  | .hexnum | .octnum | .binnum | .arbitraryBlockProgramData => l.skip-l.len
  | _ => 0

def tokenOf (data behind : List Byte) : Parameter :=
  let before := skipWs data
  let l := programData (data.drop before)
  ⟨l.type,data.drop (before+headerLen l) ++ behind,l.len⟩

def parameterTypes : List TokenType :=
  [.hexnum,.octnum,.binnum,.programMnemonic,.decimalNumericProgramData,
   .decimalNumericProgramDataWithSuffix,.arbitraryBlockProgramData,.singleQuoteProgramData,
   .doubleQuoteProgramData,.programExpression]

def scpiParameter (mandatory : Bool) (p : Params) : Reading Parameter :=
  if p.data = [] then ⟨none,if mandatory then [missingParameter] else [],p⟩
  else
    let comma := if p.inputCount = 0 then 0 else skipChr ',' p.data
    if p.inputCount ≠ 0 ∧ comma = 0 then ⟨none,[invalidSeparator],p⟩
    else
      let data := p.data.drop comma
      let rest := ⟨data.drop (scpiParserParseProgramData data).skip,p.inputCount+1,p.behind⟩
      let param := tokenOf data p.behind
      if param.type ∈ parameterTypes then ⟨some param,[],rest⟩ else ⟨none,[invalidStringData],rest⟩

def paramIsNumber (suffixAllowed : Bool) : TokenType → Bool
  | .hexnum | .octnum | .binnum | .decimalNumericProgramData => true
  | .decimalNumericProgramDataWithSuffix => suffixAllowed
  | _ => false

/-- strBaseToUInt32 and strBaseToInt32: a number if a character of the text is used. -/
def numberAt (read : List Byte → BitVec 32 × Nat) (ptr : List Byte) : Option (BitVec 32) :=
  if (read ptr).2 > 0 then some (read ptr).1 else none

def paramSignToUInt32 (sign : Bool) (p : Parameter) : Option (BitVec 32) :=
  match p.type with
  | .hexnum => numberAt (strtoul 32 16) p.ptr
  | .octnum => numberAt (strtoul 32 8) p.ptr
  | .binnum => numberAt (strtoul 32 2) p.ptr
  | .decimalNumericProgramData | .decimalNumericProgramDataWithSuffix =>
    if sign then numberAt (strtol 32 10) p.ptr else numberAt (strtoul 32 10) p.ptr
  | _ => none

/-- A reader that does something with the parameter if there is one. -/
def reader {α : Type} (mandatory : Bool) (convert : Parameter → Option α × List ErrorCode)
    (p : Params) : Reading α :=
  let r := scpiParameter mandatory p
  match r.value with
  | none => ⟨none,r.errors,r.rest⟩
  | some param => ⟨(convert param).1,(convert param).2,r.rest⟩

def paramSignUInt32 (mandatory sign : Bool) : Params → Reading (BitVec 32) :=
  reader mandatory fun param =>
    if paramIsNumber false param.type then (paramSignToUInt32 sign param,[])
    else if paramIsNumber true param.type then (none,[suffixNotAllowed])
    else (none,[dataTypeError])

def paramInt32 (mandatory : Bool) : Params → Reading (BitVec 32) := paramSignUInt32 mandatory true

def paramUInt32 (mandatory : Bool) : Params → Reading (BitVec 32) := paramSignUInt32 mandatory false

def paramToChoice {α : Type} (options : List (String × α)) (param : Parameter) :
    Option α × List ErrorCode :=
  if param.type = .programMnemonic then
    match options.find? fun o => Scpi.matchPattern o.1.toList (Stream.chars param.text) with
    | some o => (some o.2,[])
    | none => (none,[illegalParameterValue])
  else (none,[dataTypeError])

def paramChoice {α : Type} (options : List (String × α)) (mandatory : Bool) :
    Params → Reading α := reader mandatory (paramToChoice options)

def boolOptions : List (String × Bool) := [("OFF",false),("ON",true)]

/-- A decimal number counts as its integer part; whether there is one is not looked at. -/
def paramBool (mandatory : Bool) : Params → Reading Bool :=
  reader mandatory fun param =>
    if param.type = .decimalNumericProgramData then (some ((strtol 32 10 param.ptr).1 != 0),[])
    else paramToChoice boolOptions param

section Tokens

variable {blanks trailing : List Byte}

theorem blank_class : ∀ b : Byte, isws b = true →
    isdigit b = false ∧ b ≠ chr '.' ∧ b.toNat ≠ 120 ∧ b.toNat ≠ 88 := by decide

theorem digit_class : ∀ b : Byte, isdigit b = true → isws b = false ∧ b ≠ chr '#' ∧
    isalpha b = false ∧ isplusmn b = false := by decide

theorem skipWs_trailing (ht : ∀ b ∈ trailing, isws b = true) : skipWs trailing = trailing.length := by
  have hall := many_all ht []
  rwa [List.append_nil] at hall

theorem many_until {p : Byte → Bool} {ds rest : List Byte} (hds : ∀ b ∈ ds, p b = true)
    (hrest : ∀ b ∈ rest.head?, p b = false) : many p (ds ++ rest) = ds.length := by
  have hzero : many p rest = 0 := by
    cases rest with
    | nil => rfl
    | cons b rest => simp [many,hrest b rfl]
  rw [many_all hds,hzero,Nat.add_zero]

theorem skipWs_front {x : List Byte} (hb : ∀ b ∈ blanks, isws b = true)
    (hx : ∀ b ∈ x.head?, isws b = false) : skipWs (blanks ++ x) = blanks.length := many_until hb hx

theorem isDigit_ten : ∀ b : Byte, isDigit 10 b = isdigit b := by decide

theorem scpiParameter_first (mandatory : Bool) {x : List Byte} {l : Lexed}
    (hb : ∀ b ∈ blanks, isws b = true) (hne : x ≠ []) (hx : ∀ b ∈ x.head?, isws b = false)
    (hl : programData x = l) (htype : l.type ∈ parameterTypes)
    (hrest : ∀ b ∈ x.drop l.skip, isws b = true) (behind : List Byte) :
    scpiParameter mandatory ⟨blanks ++ x,0,behind⟩ =
      ⟨some ⟨l.type,x.drop (headerLen l) ++ behind,l.len⟩,[],⟨[],1,behind⟩⟩ := by
  have hfront : skipWs (blanks ++ x) = blanks.length := skipWs_front hb hx
  have hdrop (n : Nat) : (blanks ++ x).drop (blanks.length+n) = x.drop n := by
    rw [← List.drop_drop,List.drop_left]
  have htoken : tokenOf (blanks ++ x) behind = ⟨l.type,x.drop (headerLen l) ++ behind,l.len⟩ := by
    simp only [tokenOf,hfront,List.drop_left,hl,hdrop]
  have hend : (blanks ++ x).drop (scpiParserParseProgramData (blanks ++ x)).skip = [] := by
    simp only [scpiParserParseProgramData,hfront,List.drop_left,hl,hdrop,← List.drop_drop,
      skipWs_trailing hrest,List.drop_length]
  rw [scpiParameter,if_neg (by simp [hne])]
  simp [htoken,hend,htype]

end Tokens

section Soundness

structure Sound {α : Type} (value : Option α) (errors : List ErrorCode) : Prop where
  none_of_value : value.isSome → errors = []
  one : errors.length ≤ 1
  proper : noError ∉ errors

theorem sound_quiet {α : Type} (value : Option α) : Sound value [] := ⟨fun _ => rfl,by simp,by simp⟩

theorem sound_error {α : Type} {err : ErrorCode} (h : err ≠ noError) :
    Sound (none : Option α) [err] := ⟨by simp,by simp,by simpa using h.symm⟩

theorem scpiParameter_sound (mandatory : Bool) (p : Params) :
    Sound (scpiParameter mandatory p).value (scpiParameter mandatory p).errors := by
  unfold scpiParameter
  by_cases hdata : p.data = []
  · rw [if_pos hdata]
    cases mandatory with
    | false => exact sound_quiet none
    | true => exact sound_error (by decide)
  · rw [if_neg hdata]
    dsimp only
    generalize (if p.inputCount = 0 then 0 else skipChr ',' p.data) = comma
    by_cases hcomma : p.inputCount ≠ 0 ∧ comma = 0
    · rw [if_pos hcomma]
      exact sound_error (by decide)
    · rw [if_neg hcomma]
      split
      · exact sound_quiet _
      · exact sound_error (by decide)

theorem reader_sound {α : Type} {convert : Parameter → Option α × List ErrorCode}
    (h : ∀ param, Sound (convert param).1 (convert param).2) (mandatory : Bool) (p : Params) :
    Sound (reader mandatory convert p).value (reader mandatory convert p).errors := by
  have hparam := scpiParameter_sound mandatory p
  cases hvalue : (scpiParameter mandatory p).value with
  | none =>
    simp only [reader,hvalue]
    exact ⟨by simp,hparam.one,hparam.proper⟩
  | some param =>
    simp only [reader,hvalue]
    exact h param

theorem paramToChoice_sound {α : Type} (options : List (String × α)) (param : Parameter) :
    Sound (paramToChoice options param).1 (paramToChoice options param).2 := by
  unfold paramToChoice
  split
  · split
    · exact sound_quiet _
    · exact sound_error (by decide)
  · exact sound_error (by decide)

theorem paramSignUInt32_sound (mandatory sign : Bool) (p : Params) :
    Sound (paramSignUInt32 mandatory sign p).value (paramSignUInt32 mandatory sign p).errors := by
  refine reader_sound (fun param => ?_) mandatory p
  split
  · exact sound_quiet _
  · split <;> exact sound_error (by decide)

theorem paramChoice_sound {α : Type} (options : List (String × α)) (mandatory : Bool) (p : Params) :
    Sound (paramChoice options mandatory p).value (paramChoice options mandatory p).errors :=
  reader_sound (paramToChoice_sound options) mandatory p

theorem paramBool_sound (mandatory : Bool) (p : Params) :
    Sound (paramBool mandatory p).value (paramBool mandatory p).errors := by
  refine reader_sound (fun param => ?_) mandatory p
  split
  · exact sound_quiet _
  · exact paramToChoice_sound boolOptions param

end Soundness

end Stm32Dds.Parameters
