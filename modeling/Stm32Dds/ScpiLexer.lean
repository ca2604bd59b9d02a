import Stm32Dds.ByteMemory
import Stm32Dds.Scanning

/-! The lexer of the SCPI library and scpiParser_detectProgramMessageUnit, on the bytes
of a packet. A function is given the bytes from state->pos to the end of the buffer,
and the last component of what it returns is how far it moves state->pos. Only a block
can move it behind the end of the buffer. -/

set_option autoImplicit false

namespace Stm32Dds.Lexer
open Bytes Scanning

def chr (c : Char) : Byte := BitVec.ofNat 8 c.toNat

def text (s : String) : List Byte := s.toList.map chr

def newLine : Byte := chr '\n'

def between (low high : Char) (b : Byte) : Bool := low.toNat ≤ b.toNat && b.toNat ≤ high.toNat

def isws (b : Byte) : Bool := b = chr ' ' || b = chr '\t'
def isdigit (b : Byte) : Bool := between '0' '9' b
def isbdigit (b : Byte) : Bool := between '0' '1' b
def isqdigit (b : Byte) : Bool := between '0' '7' b
def isxdigit (b : Byte) : Bool := isdigit b || between 'a' 'f' b || between 'A' 'F' b
def isalpha (b : Byte) : Bool := between 'a' 'z' b || between 'A' 'Z' b
def isplusmn (b : Byte) : Bool := b = chr '+' || b = chr '-'
def isH (b : Byte) : Bool := b = chr 'h' || b = chr 'H'
def isB (b : Byte) : Bool := b = chr 'b' || b = chr 'B'
def isQ (b : Byte) : Bool := b = chr 'q' || b = chr 'Q'
def isE (b : Byte) : Bool := b = chr 'e' || b = chr 'E'
def isNonzeroDigit (b : Byte) : Bool := isdigit b && b ≠ chr '0'
def isascii7bit (b : Byte) : Bool := b.toNat ≤ 0x7f

def isMnemonic (b : Byte) : Bool := isalpha b || isdigit b || b = chr '_'

def doubleQuote : Byte := 0x22
def singleQuote : Byte := 0x27

def isProgramExpression (b : Byte) : Bool :=
  0x20 ≤ b.toNat && b.toNat ≤ 0x7e && b ≠ doubleQuote && b ≠ chr '#' && b ≠ singleQuote &&
    b ≠ chr '(' && b ≠ chr ')' && b ≠ chr ';'

def skipWs : List Byte → Nat := many isws
def skipDigit : List Byte → Nat := one isdigit
def skipNumbers : List Byte → Nat := many isdigit
def skipPlusmn : List Byte → Nat := one isplusmn
def skipAlpha : List Byte → Nat := many isalpha
def skipChr (c : Char) : List Byte → Nat := one fun b => b = chr c
def skipSlashDot : List Byte → Nat := one fun b => b = chr '/' || b = chr '.'
def skipHexNum : List Byte → Nat := many isxdigit
def skipOctNum : List Byte → Nat := many isqdigit
def skipBinNum : List Byte → Nat := many isbdigit

/-- The sign of the result tells whether the buffer ends with the mnemonic. No caller
does anything else then, so it is left out. -/
def skipProgramMnemonic : List Byte → Nat := word isalpha isMnemonic

inductive TokenType
  | unknown | invalid
  | commonProgramHeader | commonQueryProgramHeader | incompleteCommonProgramHeader
  | compoundProgramHeader | compoundQueryProgramHeader | incompleteCompoundProgramHeader
  | programMnemonic | decimalNumericProgramData | decimalNumericProgramDataWithSuffix
  | hexnum | octnum | binnum | doubleQuoteProgramData | singleQuoteProgramData
  | arbitraryBlockProgramData | programExpression | allProgramData
  deriving DecidableEq, Repr

inductive Skip
  | none | ok | incomplete
  deriving DecidableEq, Repr

def skipCommonProgramHeader (s : List Byte) : Skip × Nat :=
  if skipChr '*' s = 1 then
    let n := skipProgramMnemonic (s.drop 1)
    (if n = 0 then .incomplete else .ok,1+n)
  else (.none,0)

/-- `while (skipColon(state))`: the mnemonics behind the first one. -/
def skipPath (_ : Skip) (s : List Byte) : Round Skip :=
  if skipChr ':' s = 1 then
    let n := skipProgramMnemonic (s.drop 1)
    if n = 0 then .done .incomplete 1 else .again .ok (1+n)
  else .done .ok 0

def skipCompoundProgramHeader (s : List Byte) : Skip × Nat :=
  let colon := skipChr ':' s
  let s := s.drop colon
  let n := skipProgramMnemonic s
  if n = 0 then (if colon = 1 then .incomplete else .none,colon)
  else
    let path := loop skipPath (s.length+1) .ok (s.drop n)
    (path.1,colon + (n + path.2))

def withQuery (plain query : TokenType) (s : List Byte) (n : Nat) : TokenType × Nat :=
  if skipChr '?' (s.drop n) = 1 then (query,n+1) else (plain,n)

def scpiLexProgramHeader (s : List Byte) : TokenType × Nat :=
  match skipCommonProgramHeader s with
  | (.ok,n) => withQuery .commonProgramHeader .commonQueryProgramHeader s n
  | (.incomplete,n) => (.incompleteCommonProgramHeader,n)
  | (.none,_) =>
    match skipCompoundProgramHeader s with
    | (.ok,n) => withQuery .compoundProgramHeader .compoundQueryProgramHeader s n
    | (.incomplete,n) => (.incompleteCompoundProgramHeader,n)
    | (.none,_) => (.unknown,0)

/-- A token of program data: its type, token->len, the value that is returned, and how
far state->pos moves. -/
structure Lexed where
  type : TokenType
  len : Nat
  result : Nat
  skip : Nat
  deriving DecidableEq, Repr

def Lexed.none : Lexed := ⟨.unknown,0,0,0⟩

def Lexed.whole (type : TokenType) (n : Nat) : Lexed :=
  if n = 0 then .none else ⟨type,n,n,n⟩

def prefixed (type : TokenType) (n : Nat) : Lexed :=
  if n = 0 then .none else ⟨type,n,n+2,n+2⟩

def scpiLexNondecimalNumericData (s : List Byte) : Lexed :=
  if skipChr '#' s = 1 then
    match s.drop 1 with
    | [] => .none
    | b :: s =>
      if isH b then prefixed .hexnum (skipHexNum s)
      else if isQ b then prefixed .octnum (skipOctNum s)
      else if isB b then prefixed .binnum (skipBinNum s)
      else .none
  else .none

def scpiLexCharacterProgramData (s : List Byte) : Lexed :=
  .whole .programMnemonic (skipProgramMnemonic s)

/-- The number of digits, and the length with sign and point. -/
def skipMantisa (s : List Byte) : Nat × Nat :=
  let sign := skipPlusmn s
  let s := s.drop sign
  let digits := skipNumbers s
  let s := s.drop digits
  let point := skipChr '.' s
  let fraction := if point = 1 then skipNumbers (s.drop point) else 0
  (digits+fraction,sign + (digits + (point+fraction)))

def skipExponent (s : List Byte) : Nat × Nat :=
  let e := one isE s
  if e = 1 then
    let s := s.drop e
    let blanks := skipWs s
    let s := s.drop blanks
    let sign := skipPlusmn s
    let digits := skipNumbers (s.drop sign)
    (digits,e + (blanks + (sign+digits)))
  else (0,0)

def scpiLexDecimalNumericProgramData (s : List Byte) : Lexed :=
  let mantisa := skipMantisa s
  if mantisa.1 = 0 then .none
  else
    let s := s.drop mantisa.2
    let blanks := skipWs s
    let exponent := skipExponent (s.drop blanks)
    .whole .decimalNumericProgramData
      (mantisa.2 + if exponent.1 = 0 then 0 else blanks+exponent.2)

def skipPower (s : List Byte) : Nat :=
  let sign := skipChr '-' s
  sign + skipDigit (s.drop sign)

def skipUnit (s : List Byte) : Nat :=
  let letters := skipAlpha s
  letters + skipPower (s.drop letters)

def skipUnits (_ : Unit) (s : List Byte) : Round Unit :=
  if skipSlashDot s = 1 then .again () (1 + skipUnit (s.drop 1)) else .done () 0

def scpiLexSuffixProgramData (s : List Byte) : Nat :=
  let slash := skipChr '/' s
  let s := s.drop slash
  if skipAlpha s = 0 then slash
  else
    let unit := skipUnit s
    slash + (unit + (loop skipUnits (s.length+1) () (s.drop unit)).2)

/-- A quote that is doubled stands for itself. -/
def skipQuoteProgramData (quote : Byte) : List Byte → Nat
  | [] => 0
  | b :: s =>
    if isascii7bit b && b ≠ quote then 1 + skipQuoteProgramData quote s
    else if b = quote then
      match s with
      | c :: s => if c = quote then 2 + skipQuoteProgramData quote s else 0
      | [] => 0
    else 0

def quoted (type : TokenType) (quote : Byte) (s : List Byte) : Lexed :=
  let n := 1 + skipQuoteProgramData quote (s.drop 1)
  if one (fun b => b = quote) (s.drop n) = 1 then .whole type (n+1) else .none

def scpiLexStringProgramData (s : List Byte) : Lexed :=
  if one (fun b => b = doubleQuote) s = 1 then quoted .doubleQuoteProgramData doubleQuote s
  else if one (fun b => b = singleQuote) s = 1 then quoted .singleQuoteProgramData singleQuote s
  else .none

def decimal (digits : List Byte) : Nat :=
  digits.foldl (fun n b => 10*n + (b.toNat-0x30)) 0

/-- The block may be longer than what is left of the buffer. -/
def scpiLexArbitraryBlockProgramData (s : List Byte) : Lexed :=
  if skipChr '#' s = 1 then
    match s.drop 1 with
    | [] => ⟨.unknown,0,0,1⟩
    | b :: s =>
      if isNonzeroDigit b then
        let i := b.toNat-0x30
        let digits := (s.take i).takeWhile isdigit
        if digits.length = i then
          let arbitraryBlockLength := decimal digits
          ⟨.arbitraryBlockProgramData,arbitraryBlockLength,arbitraryBlockLength + (2+i),
            2+i+arbitraryBlockLength⟩
        -- an incomplete header is skipped with the rest of the buffer
        else if digits.length = s.length then ⟨.unknown,0,0,2+s.length⟩
        else .none
      else .none
  else .none

def scpiLexProgramExpression (s : List Byte) : Lexed :=
  if skipChr '(' s = 1 then
    let n := 1 + many isProgramExpression (s.drop 1)
    if skipChr ')' (s.drop n) = 1 then .whole .programExpression (n+1) else .none
  else .none

/-- Blanks in front of a suffix that does not come are skipped, but not counted. -/
def decimalWithSuffix (s : List Byte) : Lexed :=
  let number := scpiLexDecimalNumericProgramData s
  if number.result = 0 then number
  else
    let s := s.drop number.skip
    let wsLen := skipWs s
    let suffixLen := scpiLexSuffixProgramData (s.drop wsLen)
    if suffixLen > 0 then
      .whole .decimalNumericProgramDataWithSuffix (number.len + (wsLen+suffixLen))
    else { number with skip := number.skip+wsLen }

/-- The next kind of token is tried where the ones before have failed. -/
def orElse (first next : List Byte → Lexed) (s : List Byte) : Lexed :=
  let l := first s
  if l.result = 0 then
    let r := next (s.drop l.skip)
    { r with skip := l.skip+r.skip }
  else l

def programData : List Byte → Lexed :=
  orElse scpiLexNondecimalNumericData <| orElse scpiLexCharacterProgramData <|
    orElse decimalWithSuffix <| orElse scpiLexStringProgramData <|
    orElse scpiLexArbitraryBlockProgramData scpiLexProgramExpression

def scpiParserParseProgramData (s : List Byte) : Lexed :=
  let before := skipWs s
  let s := s.drop before
  let l := programData s
  let after := skipWs (s.drop l.skip)
  { l with result := l.result + (before+after), skip := before + (l.skip+after) }

/-- SCPI_TOKEN_ALL_PROGRAM_DATA: whether all of it was read, its length, and the number
of parameters. -/
structure AllData where
  valid : Bool
  len : Nat
  numberOfParameters : Int
  deriving DecidableEq, Repr

/-- A round of the loop over the parameters, and the comma behind it. -/
def nextParameter (all : AllData) (s : List Byte) : Round AllData :=
  let l := scpiParserParseProgramData s
  if l.type = .unknown then .done ⟨false,0,-1⟩ l.skip
  else
    let len := all.len+l.result
    if skipChr ',' (s.drop l.skip) = 1 then
      .again ⟨true,len+1,all.numberOfParameters+1⟩ (l.skip+1)
    else .done ⟨true,len,all.numberOfParameters+1⟩ l.skip

def scpiParserParseAllProgramData (s : List Byte) : AllData × Nat :=
  loop nextParameter (s.length+1) ⟨true,0,0⟩ s

def scpiLexNewLine (s : List Byte) : Nat :=
  let cr := skipChr '\r' s
  cr + skipChr '\n' (s.drop cr)

def terminator (s : List Byte) : Nat :=
  if scpiLexNewLine s = 0 then skipChr ';' s else scpiLexNewLine s

inductive Termination
  | none | newLine | semicolon
  deriving DecidableEq, Repr

/-- What is found in front of the next message unit. The texts are the bytes that the
pointers of scpi_parser_state_t span; headerAt and dataAt count from the start of the
buffer. -/
structure Message where
  invalid : Bool
  headerAt : Nat
  header : List Byte
  dataAt : Nat
  data : List Byte
  numberOfParameters : Int
  termination : Termination
  size : Nat
  deriving DecidableEq, Repr

/-- The first part of scpiParser_detectProgramMessageUnit: the blanks in front, the
length of the header, the blanks behind it, and the parameters. -/
structure Parts where
  blanks : Nat
  header : Nat
  gap : Nat
  data : AllData
  dataSkip : Nat

def Parts.dataAt (p : Parts) : Nat := p.blanks + (p.header+p.gap)

def Parts.pos (p : Parts) : Nat := p.dataAt+p.dataSkip

def parameters (gap : Nat) (s : List Byte) : AllData × Nat :=
  if gap > 0 then scpiParserParseAllProgramData s else (⟨false,0,0⟩,0)

def messageParts (s : List Byte) : Parts :=
  let blanks := skipWs s
  let s := s.drop blanks
  let header := (scpiLexProgramHeader s).2
  let s := s.drop header
  let gap := skipWs s
  let all := parameters gap (s.drop gap)
  ⟨blanks,header,gap,all.1,all.2⟩

def scpiParserDetectProgramMessageUnit (buffer : List Byte) : Message :=
  let p := messageParts buffer
  let rest := buffer.drop p.pos
  let stop := terminator rest
  if stop = 0 ∧ rest ≠ [] then
    ⟨true,p.blanks,(buffer.drop p.blanks).take 1,0,[],p.data.numberOfParameters,.none,p.pos+1⟩
  else ⟨false,p.blanks,(buffer.drop p.blanks).take p.header,p.dataAt,
    (buffer.drop p.dataAt).take p.data.len,p.data.numberOfParameters,
    if scpiLexNewLine rest > 0 then .newLine else if stop > 0 then .semicolon else .none,
    p.pos+stop⟩

end Stm32Dds.Lexer
