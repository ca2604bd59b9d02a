import Stm32Dds.ScpiLexer

set_option autoImplicit false

namespace Stm32Dds.Lexer
open Bytes Scanning

structure EndsHeader (c : Byte) : Prop where
  letter : isalpha c = false
  mnemonic : isMnemonic c = false
  star : c ≠ chr '*'
  colon : c ≠ chr ':'
  query : c ≠ chr '?'

theorem endsHeader_newLine : EndsHeader newLine := by constructor <;> decide

theorem endsHeader_of_isws {c : Byte} (h : isws c = true) : EndsHeader c := by
  simp only [isws,Bool.or_eq_true,decide_eq_true_eq] at h
  rcases h with rfl | rfl <;> constructor <;> decide

theorem skipChr_le (a : Char) (x : List Byte) : skipChr a x ≤ x.length := one_le _ x

theorem skipProgramMnemonic_le (x : List Byte) : skipProgramMnemonic x ≤ x.length := word_le _ _ x

theorem skipChr_stop {a : Char} {c : Byte} (h : c ≠ chr a) (x w : List Byte) :
    skipChr a (x ++ c :: w) = skipChr a x :=
  one_stop (by simpa using h) x w

theorem skipPath_steady (x : List Byte) : Steady skipPath x := by
  constructor
  · intro acc
    simp only [skipPath]
    split
    next h =>
      have hle := h ▸ skipChr_le ':' x
      split
      · exact hle
      · exact add_le_length hle (skipProgramMnemonic_le _)
    next => exact Nat.zero_le _
  · intro acc acc' n h
    simp only [skipPath] at h
    split at h
    next =>
      split at h
      · cases h
      · cases h
        omega
    next => cases h

section
variable {c : Byte} (hc : EndsHeader c) (x w : List Byte)
include hc

theorem skipProgramMnemonic_stop : skipProgramMnemonic (x ++ c :: w) = skipProgramMnemonic x :=
  word_stop hc.letter hc.mnemonic x w

theorem skipCommonProgramHeader_stop :
    skipCommonProgramHeader (x ++ c :: w) = skipCommonProgramHeader x ∧
      (skipCommonProgramHeader x).2 ≤ x.length := by
  rw [skipCommonProgramHeader,skipCommonProgramHeader,skipChr_stop hc.star]
  split
  next h =>
    have hle := h ▸ skipChr_le '*' x
    rw [drop_stop hle,skipProgramMnemonic_stop hc]
    exact ⟨rfl,add_le_length hle (skipProgramMnemonic_le _)⟩
  next => exact ⟨rfl,Nat.zero_le _⟩

theorem skipPath_stop (acc : Skip) : skipPath acc (x ++ c :: w) = skipPath acc x := by
  rw [skipPath,skipPath,skipChr_stop hc.colon]
  split
  next h => rw [drop_stop (h ▸ skipChr_le ':' x),skipProgramMnemonic_stop hc]
  next => rfl

theorem skipCompoundProgramHeader_stop :
    skipCompoundProgramHeader (x ++ c :: w) = skipCompoundProgramHeader x ∧
      (skipCompoundProgramHeader x).2 ≤ x.length := by
  have hcolon := skipChr_le ':' x
  simp only [skipCompoundProgramHeader,skipChr_stop hc.colon,drop_stop hcolon,
    skipProgramMnemonic_stop hc]
  generalize hy : x.drop (skipChr ':' x) = y
  have hn := skipProgramMnemonic_le y
  rw [drop_stop hn]
  split
  next => exact ⟨rfl,hcolon⟩
  next =>
    have hlen : (y.drop (skipProgramMnemonic y)).length ≤ y.length := by simp
    have hlen' : y.length ≤ (y ++ c :: w).length := by simp
    obtain ⟨hpath,hle⟩ := loop_stop (P := fun _ => True) (fun _ _ _ => trivial)
      (fun x w acc _ => skipPath_stop hc x w acc) (fun x _ => skipPath_steady x) trivial w Skip.ok
      (Nat.lt_succ_of_le (hlen.trans hlen')) (Nat.lt_succ_of_le hlen)
    rw [hpath]
    refine ⟨rfl,add_le_length hcolon ?_⟩
    rw [hy]
    exact add_le_length hn hle

theorem withQuery_stop (plain query : TokenType) {n : Nat} (hn : n ≤ x.length) :
    withQuery plain query (x ++ c :: w) n = withQuery plain query x n ∧
      (withQuery plain query x n).2 ≤ x.length := by
  rw [withQuery,withQuery,drop_stop hn,skipChr_stop hc.query]
  split
  next h => exact ⟨rfl,add_le_length hn (h ▸ skipChr_le '?' _)⟩
  next => exact ⟨rfl,hn⟩

theorem scpiLexProgramHeader_stop :
    scpiLexProgramHeader (x ++ c :: w) = scpiLexProgramHeader x ∧
      (scpiLexProgramHeader x).2 ≤ x.length := by
  obtain ⟨hcommon,hle⟩ := skipCommonProgramHeader_stop hc x w
  obtain ⟨hcompound,hle'⟩ := skipCompoundProgramHeader_stop hc x w
  rw [scpiLexProgramHeader,scpiLexProgramHeader,hcommon,hcompound]
  split
  next n hn =>
    rw [hn] at hle
    exact withQuery_stop hc x w _ _ hle
  next n hn =>
    rw [hn] at hle
    exact ⟨rfl,hle⟩
  next =>
    split
    next n hn =>
      rw [hn] at hle'
      exact withQuery_stop hc x w _ _ hle'
    next n hn =>
      rw [hn] at hle'
      exact ⟨rfl,hle'⟩
    next => exact ⟨rfl,Nat.zero_le _⟩

end

section
variable (x w : List Byte)

theorem skipWs_le : skipWs x ≤ x.length := many_le _ x
theorem skipNumbers_le : skipNumbers x ≤ x.length := many_le _ x
theorem skipAlpha_le : skipAlpha x ≤ x.length := many_le _ x
theorem skipPlusmn_le : skipPlusmn x ≤ x.length := one_le _ x

theorem skipWs_stop : skipWs (x ++ newLine :: w) = skipWs x := many_stop (by decide) x w
theorem skipNumbers_stop : skipNumbers (x ++ newLine :: w) = skipNumbers x :=
  many_stop (by decide) x w
theorem skipAlpha_stop : skipAlpha (x ++ newLine :: w) = skipAlpha x := many_stop (by decide) x w
theorem skipPlusmn_stop : skipPlusmn (x ++ newLine :: w) = skipPlusmn x := one_stop (by decide) x w
theorem skipDigit_stop : skipDigit (x ++ newLine :: w) = skipDigit x := one_stop (by decide) x w

theorem skipMantisa_le : (skipMantisa x).2 ≤ x.length := by
  refine add_le_length (one_le _ _) (add_le_length (many_le _ _) (add_le_length (one_le _ _) ?_))
  split
  · exact many_le _ _
  · exact Nat.zero_le _

theorem skipExponent_le : (skipExponent x).2 ≤ x.length := by
  simp only [skipExponent]
  split
  · exact add_le_length (one_le _ _) (add_le_length (many_le _ _) (add_le_length (one_le _ _) (many_le _ _)))
  · exact Nat.zero_le _

theorem skipMantisa_stop : skipMantisa (x ++ newLine :: w) = skipMantisa x := by
  simp (disch := decide) only [skipMantisa,skipPlusmn_stop,drop_stop (skipPlusmn_le _),
    skipNumbers_stop,drop_stop (skipNumbers_le _),skipChr_stop,drop_stop (skipChr_le _ _)]

theorem skipExponent_stop : skipExponent (x ++ newLine :: w) = skipExponent x := by
  simp (disch := decide) only [skipExponent,one_stop,drop_one_stop,skipWs_stop,
    drop_stop (skipWs_le _),skipPlusmn_stop,drop_stop (skipPlusmn_le _),skipNumbers_stop]

theorem skipUnit_le : skipUnit x ≤ x.length :=
  add_le_length (many_le _ _) (add_le_length (one_le _ _) (one_le _ _))

theorem skipUnit_stop : skipUnit (x ++ newLine :: w) = skipUnit x := by
  simp (disch := decide) only [skipUnit,skipPower,skipAlpha_stop,drop_stop (skipAlpha_le _),
    skipChr_stop,drop_stop (skipChr_le _ _),skipDigit_stop]

theorem skipUnits_steady : Steady skipUnits x := by
  constructor
  · intro acc
    simp only [skipUnits]
    split
    next h => exact add_le_length (h ▸ one_le _ x) (skipUnit_le _)
    next => exact Nat.zero_le _
  · intro acc acc' n h
    simp only [skipUnits] at h
    split at h
    · cases h
      omega
    · cases h

theorem skipUnits_stop (acc : Unit) : skipUnits acc (x ++ newLine :: w) = skipUnits acc x := by
  cases x with
  | nil => rfl
  | cons b x => simp only [skipUnits,skipSlashDot,one,List.cons_append,List.drop_succ_cons,
      List.drop_zero,skipUnit_stop]

theorem scpiLexSuffixProgramData_stop :
    scpiLexSuffixProgramData (x ++ newLine :: w) = scpiLexSuffixProgramData x ∧
      scpiLexSuffixProgramData x ≤ x.length := by
  have hslash := skipChr_le '/' x
  simp (disch := decide) only [scpiLexSuffixProgramData,skipChr_stop,drop_stop hslash,
    skipAlpha_stop,skipUnit_stop]
  generalize hy : x.drop (skipChr '/' x) = y
  have hn := skipUnit_le y
  rw [drop_stop hn]
  split
  next => exact ⟨rfl,hslash⟩
  next =>
    have hlen : (y.drop (skipUnit y)).length ≤ y.length := by simp
    have hlen' : y.length ≤ (y ++ newLine :: w).length := by simp
    obtain ⟨hunits,hle⟩ := loop_stop (P := fun _ => True) (fun _ _ _ => trivial)
      (fun x w acc _ => skipUnits_stop x w acc) (fun x _ => skipUnits_steady x) trivial w ()
      (Nat.lt_succ_of_le (hlen.trans hlen')) (Nat.lt_succ_of_le hlen)
    rw [hunits]
    refine ⟨rfl,add_le_length hslash ?_⟩
    rw [hy]
    exact add_le_length hn hle

end

/-- What ends at a newline: the token is the same if the input goes on behind it, and
takes up no more than the bytes in front of it. -/
structure Ends (lex : List Byte → Lexed) (x : List Byte) : Prop where
  same : ∀ w, lex (x ++ newLine :: w) = lex x
  skip : (lex x).skip ≤ x.length
  result : (lex x).result ≤ (lex x).skip

def Plain (x : List Byte) : Prop := ∀ b ∈ x, b ≠ doubleQuote ∧ b ≠ singleQuote ∧ b ≠ chr '#'

theorem Plain.drop {x : List Byte} (h : Plain x) (n : Nat) : Plain (x.drop n) :=
  fun b hb => h b (List.mem_of_mem_drop hb)

theorem whole_le {type : TokenType} {n k : Nat} (h : n ≤ k) : (Lexed.whole type n).skip ≤ k := by
  rw [Lexed.whole]
  split
  · exact Nat.zero_le _
  · exact h

theorem whole_result (type : TokenType) (n : Nat) :
    (Lexed.whole type n).result = (Lexed.whole type n).skip := by
  rw [Lexed.whole]
  split <;> rfl

theorem whole_len (type : TokenType) (n : Nat) :
    (Lexed.whole type n).len = (Lexed.whole type n).skip := by
  rw [Lexed.whole]
  split <;> rfl

theorem Ends.of_none {lex : List Byte → Lexed} {x : List Byte}
    (h : ∀ w, lex (x ++ newLine :: w) = .none) (hx : lex x = .none) : Ends lex x := by
  constructor
  · intro w
    rw [h w,hx]
  · rw [hx]
    exact Nat.zero_le _
  · rw [hx]
    exact le_rfl

theorem one_absent {p : Byte → Bool} {x : List Byte} (h : ∀ b ∈ x, p b = false) : one p x = 0 := by
  cases x with
  | nil => rfl
  | cons b x => simp [one,h b]

section
variable {x : List Byte} (hx : Plain x)
include hx

theorem hash_absent : skipChr '#' x = 0 := one_absent fun b hb => by simp [(hx b hb).2.2]

theorem hash_absent_stop (w : List Byte) : skipChr '#' (x ++ newLine :: w) = 0 := by
  rw [skipChr_stop (by decide),hash_absent hx]

theorem ends_nondecimal : Ends scpiLexNondecimalNumericData x :=
  .of_none (fun w => by simp [scpiLexNondecimalNumericData,hash_absent_stop hx])
    (by simp [scpiLexNondecimalNumericData,hash_absent hx])

theorem ends_block : Ends scpiLexArbitraryBlockProgramData x :=
  .of_none (fun w => by simp [scpiLexArbitraryBlockProgramData,hash_absent_stop hx])
    (by simp [scpiLexArbitraryBlockProgramData,hash_absent hx])

theorem ends_string : Ends scpiLexStringProgramData x := by
  have hdouble : one (fun b => b = doubleQuote) x = 0 :=
    one_absent fun b hb => by simp [(hx b hb).1]
  have hsingle : one (fun b => b = singleQuote) x = 0 :=
    one_absent fun b hb => by simp [(hx b hb).2.1]
  refine .of_none (fun w => ?_) (by simp [scpiLexStringProgramData,hdouble,hsingle])
  rw [scpiLexStringProgramData,one_stop (by decide),hdouble,one_stop (by decide),hsingle]
  rfl

end

theorem ends_character (x : List Byte) : Ends scpiLexCharacterProgramData x where
  same w := by rw [scpiLexCharacterProgramData,skipProgramMnemonic_stop endsHeader_newLine]; rfl
  skip := whole_le (skipProgramMnemonic_le x)
  result := (whole_result _ _).le

theorem ends_decimal (x : List Byte) : Ends scpiLexDecimalNumericProgramData x := by
  have hm := skipMantisa_le x
  constructor
  · intro w
    simp only [scpiLexDecimalNumericProgramData,skipMantisa_stop,drop_stop hm,skipWs_stop,
      drop_stop (skipWs_le _),skipExponent_stop]
  · simp only [scpiLexDecimalNumericProgramData]
    split
    next => exact Nat.zero_le _
    next =>
      refine whole_le (add_le_length hm ?_)
      split
      · exact Nat.zero_le _
      · exact add_le_length (many_le _ _) (skipExponent_le _)
  · simp only [scpiLexDecimalNumericProgramData]
    split
    · exact le_rfl
    · exact (whole_result _ _).le

theorem ends_expression (x : List Byte) : Ends scpiLexProgramExpression x := by
  have hopen := skipChr_le '(' x
  constructor
  · intro w
    rw [scpiLexProgramExpression,scpiLexProgramExpression,skipChr_stop (by decide)]
    split
    next h =>
      have hfirst : 1 ≤ x.length := h ▸ hopen
      have hn : 1 + many isProgramExpression (x.drop 1) ≤ x.length :=
        add_le_length hfirst (many_le _ _)
      simp only [drop_stop hfirst,many_stop (show isProgramExpression newLine = false by decide),
        drop_stop hn,skipChr_stop (show newLine ≠ chr ')' by decide)]
    next => rfl
  · simp only [scpiLexProgramExpression]
    split
    next h =>
      split
      next h' =>
        refine whole_le (add_le_length (add_le_length (h ▸ hopen) (many_le _ _)) ?_)
        exact h'.ge.trans (skipChr_le ')' _)
      next => exact Nat.zero_le _
    next => exact Nat.zero_le _
  · simp only [scpiLexProgramExpression]
    split
    next =>
      split
      · exact (whole_result _ _).le
      · exact le_rfl
    next => exact le_rfl

theorem decimal_len (x : List Byte) :
    (scpiLexDecimalNumericProgramData x).len = (scpiLexDecimalNumericProgramData x).skip := by
  simp only [scpiLexDecimalNumericProgramData]
  split
  · rfl
  · exact whole_len _ _

theorem ends_decimalWithSuffix (x : List Byte) : Ends decimalWithSuffix x := by
  have hd := ends_decimal x
  have hlen := decimal_len x
  have hws := skipWs_le (x.drop (scpiLexDecimalNumericProgramData x).skip)
  constructor
  · intro w
    rw [decimalWithSuffix,decimalWithSuffix,hd.same]
    simp only [drop_stop hd.skip,skipWs_stop,drop_stop hws,(scpiLexSuffixProgramData_stop _ w).1]
  · rw [decimalWithSuffix]
    dsimp only
    split
    next => exact hd.skip
    next =>
      split
      next =>
        rw [hlen]
        refine whole_le (add_le_length hd.skip (add_le_length hws ?_))
        exact (scpiLexSuffixProgramData_stop _ []).2
      next => exact add_le_length hd.skip hws
  · rw [decimalWithSuffix]
    dsimp only
    split
    next => exact hd.result
    next =>
      split
      · exact (whole_result _ _).le
      · exact hd.result.trans (Nat.le_add_right _ _)

theorem Ends.orElse {first next : List Byte → Lexed} {x : List Byte} (hf : Ends first x)
    (hn : Ends next (x.drop (first x).skip)) : Ends (orElse first next) x := by
  constructor
  · intro w
    simp only [Lexer.orElse,hf.same,drop_stop hf.skip,hn.same]
  · simp only [Lexer.orElse]
    split
    · exact add_le_length hf.skip hn.skip
    · exact hf.skip
  · simp only [Lexer.orElse]
    split
    · exact hn.result.trans (Nat.le_add_left _ _)
    · exact hf.result

theorem ends_programData {x : List Byte} (hx : Plain x) : Ends programData x := by
  have h₁ := hx.drop (scpiLexNondecimalNumericData x).skip
  generalize hy₁ : x.drop (scpiLexNondecimalNumericData x).skip = y₁ at h₁
  have h₂ := h₁.drop (scpiLexCharacterProgramData y₁).skip
  generalize hy₂ : y₁.drop (scpiLexCharacterProgramData y₁).skip = y₂ at h₂
  have h₃ := h₂.drop (decimalWithSuffix y₂).skip
  generalize hy₃ : y₂.drop (decimalWithSuffix y₂).skip = y₃ at h₃
  have h₄ := h₃.drop (scpiLexStringProgramData y₃).skip
  generalize hy₄ : y₃.drop (scpiLexStringProgramData y₃).skip = y₄ at h₄
  refine (ends_nondecimal hx).orElse (hy₁ ▸ (ends_character y₁).orElse (hy₂ ▸ ?_))
  refine (ends_decimalWithSuffix y₂).orElse (hy₃ ▸ (ends_string h₃).orElse (hy₄ ▸ ?_))
  exact (ends_block h₄).orElse (ends_expression _)

theorem ends_parseProgramData {x : List Byte} (hx : Plain x) :
    Ends scpiParserParseProgramData x := by
  have hws := skipWs_le x
  have hd := ends_programData (hx.drop (skipWs x))
  constructor
  · intro w
    simp only [scpiParserParseProgramData,skipWs_stop,drop_stop hws,hd.same,drop_stop hd.skip]
  · exact add_le_length hws (add_le_length hd.skip (skipWs_le _))
  · have hresult := hd.result
    simp only [scpiParserParseProgramData]
    omega

theorem nextParameter_stop {x : List Byte} (hx : Plain x) (w : List Byte) (all : AllData) :
    nextParameter all (x ++ newLine :: w) = nextParameter all x := by
  have hd := ends_parseProgramData hx
  simp (disch := decide) only [nextParameter,hd.same,drop_stop hd.skip,skipChr_stop]

theorem nextParameter_steady {x : List Byte} (hx : Plain x) : Steady nextParameter x := by
  have hd := ends_parseProgramData hx
  constructor
  · intro all
    simp only [nextParameter]
    split
    next => exact hd.skip
    next =>
      split
      next h => exact add_le_length hd.skip (h.ge.trans (skipChr_le ',' _))
      next => exact hd.skip
  · intro all all' n h
    simp only [nextParameter] at h
    split at h
    · cases h
    · split at h
      · cases h
        omega
      · cases h

theorem parseAllProgramData_stop {x : List Byte} (hx : Plain x) (w : List Byte) :
    scpiParserParseAllProgramData (x ++ newLine :: w) = scpiParserParseAllProgramData x ∧
      (scpiParserParseAllProgramData x).2 ≤ x.length := by
  have hlen : x.length ≤ (x ++ newLine :: w).length := by simp
  exact loop_stop (fun _ n hx => hx.drop n) (fun _ w all hx => nextParameter_stop hx w all)
    (fun _ hx => nextParameter_steady hx) hx w _ (Nat.lt_succ_of_le hlen) (Nat.lt_succ_self _)

theorem nextParameter_counts {x : List Byte} (hx : Plain x) (all : AllData) :
    (nextParameter all x).acc.len ≤ all.len + (nextParameter all x).moves := by
  have hresult := (ends_parseProgramData hx).result
  simp only [nextParameter]
  split
  · exact Nat.zero_le _
  · split <;> simp only [Round.acc,Round.moves] <;> omega

theorem parseAllProgramData_len {x : List Byte} (hx : Plain x) :
    (scpiParserParseAllProgramData x).1.len ≤ (scpiParserParseAllProgramData x).2 := by
  have hcount := loop_counts (P := Plain) (fun _ n hx => hx.drop n) AllData.len
    (fun _ all hx => nextParameter_counts hx all) hx (x.length+1) ⟨true,0,0⟩
  rwa [Nat.zero_add] at hcount

theorem scpiLexNewLine_le (x : List Byte) : scpiLexNewLine x ≤ x.length :=
  add_le_length (skipChr_le _ _) (skipChr_le _ _)

theorem scpiLexNewLine_stop (x w : List Byte) :
    scpiLexNewLine (x ++ newLine :: w) = scpiLexNewLine (x ++ [newLine]) := by
  have hhead : ∀ y : List Byte, skipChr '\n' (y ++ newLine :: w) = skipChr '\n' (y ++ [newLine]) := by
    intro y
    cases y <;> rfl
  simp (disch := decide) only [scpiLexNewLine,skipChr_stop,drop_stop (skipChr_le '\r' x),hhead]

theorem terminator_le (x : List Byte) : terminator x ≤ x.length := by
  rw [terminator]
  split
  · exact skipChr_le _ _
  · exact scpiLexNewLine_le x

theorem terminator_stop (x w : List Byte) :
    terminator (x ++ newLine :: w) = terminator (x ++ [newLine]) := by
  simp (disch := decide) only [terminator,scpiLexNewLine_stop x w,skipChr_stop]

theorem parameters_stop {x : List Byte} (hx : Plain x) (w : List Byte) (gap : Nat) :
    parameters gap (x ++ newLine :: w) = parameters gap x ∧
      (parameters gap x).1.len ≤ (parameters gap x).2 ∧ (parameters gap x).2 ≤ x.length := by
  obtain ⟨hsame,hskip⟩ := parseAllProgramData_stop hx w
  rw [parameters,parameters]
  split
  · exact ⟨hsame,parseAllProgramData_len hx,hskip⟩
  · exact ⟨rfl,le_rfl,Nat.zero_le _⟩

theorem messageParts_stop {x : List Byte} (hx : Plain x) (w : List Byte) :
    messageParts (x ++ newLine :: w) = messageParts x ∧
      (messageParts x).data.len ≤ (messageParts x).dataSkip ∧ (messageParts x).pos ≤ x.length := by
  have hblanks := skipWs_le x
  obtain ⟨hheader,hlen⟩ := scpiLexProgramHeader_stop endsHeader_newLine (x.drop (skipWs x)) w
  have hgap := skipWs_le ((x.drop (skipWs x)).drop (scpiLexProgramHeader (x.drop (skipWs x))).2)
  obtain ⟨hall,hdata,hskip⟩ := parameters_stop
    (((hx.drop (skipWs x)).drop (scpiLexProgramHeader (x.drop (skipWs x))).2).drop
      (skipWs ((x.drop (skipWs x)).drop (scpiLexProgramHeader (x.drop (skipWs x))).2))) w
    (skipWs ((x.drop (skipWs x)).drop (scpiLexProgramHeader (x.drop (skipWs x))).2))
  refine ⟨?_,hdata,?_⟩
  · simp only [messageParts,skipWs_stop,drop_stop hblanks,hheader,drop_stop hlen,drop_stop hgap,hall]
  · have hle := add_le_length hblanks (add_le_length hlen (add_le_length hgap hskip))
    simp only [Parts.pos,Parts.dataAt,messageParts]
    omega

theorem take_drop_stop {x : List Byte} {n k : Nat} (h : n+k ≤ x.length) (w : List Byte) :
    ((x ++ newLine :: w).drop n).take k = (x.drop n).take k := by
  rw [drop_stop (by omega),List.take_append_of_le_length (by simp; omega)]

theorem take_one_stop (x w : List Byte) :
    (x ++ newLine :: w).take 1 = (x ++ [newLine]).take 1 := by
  cases x <;> rfl

theorem size_eq (s : List Byte) : (scpiParserDetectProgramMessageUnit s).size =
    (messageParts s).pos +
      if terminator (s.drop (messageParts s).pos) = 0 ∧ s.drop (messageParts s).pos ≠ [] then 1
      else terminator (s.drop (messageParts s).pos) := by
  simp only [scpiParserDetectProgramMessageUnit]
  split <;> rfl

theorem size_pos {s : List Byte} (hs : s ≠ []) :
    0 < (scpiParserDetectProgramMessageUnit s).size := by
  have hlen := List.length_pos_iff.mpr hs
  rw [size_eq]
  split
  next => omega
  next h =>
    by_cases hrest : s.drop (messageParts s).pos = []
    · have hpos := List.drop_eq_nil_iff.mp hrest
      omega
    · have hstop : terminator (s.drop (messageParts s).pos) ≠ 0 := fun h₀ => h ⟨h₀,hrest⟩
      omega

theorem detect_stop {x : List Byte} (hx : Plain x) (w : List Byte) :
    scpiParserDetectProgramMessageUnit (x ++ newLine :: w) =
        scpiParserDetectProgramMessageUnit (x ++ [newLine]) ∧
      (scpiParserDetectProgramMessageUnit (x ++ [newLine])).size ≤ x.length+1 := by
  have hparts := fun w => (messageParts_stop hx w).1
  obtain ⟨-,hdata,hpos⟩ := messageParts_stop hx []
  have hat : (messageParts x).pos = (messageParts x).dataAt + (messageParts x).dataSkip := rfl
  have hheader : (messageParts x).blanks + (messageParts x).header ≤ (messageParts x).dataAt := by
    simp only [Parts.dataAt]
    omega
  have hblanks : (messageParts x).blanks ≤ x.length := by omega
  constructor
  · simp only [scpiParserDetectProgramMessageUnit,hparts,drop_stop hpos,drop_stop hblanks,
      terminator_stop (x.drop (messageParts x).pos) w,
      scpiLexNewLine_stop (x.drop (messageParts x).pos) w,take_one_stop _ w,
      take_drop_stop (show (messageParts x).dataAt + (messageParts x).data.len ≤ x.length by omega),
      List.take_append_of_le_length
        (show (messageParts x).header ≤ (x.drop (messageParts x).blanks).length by simp; omega)]
    simp
  · have hstop := terminator_le (x.drop (messageParts x).pos ++ [newLine])
    simp only [List.length_append,List.length_drop,List.length_singleton] at hstop
    rw [size_eq,hparts,drop_stop hpos]
    split <;> omega

def messages : Nat → List Byte → List Message
  | 0, _ => []
  | fuel+1, s =>
    if s = [] then []
    else
      let m := scpiParserDetectProgramMessageUnit s
      m :: messages fuel (s.drop m.size)

def units (s : List Byte) : List Message := messages s.length s

theorem messages_fuel {s : List Byte} {fuel fuel' : Nat} (h : s.length ≤ fuel)
    (h' : s.length ≤ fuel') : messages fuel s = messages fuel' s := by
  induction fuel generalizing s fuel' with
  | zero =>
    rw [List.length_eq_zero_iff.mp (Nat.le_zero.mp h)]
    cases fuel' <;> rfl
  | succ fuel ih =>
    by_cases hs : s = []
    · subst hs
      cases fuel' <;> rfl
    · have hlen := List.length_pos_iff.mpr hs
      have hpos := size_pos hs
      obtain ⟨fuel',rfl⟩ : ∃ k, fuel' = k+1 := ⟨fuel'-1,by omega⟩
      rw [messages,messages,if_neg hs,if_neg hs]
      refine congrArg _ (ih ?_ ?_) <;> rw [List.length_drop] <;> omega

@[simp] theorem units_nil : units [] = [] := rfl

theorem units_of_ne {s : List Byte} (hs : s ≠ []) :
    units s = scpiParserDetectProgramMessageUnit s ::
      units (s.drop (scpiParserDetectProgramMessageUnit s).size) := by
  have hlen := List.length_pos_iff.mpr hs
  have hpos := size_pos hs
  obtain ⟨k,hk⟩ : ∃ k, s.length = k+1 := ⟨s.length-1,by omega⟩
  rw [units,hk,messages,if_neg hs]
  refine congrArg _ (messages_fuel ?_ le_rfl)
  rw [List.length_drop]
  omega

/-- Complete commands: whatever comes behind them, they are read in the same way, and
the parser goes on right behind them. -/
structure Complete (l : List Byte) : Prop where
  reads : ∀ w, units (l ++ w) = units l ++ units w
  size : ((units l).map Message.size).sum = l.length

theorem complete_nil : Complete [] := ⟨fun _ => rfl,rfl⟩

theorem Complete.append {l k : List Byte} (hl : Complete l) (hk : Complete k) :
    Complete (l ++ k) := by
  constructor
  · intro w
    rw [List.append_assoc,hl.reads,hk.reads,hl.reads,List.append_assoc]
  · rw [hl.reads,List.map_append,List.sum_append,hl.size,hk.size,List.length_append]

theorem Complete.of_detect {l : List Byte} (hl : l ≠ [])
    (hsize : (scpiParserDetectProgramMessageUnit l).size = l.length)
    (h : ∀ w, scpiParserDetectProgramMessageUnit (l ++ w) = scpiParserDetectProgramMessageUnit l) :
    Complete l := by
  have hself : units l = [scpiParserDetectProgramMessageUnit l] := by
    rw [units_of_ne hl,hsize,List.drop_length,units_nil]
  constructor
  · intro w
    rw [units_of_ne (by simp [hl]),h w,hsize,List.drop_left,hself]
    rfl
  · simp [hself,hsize]

/-- Every line without quotes and blocks is complete. -/
theorem complete_plain {x : List Byte} (hx : Plain x) : Complete (x ++ [newLine]) := by
  induction hn : x.length using Nat.strong_induction_on generalizing x with
  | _ n ih =>
    have hdetect := fun w => (detect_stop hx w).1
    have hle := (detect_stop hx []).2
    have hpos := size_pos (List.append_ne_nil_of_right_ne_nil x (List.cons_ne_nil newLine []))
    generalize hm : scpiParserDetectProgramMessageUnit (x ++ [newLine]) = m at *
    by_cases hend : m.size = x.length+1
    · refine .of_detect (by simp) (by simpa [hm] using hend) fun w => ?_
      rw [List.append_assoc,List.singleton_append,hdetect,hm]
    · have hlt : m.size ≤ x.length := by omega
      have hrest := ih (x.drop m.size).length (by simp; omega) (hx.drop m.size) rfl
      have hunits : ∀ w, units (x ++ newLine :: w) = m :: units (x.drop m.size ++ newLine :: w) := by
        intro w
        rw [units_of_ne (by simp),hdetect,drop_stop hlt]
      constructor
      · intro w
        have hreads := hrest.reads w
        rw [List.append_assoc,List.singleton_append] at hreads ⊢
        rw [hunits,hreads,hunits [],List.cons_append]
      · have hsize := hrest.size
        rw [hunits [],List.map_cons,List.sum_cons,hsize]
        simp
        omega

end Stm32Dds.Lexer
