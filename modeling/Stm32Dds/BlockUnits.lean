import Stm32Dds.MessageUnits

set_option autoImplicit false

namespace Stm32Dds.Lexer
open Bytes Scanning

structure BlockHeader where
  count : Byte
  digits : List Byte
  count_digit : isNonzeroDigit count = true
  digits_length : digits.length = count.toNat-0x30
  digits_digit : ∀ b ∈ digits, isdigit b = true

namespace BlockHeader

def text (h : BlockHeader) : List Byte := chr '#' :: h.count :: h.digits

def size (h : BlockHeader) : Nat := decimal h.digits

def token (h : BlockHeader) : Lexed :=
  ⟨.arbitraryBlockProgramData,h.size,h.text.length+h.size,h.text.length+h.size⟩

end BlockHeader

theorem arbitraryBlock_text (h : BlockHeader) (t : List Byte) :
    scpiLexArbitraryBlockProgramData (h.text ++ t) = h.token := by
  have htake : (h.digits ++ t).take (h.count.toNat-0x30) = h.digits := by
    rw [← h.digits_length,List.take_left]
  have hall : h.digits.takeWhile isdigit = h.digits :=
    List.takeWhile_eq_self_iff.mpr h.digits_digit
  have hhash : skipChr '#' (h.text ++ t) = 1 := rfl
  have hlen : h.text.length = 2 + (h.count.toNat-0x30) := by
    simp only [BlockHeader.text,List.length_cons,h.digits_length]
    omega
  rw [scpiLexArbitraryBlockProgramData,if_pos hhash]
  simp only [BlockHeader.text,List.cons_append,List.drop_succ_cons,List.drop_zero,h.count_digit,
    if_true,htake,hall,h.digits_length]
  simp only [BlockHeader.token,BlockHeader.size,hlen]
  simp
  omega

theorem exists_blockHeader {s : List Byte}
    (h : (scpiLexArbitraryBlockProgramData s).type = .arbitraryBlockProgramData) :
    ∃ (b : BlockHeader) (t : List Byte), s = b.text ++ t := by
  simp only [scpiLexArbitraryBlockProgramData] at h
  split at h
  next hhash =>
    cases s with
    | nil => cases hhash
    | cons a s =>
      obtain rfl : a = chr '#' := by simpa [skipChr,one] using hhash
      simp only [List.drop_succ_cons,List.drop_zero] at h
      cases s with
      | nil => cases h
      | cons c s =>
        dsimp only at h
        split at h
        next hc =>
          split at h
          next hi =>
            refine ⟨⟨c,(s.take (c.toNat-0x30)).takeWhile isdigit,hc,hi,?_⟩,
              s.drop (c.toNat-0x30),?_⟩
            · intro b hb
              exact List.mem_takeWhile_imp hb
            · have hall : (s.take (c.toNat-0x30)).takeWhile isdigit = s.take (c.toNat-0x30) := by
                have hp : (s.take (c.toNat-0x30)).takeWhile isdigit <+: s.take (c.toNat-0x30) :=
                  List.takeWhile_prefix _
                refine hp.eq_of_length_le ?_
                rw [hi,List.length_take]
                exact Nat.min_le_left _ _
              simp only [BlockHeader.text,hall,List.cons_append,List.take_append_drop]
          next =>
            split at h <;> cases h
        next => cases h
  next => cases h

/-- The outcome of a lexer for something else than a block: when it fails it has not
moved. -/
structure Lexed.Other (l : Lexed) : Prop where
  type : l.type ≠ .arbitraryBlockProgramData
  stays : l.result = 0 → l.skip = 0

theorem other_none : Lexed.none.Other := ⟨nofun,fun _ => rfl⟩

theorem other_whole {type : TokenType} (h : type ≠ .arbitraryBlockProgramData) (n : Nat) :
    (Lexed.whole type n).Other := by
  refine ⟨?_,fun h₀ => (whole_result type n).symm.trans h₀⟩
  rw [Lexed.whole]
  split
  · decide
  · exact h

theorem other_prefixed {type : TokenType} (h : type ≠ .arbitraryBlockProgramData) (n : Nat) :
    (prefixed type n).Other := by
  rw [prefixed]
  split
  · exact other_none
  · exact ⟨h,fun h₀ => h₀⟩

theorem other_nondecimal (s : List Byte) : (scpiLexNondecimalNumericData s).Other := by
  simp only [scpiLexNondecimalNumericData]
  split
  · split
    · exact other_none
    · split
      · exact other_prefixed (by decide) _
      · split
        · exact other_prefixed (by decide) _
        · split
          · exact other_prefixed (by decide) _
          · exact other_none
  · exact other_none

theorem other_character (s : List Byte) : (scpiLexCharacterProgramData s).Other :=
  other_whole (by decide) _

theorem other_decimal (s : List Byte) : (scpiLexDecimalNumericProgramData s).Other := by
  simp only [scpiLexDecimalNumericProgramData]
  split
  · exact other_none
  · exact other_whole (by decide) _

theorem other_decimalWithSuffix (s : List Byte) : (decimalWithSuffix s).Other := by
  have hd := other_decimal s
  rw [decimalWithSuffix]
  dsimp only
  split
  next => exact hd
  next h =>
    split
    · exact other_whole (by decide) _
    · exact ⟨hd.type,fun h₀ => absurd h₀ h⟩

theorem other_string (s : List Byte) : (scpiLexStringProgramData s).Other := by
  have hquoted : ∀ {type : TokenType}, type ≠ .arbitraryBlockProgramData → ∀ quote : Byte,
      (quoted type quote s).Other := by
    intro type htype quote
    simp only [quoted]
    split
    · exact other_whole htype _
    · exact other_none
  rw [scpiLexStringProgramData]
  split
  · exact hquoted (by decide) _
  · split
    · exact hquoted (by decide) _
    · exact other_none

theorem other_expression (s : List Byte) : (scpiLexProgramExpression s).Other := by
  simp only [scpiLexProgramExpression]
  split
  · split
    · exact other_whole (by decide) _
    · exact other_none
  · exact other_none

theorem orElse_block {first next : List Byte → Lexed} {s : List Byte} (hf : (first s).Other)
    (h : (orElse first next s).type = .arbitraryBlockProgramData) :
    orElse first next s = next s := by
  rw [orElse] at h ⊢
  dsimp only at h ⊢
  split
  next h₀ =>
    rw [hf.stays h₀,List.drop_zero]
    simp
  next h₀ =>
    rw [if_neg h₀] at h
    exact absurd h hf.type

theorem programData_block {s : List Byte}
    (h : (programData s).type = .arbitraryBlockProgramData) :
    ∃ (b : BlockHeader) (t : List Byte), s = b.text ++ t := by
  rw [programData] at h
  rw [orElse_block (other_nondecimal s) h] at h
  rw [orElse_block (other_character s) h] at h
  rw [orElse_block (other_decimalWithSuffix s) h] at h
  rw [orElse_block (other_string s) h] at h
  rw [orElse] at h
  dsimp only at h
  split at h
  · exact absurd h (other_expression _).type
  · exact exists_blockHeader h

theorem orElse_none {first next : List Byte → Lexed} {s : List Byte} (h : first s = .none) :
    orElse first next s = next s := by
  simp [orElse,h,Lexed.none]

theorem isNonzeroDigit_letters : ∀ b : Byte, isNonzeroDigit b = true →
    isH b = false ∧ isQ b = false ∧ isB b = false := by decide

theorem programData_text (h : BlockHeader) (t : List Byte) : programData (h.text ++ t) = h.token := by
  obtain ⟨hH,hQ,hB⟩ := isNonzeroDigit_letters h.count h.count_digit
  have hnondecimal : scpiLexNondecimalNumericData (h.text ++ t) = .none := by
    simp [scpiLexNondecimalNumericData,BlockHeader.text,hH,hQ,hB]
  have hcharacter : scpiLexCharacterProgramData (h.text ++ t) = .none := rfl
  have hdecimal : decimalWithSuffix (h.text ++ t) = .none := rfl
  have hstring : scpiLexStringProgramData (h.text ++ t) = .none := rfl
  have hblock := arbitraryBlock_text h t
  rw [programData,orElse_none hnondecimal,orElse_none hcharacter,orElse_none hdecimal,
    orElse_none hstring,orElse,hblock]
  rw [if_neg]
  simp [BlockHeader.token,BlockHeader.text]

section
variable {blanks : List Byte} (hblanks : ∀ b ∈ blanks, isws b = true)
include hblanks

theorem skipWs_hash (h : BlockHeader) (t : List Byte) :
    skipWs (blanks ++ (h.text ++ t)) = blanks.length := by
  rw [skipWs,many_all hblanks]
  rfl

theorem parseProgramData_text (h : BlockHeader) (t : List Byte) :
    scpiParserParseProgramData (blanks ++ (h.text ++ t)) =
      ⟨.arbitraryBlockProgramData,h.size,
        h.text.length+h.size + (blanks.length + skipWs (t.drop h.size)),
        blanks.length + (h.text.length+h.size + skipWs (t.drop h.size))⟩ := by
  have hdrop : (h.text ++ t).drop h.token.skip = t.drop h.size := by
    rw [BlockHeader.token,List.drop_append]
    simp
  rw [scpiParserParseProgramData,skipWs_hash hblanks]
  simp only [List.drop_left,programData_text,hdrop]
  rfl

theorem le_parseAllProgramData_text (h : BlockHeader) (t : List Byte) :
    blanks.length + (h.text.length+h.size) ≤
      (scpiParserParseAllProgramData (blanks ++ (h.text ++ t))).2 := by
  refine Nat.le_trans ?_ (moves_le_loop _ _ _)
  simp only [nextParameter,parseProgramData_text hblanks]
  split
  next hunknown => cases hunknown
  next =>
    split <;> simp only [Round.moves] <;> omega

end

theorem parseProgramData_first (h : BlockHeader) (t : List Byte) :
    scpiParserParseProgramData (h.text ++ t) =
      ⟨.arbitraryBlockProgramData,h.size,h.text.length+h.size + skipWs (t.drop h.size),
        h.text.length+h.size + skipWs (t.drop h.size)⟩ := by
  have hparse := parseProgramData_text (fun c (hc : c ∈ []) => absurd hc List.not_mem_nil) h t
  simpa using hparse

theorem parseProgramData_block {s : List Byte}
    (h : (scpiParserParseProgramData s).type = .arbitraryBlockProgramData) :
    ∃ (blanks : List Byte) (b : BlockHeader) (t : List Byte),
      (∀ c ∈ blanks, isws c = true) ∧ s = blanks ++ (b.text ++ t) := by
  obtain ⟨b,t,ht⟩ := programData_block (s := s.drop (skipWs s)) h
  have hp : s.takeWhile isws <+: s := List.takeWhile_prefix _
  have htake : s.takeWhile isws = s.take (skipWs s) := List.prefix_iff_eq_take.mp hp
  refine ⟨s.takeWhile isws,b,t,fun c hc => List.mem_takeWhile_imp hc,?_⟩
  rw [← ht,htake,List.take_append_drop]

theorem parameters_messageParts (s : List Byte) :
    parameters (messageParts s).gap (s.drop (messageParts s).dataAt) =
      ((messageParts s).data,(messageParts s).dataSkip) := by
  have hdrop : s.drop (messageParts s).dataAt =
      ((s.drop (messageParts s).blanks).drop (messageParts s).header).drop (messageParts s).gap := by
    rw [List.drop_drop,List.drop_drop,Parts.dataAt]
  rw [hdrop]
  rfl

theorem detect_data {s : List Byte} (h : (scpiParserDetectProgramMessageUnit s).data ≠ []) :
    (scpiParserDetectProgramMessageUnit s).dataAt = (messageParts s).dataAt ∧
      (scpiParserDetectProgramMessageUnit s).data =
        (s.drop (messageParts s).dataAt).take (messageParts s).data.len := by
  simp only [scpiParserDetectProgramMessageUnit] at h ⊢
  split at h
  · exact absurd rfl h
  next hvalid =>
    rw [if_neg hvalid]
    exact ⟨rfl,rfl⟩

theorem block_inside {s : List Byte}
    (hsize : (scpiParserDetectProgramMessageUnit s).size ≤ s.length)
    (hblock : (scpiParserParseProgramData (scpiParserDetectProgramMessageUnit s).data).type =
      .arbitraryBlockProgramData) :
    (scpiParserDetectProgramMessageUnit s).dataAt +
      (scpiParserParseProgramData (scpiParserDetectProgramMessageUnit s).data).skip ≤ s.length := by
  obtain ⟨blanks,b,t,hblanks,hdata⟩ := parseProgramData_block hblock
  have hne : (scpiParserDetectProgramMessageUnit s).data ≠ [] := by
    rw [hdata]
    simp [BlockHeader.text]
  obtain ⟨hat,hspan⟩ := detect_data hne
  have hpos : (messageParts s).pos ≤ (scpiParserDetectProgramMessageUnit s).size := by
    rw [size_eq]
    exact Nat.le_add_right _ _
  -- the same block stands where the parameters were read
  obtain ⟨more,hmore⟩ : ∃ more, s.drop (messageParts s).dataAt = blanks ++ (b.text ++ (t ++ more)) := by
    refine ⟨(s.drop (messageParts s).dataAt).drop (messageParts s).data.len,?_⟩
    have hsplit := List.take_append_drop (messageParts s).data.len (s.drop (messageParts s).dataAt)
    rw [← hspan,hdata] at hsplit
    simpa using hsplit.symm
  have hskip : blanks.length + (b.text.length+b.size) ≤ (messageParts s).dataSkip := by
    have hparam := parameters_messageParts s
    rw [parameters] at hparam
    split at hparam
    · rw [hmore] at hparam
      have hle := le_parseAllProgramData_text hblanks b (t ++ more)
      rwa [hparam] at hle
    · have hlen : (messageParts s).data.len = 0 := by rw [← (Prod.mk.inj hparam).1]
      rw [hspan,hlen] at hne
      exact absurd List.take_zero hne
  have hlen : (s.drop (messageParts s).dataAt).length = s.length - (messageParts s).dataAt :=
    List.length_drop
  rw [hmore] at hlen
  simp only [List.length_append] at hlen
  rw [hat,hdata,parseProgramData_text hblanks]
  have hdef : (messageParts s).pos = (messageParts s).dataAt + (messageParts s).dataSkip := rfl
  have hws := skipWs_le (t.drop b.size)
  rw [List.length_drop] at hws
  dsimp only
  omega

section
variable {blanks s : List Byte} (hblanks : ∀ b ∈ blanks, isws b = true) (hs : skipWs s = 0)
include hblanks hs

theorem messageParts_blanks :
    messageParts (blanks ++ s) = { messageParts s with blanks := blanks.length } := by
  have hws : skipWs (blanks ++ s) = blanks.length := by
    rw [skipWs,many_all hblanks]
    exact congrArg (blanks.length + ·) hs
  simp only [messageParts,hws,hs,List.drop_left,List.drop_zero]

theorem detect_blanks (hvalid : (scpiParserDetectProgramMessageUnit s).invalid = false) :
    scpiParserDetectProgramMessageUnit (blanks ++ s) =
      { scpiParserDetectProgramMessageUnit s with
        headerAt := blanks.length
        dataAt := blanks.length + (scpiParserDetectProgramMessageUnit s).dataAt
        size := blanks.length + (scpiParserDetectProgramMessageUnit s).size } := by
  have hzero : (messageParts s).blanks = 0 := hs
  have hdrop : ∀ n, (blanks ++ s).drop (blanks.length+n) = s.drop n := by
    intro n
    rw [← List.drop_drop,List.drop_left]
  have hparts := messageParts_blanks hblanks hs
  have hdata : (messageParts (blanks ++ s)).dataAt = blanks.length + (messageParts s).dataAt := by
    rw [hparts,Parts.dataAt,Parts.dataAt,hzero,Nat.zero_add]
  have hpos : (messageParts (blanks ++ s)).pos = blanks.length + (messageParts s).pos := by
    rw [Parts.pos,hdata,Parts.pos,hparts,Nat.add_assoc]
  simp only [scpiParserDetectProgramMessageUnit] at hvalid ⊢
  split at hvalid
  next => cases hvalid
  next hstop =>
    simp only [hpos,hdata,hdrop,if_neg hstop,hzero,List.drop_zero,Nat.add_assoc]
    simp only [hparts,List.drop_left]

end

structure Opening where
  header : List Byte
  gap : List Byte
  block : BlockHeader
  header_ne : header ≠ []
  header_whole : (scpiLexProgramHeader header).2 = header.length
  gap_ne : gap ≠ []
  gap_blank : ∀ c ∈ gap, isws c = true

namespace Opening
variable (o : Opening)

def text : List Byte := o.header ++ (o.gap ++ o.block.text)

theorem header_not_blank (w : List Byte) : skipWs (o.header ++ w) = 0 := by
  obtain ⟨c,x,hx⟩ := List.exists_cons_of_ne_nil o.header_ne
  cases hc : isws c with
  | false => simp [skipWs,many,hx,hc]
  | true =>
    -- a header that starts with a blank is empty for the lexer
    have hstop := (scpiLexProgramHeader_stop (endsHeader_of_isws hc) [] x).1
    have hwhole := o.header_whole
    rw [hx,← List.nil_append (c :: x),hstop] at hwhole
    cases hwhole

theorem header_stop (w : List Byte) :
    (scpiLexProgramHeader (o.header ++ (o.gap ++ w))).2 = o.header.length := by
  obtain ⟨c,x,hx⟩ := List.exists_cons_of_ne_nil o.gap_ne
  have hc : isws c = true := o.gap_blank c (by simp [hx])
  rw [hx,List.cons_append,(scpiLexProgramHeader_stop (endsHeader_of_isws hc) o.header (x ++ w)).1,
    o.header_whole]

theorem text_length : o.text.length = o.header.length + (o.gap.length + o.block.text.length) := by
  simp [text]

end Opening

theorem terminator_first {s : List Byte} (h : terminator s ≠ 0) :
    skipWs s = 0 ∧ skipChr ',' s = 0 := by
  cases s with
  | nil => exact ⟨rfl,rfl⟩
  | cons b s =>
    have hb : b = chr '\r' ∨ b = chr '\n' ∨ b = chr ';' := by
      by_contra hnone
      push Not at hnone
      obtain ⟨hcr,hlf,hsemi⟩ := hnone
      exact h (by simp [terminator,scpiLexNewLine,skipChr,one,hcr,hlf,hsemi])
    obtain rfl | rfl | rfl := hb
    all_goals exact ⟨rfl,rfl⟩

/-- A command with its block in a packet: the packet has the whole block, and then blanks
and a terminator or nothing; or it ends in the block. -/
structure Placed (o : Opening) where
  blanks : List Byte
  data : List Byte
  trailing : List Byte
  rest : List Byte
  blanks_blank : ∀ c ∈ blanks, isws c = true
  trailing_blank : ∀ c ∈ trailing, isws c = true
  data_le : data.length ≤ o.block.size
  ends : data.length < o.block.size → trailing ++ rest = []
  stop : terminator rest ≠ 0 ∨ rest = []

namespace Placed
variable {o : Opening} (b : Placed o)

def body : List Byte := b.data ++ (b.trailing ++ b.rest)

def text : List Byte := b.blanks ++ (o.text ++ b.body)

theorem body_drop : b.body.drop o.block.size = b.trailing ++ b.rest := by
  obtain hlt | heq := b.data_le.lt_or_eq
  · rw [body,b.ends hlt,List.append_nil]
    exact List.drop_eq_nil_of_le b.data_le
  · rw [body,← heq,List.drop_left]

theorem rest_first : skipWs b.rest = 0 ∧ skipChr ',' b.rest = 0 := by
  obtain hstop | hnil := b.stop
  · exact terminator_first hstop
  · rw [hnil]
    exact ⟨rfl,rfl⟩

theorem body_blanks : skipWs (b.body.drop o.block.size) = b.trailing.length := by
  have hfirst := b.rest_first.1
  rw [skipWs] at hfirst
  rw [b.body_drop,skipWs,many_all b.trailing_blank,hfirst,Nat.add_zero]

theorem body_take :
    (o.block.text ++ b.body).take (o.block.text.length + o.block.size + b.trailing.length) =
      o.block.text ++ (b.data ++ b.trailing) := by
  obtain hlt | heq := b.data_le.lt_or_eq
  · obtain ⟨htrailing,hrest⟩ := List.append_eq_nil_iff.mp (b.ends hlt)
    rw [body,htrailing,hrest]
    refine List.take_of_length_le ?_
    simp only [List.append_nil,List.length_append,List.length_nil]
    omega
  · rw [body,← heq,← List.append_assoc b.data,← List.append_assoc o.block.text,Nat.add_assoc,
      ← List.length_append,← List.length_append,List.take_left]

theorem parameters_body : scpiParserParseAllProgramData (o.block.text ++ b.body) =
    (⟨true,o.block.text.length + o.block.size + b.trailing.length,1⟩,
      o.block.text.length + o.block.size + b.trailing.length) := by
  have hparse := parseProgramData_first o.block b.body
  rw [b.body_blanks] at hparse
  have hdrop : (o.block.text ++ b.body).drop
      (o.block.text.length + o.block.size + b.trailing.length) = b.rest := by
    rw [Nat.add_assoc,← List.drop_drop,List.drop_left,← List.drop_drop,b.body_drop,List.drop_left]
  rw [scpiParserParseAllProgramData,loop]
  simp only [nextParameter,hparse,Nat.zero_add,hdrop,b.rest_first.2]
  simp

theorem messageParts_body : messageParts (o.text ++ b.body) =
    ⟨0,o.header.length,o.gap.length,
      ⟨true,o.block.text.length + o.block.size + b.trailing.length,1⟩,
      o.block.text.length + o.block.size + b.trailing.length⟩ := by
  have htext : o.text ++ b.body = o.header ++ (o.gap ++ (o.block.text ++ b.body)) := by
    simp [Opening.text]
  have hgap : 0 < o.gap.length := List.length_pos_iff.mpr o.gap_ne
  rw [htext]
  simp only [messageParts,o.header_not_blank,List.drop_zero,o.header_stop,List.drop_left,
    skipWs_hash o.gap_blank,parameters,if_pos hgap,b.parameters_body]

def unit : Message :=
  ⟨false,b.blanks.length,o.header,b.blanks.length + (o.header.length+o.gap.length),
    o.block.text ++ (b.data ++ b.trailing),1,
    if scpiLexNewLine b.rest > 0 then .newLine
    else if terminator b.rest > 0 then .semicolon else .none,
    b.blanks.length + (o.text.length + o.block.size + b.trailing.length + terminator b.rest)⟩

theorem detect_text : scpiParserDetectProgramMessageUnit b.text = b.unit := by
  have hparts := b.messageParts_body
  have hlen := o.text_length
  have hpos : (messageParts (o.text ++ b.body)).pos =
      o.text.length + o.block.size + b.trailing.length := by
    rw [hparts,hlen]
    simp only [Parts.pos,Parts.dataAt]
    omega
  have hrest : (o.text ++ b.body).drop (o.text.length + o.block.size + b.trailing.length) =
      b.rest := by
    rw [Nat.add_assoc,← List.drop_drop,List.drop_left,← List.drop_drop,b.body_drop,List.drop_left]
  have hdata : (o.text ++ b.body).drop (o.header.length+o.gap.length) =
      o.block.text ++ b.body := by
    rw [Opening.text,← List.append_assoc o.header,List.append_assoc,← List.length_append,
      List.drop_left]
  have hdetect : scpiParserDetectProgramMessageUnit (o.text ++ b.body) =
      ⟨false,0,o.header,o.header.length+o.gap.length,o.block.text ++ (b.data ++ b.trailing),1,
        if scpiLexNewLine b.rest > 0 then .newLine
        else if terminator b.rest > 0 then .semicolon else .none,
        o.text.length + o.block.size + b.trailing.length + terminator b.rest⟩ := by
    rw [scpiParserDetectProgramMessageUnit]
    simp only [hpos,hrest]
    rw [if_neg]
    · simp only [hparts,Parts.dataAt,Nat.zero_add,hdata,List.drop_zero,b.body_take]
      simp [Opening.text]
    · rintro ⟨hzero,hne⟩
      exact b.stop.elim (fun h => h hzero) hne
  have hws : skipWs (o.text ++ b.body) = 0 := by
    rw [Opening.text,List.append_assoc]
    exact o.header_not_blank _
  rw [text,detect_blanks b.blanks_blank hws (by rw [hdetect]),hdetect]
  rfl

end Placed

theorem Opening.complete (o : Opening) {data : List Byte} (hdata : data.length = o.block.size) :
    Complete (o.text ++ (data ++ [newLine])) := by
  have hdetect : ∀ w, scpiParserDetectProgramMessageUnit (o.text ++ (data ++ newLine :: w)) =
      ⟨false,0,o.header,o.header.length+o.gap.length,o.block.text ++ data,1,.newLine,
        o.text.length+o.block.size+1⟩ := by
    intro w
    let b : Placed o := ⟨[],data,[],newLine :: w,by simp,by simp,hdata.le,
      fun hlt => absurd hlt hdata.not_lt,.inl one_ne_zero⟩
    have hunit := b.detect_text
    simp only [Placed.text,Placed.body,Placed.unit,b,List.nil_append,List.append_nil,
      List.length_nil,Nat.zero_add,Nat.add_zero] at hunit
    exact hunit
  refine .of_detect (by simp) ?_ fun w => ?_
  · rw [hdetect []]
    simp only [List.length_append,List.length_singleton,hdata]
    omega
  · rw [List.append_assoc,List.append_assoc,List.singleton_append,hdetect w,hdetect []]

end Stm32Dds.Lexer
