import Stm32Dds.ScpiParser

/-! The headers that select a command. A pattern of the command table stands for a set of
spellings: every keyword in its long or its short form, in any case, a colon in front of the
first one, a last keyword that may be left out. matchCommand accepts these and nothing else,
and no header is a spelling of two patterns of the table. -/

set_option autoImplicit false

namespace Stm32Dds.Scpi

def separators : List Char := ['?',':','[',']']

/-- A keyword of a pattern: capital letters as far as the short form goes. -/
structure Keyword where
  text : List Char
  apart : text.all (fun c => !separators.contains c) = true
  short_ne : patternSeparatorShort text ≠ []

def Keyword.of? (text : List Char) : Option Keyword :=
  if h : text.all (fun c => !separators.contains c) = true ∧ patternSeparatorShort text ≠ [] then
    some ⟨text,h.1,h.2⟩
  else none

def Keyword.forms (k : Keyword) : List (List Char) :=
  [k.text.map Char.toLower,(patternSeparatorShort k.text).map Char.toLower]

def Keyword.Names (k : Keyword) (word : List Char) : Prop := word.map Char.toLower ∈ k.forms

inductive Spelled : List Keyword → List Char → Prop
  | one {k : Keyword} {word : List Char} : k.Names word → Spelled [k] word
  | cons {k : Keyword} {ks : List Keyword} {word rest : List Char} :
      k.Names word → Spelled ks rest → Spelled (k :: ks) (word ++ ':' :: rest)

structure Pattern where
  first : Keyword
  rest : List Keyword
  last : Option Keyword
  query : Bool

def rowText (k : Keyword) : List Keyword → List Char
  | [] => k.text
  | next :: ks => k.text ++ ':' :: rowText next ks

def optionalText : Option Keyword → List Char
  | none => []
  | some k => '[' :: ':' :: (k.text ++ [']'])

def Pattern.body (p : Pattern) : List Char := rowText p.first p.rest ++ optionalText p.last

def Pattern.text (p : Pattern) : List Char := p.body ++ if p.query then ['?'] else []

def Pattern.rows (p : Pattern) : List (List Keyword) :=
  (p.first :: p.rest) :: p.last.toList.map fun k => (p.first :: p.rest) ++ [k]

def Pattern.Allows (p : Pattern) (words : List Char) : Prop := ∃ row ∈ p.rows, Spelled row words

-- a common command, which starts with an asterisk, takes no colon
def Pattern.SpelledBy (p : Pattern) (header : List Char) : Prop :=
  ∃ words, p.Allows words ∧
    (header = words ++ (if p.query then ['?'] else []) ∨
      words.head? ≠ some '*' ∧ header = ':' :: words ++ if p.query then ['?'] else [])

def Pattern.parts (text : List Char) : Option Pattern := do
  let query := decide (text.getLast? = some '?')
  let body := if query then text.dropLast else text
  let (required,optional) := body.span fun c => c != '['
  let keys ← (required.splitOn ':').mapM Keyword.of?
  let first ← keys.head?
  pure ⟨first,keys.tail,Keyword.of? (optional.drop 2).dropLast,query⟩

/-- The parts of a pattern; the text they stand for is compared with the whole pattern. -/
def Pattern.read (text : List Char) : Option Pattern :=
  (Pattern.parts text).filter fun p => p.text == text

theorem Pattern.read_text {text : List Char} {p : Pattern} (h : Pattern.read text = some p) :
    p.text = text := by
  rw [Pattern.read,Option.filter_eq_some_iff] at h
  exact eq_of_beq h.2

def Spells (pattern : String) (header : List Char) : Prop :=
  ∃ p, Pattern.read pattern.toList = some p ∧ p.SpelledBy header

theorem Keyword.plain (k : Keyword) : ∀ c ∈ k.text, c ∉ separators := by
  simpa using k.apart

section Words

variable {k : Keyword} {ks : List Keyword} {word rest cmd : List Char} {set : List Char}

theorem toLower_separator {c d : Char} (hd : d ∈ separators) (h : c.toLower = d) : c = d := by
  unfold Char.toLower at h
  split at h
  · rename_i hc
    have hlow : 65 ≤ c.val.toNat := UInt32.le_iff_toNat_le.mp hc.1
    have hhigh : c.val.toNat ≤ 90 := UInt32.le_iff_toNat_le.mp hc.2
    have hval : (c.val.toNat+32) % 2^32 = d.val.toNat := congrArg (fun c : Char => c.val.toNat) h
    have hsmall : ∀ d ∈ separators, d.val.toNat < 97 := by simp [separators]
    have hd' := hsmall d hd
    omega
  · exact h

theorem strnpbrk_append (hword : ∀ c ∈ word, c ∉ set) (hrest : ∀ c ∈ rest.head?, c ∈ set) :
    strnpbrk set (word ++ rest) = (word,rest) := by
  have hpos : ∀ c ∈ word, (!set.contains c) = true := by simpa using hword
  rw [strnpbrk,List.span_eq_takeWhile_dropWhile,List.takeWhile_append_of_pos hpos,
    List.dropWhile_append_of_pos hpos]
  cases rest with
  | nil => simp
  | cons c rest =>
    have hc : ¬(!set.contains c) = true := by simpa using hrest c rfl
    rw [List.takeWhile_cons,if_neg hc,List.dropWhile_cons,if_neg hc,List.append_nil]

theorem patternSeparator_append (k : Keyword) (hrest : ∀ c ∈ rest.head?, c ∈ separators) :
    patternSeparator (k.text ++ rest) = (k.text,rest) :=
  strnpbrk_append k.plain hrest

theorem cmdSeparator_eq (cmd : List Char) :
    cmd = (cmdSeparator cmd).1 ++ (cmdSeparator cmd).2 ∧
      ∀ c ∈ (cmdSeparator cmd).2.head?, c = ':' ∨ c = '?' := by
  rw [cmdSeparator,strnpbrk,List.span_eq_takeWhile_dropWhile]
  refine ⟨List.takeWhile_append_dropWhile.symm,fun c hc => ?_⟩
  have h := List.head?_dropWhile_not (fun c => !([':','?'] : List Char).contains c) cmd
  rw [Option.mem_def.mp hc] at h
  by_cases hcolon : c = ':'
  · exact .inl hcolon
  · exact .inr (by simpa [hcolon] using h)

theorem matchPattern_iff : matchPattern k.text word = true ↔ k.Names word := by
  have hcompare (form : List Char) : compareStr form word = true ↔
      word.map Char.toLower = form.map Char.toLower := beq_iff_eq.trans eq_comm
  rw [matchPattern,Bool.or_eq_true,hcompare,hcompare]
  simp [Keyword.Names,Keyword.forms]

theorem Keyword.text_ne (k : Keyword) : k.text ≠ [] := by
  intro h
  exact k.short_ne (by rw [h]; rfl)

theorem Keyword.Names.ne_nil (h : k.Names word) : word ≠ [] := by
  rintro rfl
  simp only [Keyword.Names,Keyword.forms,List.map_nil,List.mem_cons,List.not_mem_nil,or_false,
    List.nil_eq,List.map_eq_nil_iff] at h
  exact h.elim k.text_ne k.short_ne

theorem Keyword.Names.plain (h : k.Names word) : ∀ c ∈ word, c ∉ separators := by
  intro c hc hsep
  have hlow : c.toLower = c := by
    simp only [separators,List.mem_cons,List.not_mem_nil,or_false] at hsep
    rcases hsep with rfl | rfl | rfl | rfl <;> rfl
  have hmem : c ∈ word.map Char.toLower := List.mem_map.mpr ⟨c,hc,hlow⟩
  have htext : ∃ d ∈ k.text, d.toLower = c := by
    simp only [Keyword.Names,Keyword.forms,List.mem_cons,List.not_mem_nil,or_false] at h
    rcases h with h | h
    · rwa [h,List.mem_map] at hmem
    · rw [h,List.mem_map] at hmem
      obtain ⟨d,hd,hdc⟩ := hmem
      exact ⟨d,(List.takeWhile_prefix _).subset hd,hdc⟩
  obtain ⟨d,hd,hdc⟩ := htext
  rw [← toLower_separator hsep hdc] at hsep
  exact k.plain d hd hsep

theorem Keyword.Names.cmdSeparator (h : k.Names word) (hrest : ∀ c ∈ rest.head?, c = ':') :
    cmdSeparator (word ++ rest) = (word,rest) := by
  refine strnpbrk_append (fun c hc hset => h.plain c hc ?_) fun c hc => ?_
  · simp only [List.mem_cons,List.not_mem_nil,or_false] at hset
    rcases hset with rfl | rfl <;> decide
  · rw [hrest c hc]
    decide

theorem spelled_one : Spelled [k] cmd ↔ k.Names (cmdSeparator cmd).1 ∧ (cmdSeparator cmd).2 = [] := by
  constructor
  · intro h
    cases h with
    | one h =>
      have hsep := h.cmdSeparator (show ∀ c ∈ ([] : List Char).head?, c = ':' by simp)
      rw [List.append_nil] at hsep
      rw [hsep]
      exact ⟨h,rfl⟩
    | cons _ h => cases h
  · rintro ⟨hnames,hrest⟩
    rw [(cmdSeparator_eq cmd).1,hrest,List.append_nil]
    exact .one hnames

theorem spelled_cons {next : Keyword} : Spelled (k :: next :: ks) cmd ↔
    k.Names (cmdSeparator cmd).1 ∧ ∃ rest, (cmdSeparator cmd).2 = ':' :: rest ∧
      Spelled (next :: ks) rest := by
  constructor
  · intro h
    cases h with
    | cons hnames hrest =>
      rw [hnames.cmdSeparator (by simp)]
      exact ⟨hnames,_,rfl,hrest⟩
  · rintro ⟨hnames,rest,hcmd,hrest⟩
    rw [(cmdSeparator_eq cmd).1,hcmd]
    exact .cons hnames hrest

end Words

section Matching

variable {k : Keyword} {ks : List Keyword} {cmd : List Char} {fuel : Nat}

theorem matchKeywords_optional (k : Keyword) (cmd : List Char) :
    matchKeywords (fuel+1) 1 (k.text ++ [']']) cmd = true ↔ Spelled [k] cmd := by
  rw [matchKeywords,patternSeparator_append k (by simp [separators]),spelled_one,← matchPattern_iff]
  obtain ⟨-,hhead⟩ := cmdSeparator_eq cmd
  generalize cmdSeparator cmd = p at hhead ⊢
  obtain ⟨word,rest⟩ := p
  cases rest with
  | nil => by_cases h : matchPattern k.text word = true <;> simp [h,restOptional,patternSeparator,strnpbrk]
  | cons c rest => by_cases h : matchPattern k.text word = true <;> simp [h]

theorem rowText_append (k : Keyword) (ks : List Keyword) (tail : List Char) :
    ∃ text, rowText k ks ++ tail = k.text ++ text := by
  cases ks with
  | nil => exact ⟨tail,rfl⟩
  | cons next ks => exact ⟨_,List.append_assoc _ _ _⟩

theorem keyword_head (k : Keyword) (text : List Char) :
    ∃ c rest, k.text ++ text = c :: rest ∧ c ∉ separators := by
  obtain ⟨c,rest,hk⟩ := List.exists_cons_of_ne_nil k.text_ne
  exact ⟨c,rest ++ text,by rw [hk]; rfl,k.plain c (by simp [hk])⟩

theorem restOptional_optional (k : Keyword) :
    restOptional (fuel+3) 0 ('[' :: ':' :: (k.text ++ [']'])) = true := by
  have hopen : patternSeparator ('[' :: ':' :: (k.text ++ [']'])) = ([],'[' :: ':' :: (k.text ++ [']'])) := rfl
  have hcolon : patternSeparator (':' :: (k.text ++ [']'])) = ([],':' :: (k.text ++ [']'])) := rfl
  have hclose := patternSeparator_append k
    (show ∀ c ∈ [']'].head?, c ∈ separators by simp [separators])
  rw [restOptional,hopen]
  simp [restOptional,hcolon,hclose]

theorem restOptional_required (k : Keyword) (text : List Char) :
    restOptional (fuel+1) 0 (':' :: (k.text ++ text)) = false := by
  obtain ⟨c,rest,hk,hc⟩ := keyword_head k text
  have hsep : patternSeparator (':' :: (c :: rest)) = ([],':' :: c :: rest) := rfl
  have hne : c ≠ '[' := by
    rintro rfl
    exact hc (by decide)
  rw [hk,restOptional,hsep]
  simp [hne]

theorem matchKeywords_iff (k : Keyword) (ks : List Keyword) (last : Option Keyword)
    (hfuel : (rowText k ks ++ optionalText last).length < fuel) (cmd : List Char) :
    matchKeywords fuel 0 (rowText k ks ++ optionalText last) cmd = true ↔
      Spelled (k :: ks) cmd ∨ ∃ o ∈ last, Spelled (k :: ks ++ [o]) cmd := by
  induction ks generalizing k fuel cmd with
  | nil =>
    obtain ⟨-,hhead⟩ := cmdSeparator_eq cmd
    cases last with
    | none =>
      obtain ⟨fuel,rfl⟩ : ∃ f, fuel = f+1 := ⟨fuel-1,by omega⟩
      rw [rowText,optionalText,matchKeywords,patternSeparator_append k (by simp)]
      simp only [spelled_one,← matchPattern_iff,Option.not_mem_none,false_and,exists_false,or_false]
      generalize cmdSeparator cmd = p at hhead ⊢
      obtain ⟨word,rest⟩ := p
      by_cases h : matchPattern k.text word = true
      · cases rest <;> simp [h]
      · simp [h]
    | some o =>
      obtain ⟨fuel,rfl⟩ : ∃ f, fuel = f+3 := ⟨fuel-3,by simp [optionalText] at hfuel; omega⟩
      rw [rowText,optionalText,matchKeywords,patternSeparator_append k (by simp [separators])]
      simp only [spelled_one,List.cons_append,List.nil_append,spelled_cons,← matchPattern_iff]
      generalize cmdSeparator cmd = p at hhead ⊢
      obtain ⟨word,rest⟩ := p
      by_cases h : matchPattern k.text word = true
      · cases rest with
        | nil => simp [h,restOptional_optional]
        | cons c rest =>
          rcases hhead c rfl with rfl | rfl
          · simp [h,matchKeywords_optional,spelled_one,matchPattern_iff]
          · simp [h]
      · simp [h]
  | cons next ks ih =>
    obtain ⟨fuel,rfl⟩ : ∃ f, fuel = f+1 := ⟨fuel-1,by omega⟩
    obtain ⟨-,hhead⟩ := cmdSeparator_eq cmd
    rw [rowText,List.append_assoc,matchKeywords,patternSeparator_append k (by simp [separators])]
    simp only [List.cons_append,spelled_cons,← matchPattern_iff]
    generalize cmdSeparator cmd = p at hhead ⊢
    obtain ⟨word,rest⟩ := p
    by_cases h : matchPattern k.text word = true
    · cases rest with
      | nil =>
        obtain ⟨text,htext⟩ := rowText_append next ks (optionalText last)
        simp [h,htext,restOptional_required]
      | cons c rest =>
        rcases hhead c rfl with rfl | rfl
        · have hrest := ih next (show _ < fuel by simp [rowText] at hfuel ⊢; omega) rest
          simpa [h] using hrest
        · simp [h]
    · simp [h]

theorem Spelled.no_query {row : List Keyword} {words : List Char} (h : Spelled row words) :
    '?' ∉ words := by
  induction h with
  | one h =>
    intro hmem
    exact h.plain _ hmem (by decide)
  | cons h _ ih =>
    intro hmem
    rcases List.mem_append.mp hmem with hmem | hmem
    · exact h.plain _ hmem (by decide)
    · exact ih (by simpa using hmem)

theorem Spelled.head {row : List Keyword} {words : List Char} (h : Spelled row words) :
    ∃ c rest, words = c :: rest ∧ c ≠ ':' := by
  have hword {k : Keyword} {word : List Char} (h : k.Names word) (tail : List Char) :
      ∃ c rest, word ++ tail = c :: rest ∧ c ≠ ':' := by
    obtain ⟨c,rest,hw⟩ := List.exists_cons_of_ne_nil h.ne_nil
    refine ⟨c,rest ++ tail,by rw [hw]; rfl,?_⟩
    rintro rfl
    exact h.plain ':' (by simp [hw]) (by decide)
  cases h with
  | one h => simpa using hword h []
  | cons h _ => exact hword h _

theorem Pattern.allows_iff {p : Pattern} {words : List Char} :
    p.Allows words ↔ Spelled (p.first :: p.rest) words ∨
      ∃ o ∈ p.last, Spelled (p.first :: p.rest ++ [o]) words := by
  simp [Pattern.Allows,Pattern.rows]

theorem Pattern.Allows.head {p : Pattern} {words : List Char} (h : p.Allows words) :
    ∃ c rest, words = c :: rest ∧ c ≠ ':' := by
  obtain ⟨row,-,h⟩ := h
  exact h.head

theorem Pattern.body_head (p : Pattern) : ∃ c rest, p.body = c :: rest ∧ c ∉ separators := by
  obtain ⟨text,htext⟩ := rowText_append p.first p.rest (optionalText p.last)
  rw [Pattern.body,htext]
  exact keyword_head p.first text

theorem matchKeywords_body (p : Pattern) (words : List Char) :
    matchKeywords (p.body.length+1) 0 p.body words = true ↔ p.Allows words := by
  rw [Pattern.allows_iff]
  exact matchKeywords_iff p.first p.rest p.last (Nat.lt_succ_self _) words

theorem matchCommandBody_plain (p : Pattern) {cmd : List Char}
    (h : ¬∃ c tail, cmd = ':' :: c :: tail) :
    matchCommandBody p.body cmd = true ↔ p.Allows cmd := by
  obtain ⟨c,rest,hbody,hc⟩ := p.body_head
  simp only [separators,List.mem_cons,List.not_mem_nil,or_false,not_or] at hc
  rw [← matchKeywords_body,matchCommandBody.eq_def,hbody]
  simp only [List.length_cons]
  split
  · exact absurd ⟨_,_,rfl⟩ h
  · exact absurd ⟨_,_,rfl⟩ h
  · simp [hc]

theorem matchCommandBody_colon (p : Pattern) (c : Char) (tail : List Char) :
    matchCommandBody p.body (':' :: c :: tail) = true ↔ c ≠ '*' ∧ p.Allows (c :: tail) := by
  obtain ⟨d,rest,hbody,hd⟩ := p.body_head
  simp only [separators,List.mem_cons,List.not_mem_nil,or_false,not_or] at hd
  rw [← matchKeywords_body,hbody]
  by_cases hstar : c = '*'
  · simp [matchCommandBody,hstar]
  · simp [matchCommandBody,hd,hstar]

theorem matchCommandBody_iff (p : Pattern) (cmd : List Char) :
    matchCommandBody p.body cmd = true ↔
      ∃ words, p.Allows words ∧ (cmd = words ∨ words.head? ≠ some '*' ∧ cmd = ':' :: words) := by
  by_cases hcolon : ∃ c tail, cmd = ':' :: c :: tail
  · obtain ⟨c,tail,rfl⟩ := hcolon
    rw [matchCommandBody_colon]
    constructor
    · rintro ⟨hstar,h⟩
      exact ⟨_,h,.inr ⟨by simpa using hstar,rfl⟩⟩
    · rintro ⟨words,h,rfl | ⟨hstar,hwords⟩⟩
      · obtain ⟨_,_,hhead,hne⟩ := h.head
        exact absurd (List.cons.inj hhead).1.symm hne
      · cases hwords
        exact ⟨by simpa using hstar,h⟩
  · rw [matchCommandBody_plain p hcolon]
    constructor
    · intro h
      exact ⟨cmd,h,.inl rfl⟩
    · rintro ⟨words,h,rfl | ⟨-,rfl⟩⟩
      · exact h
      · obtain ⟨c,rest,rfl,-⟩ := h.head
        exact absurd ⟨_,_,rfl⟩ hcolon

theorem Keyword.no_query (k : Keyword) : '?' ∉ k.text := fun h => k.plain _ h (by decide)

theorem rowText_no_query (k : Keyword) (ks : List Keyword) : '?' ∉ rowText k ks := by
  induction ks generalizing k with
  | nil => exact k.no_query
  | cons next ks ih => simp [rowText,k.no_query,ih]

theorem Pattern.body_no_query (p : Pattern) : '?' ∉ p.body := by
  have hrow := rowText_no_query p.first p.rest
  unfold Pattern.body
  cases p.last with
  | none => simpa [optionalText] using hrow
  | some k => simp [optionalText,hrow,k.no_query]

theorem matchCommand_iff (p : Pattern) (cmd : List Char) :
    matchCommand p.text cmd = true ↔ p.SpelledBy cmd := by
  unfold matchCommand Pattern.SpelledBy Pattern.text
  cases hquery : p.query with
  | false =>
    have hlast : p.body.getLast? ≠ some '?' := fun h => p.body_no_query (List.mem_of_getLast? h)
    simp [hlast,matchCommandBody_iff]
  | true =>
    by_cases hmark : ∃ init, cmd = init ++ ['?']
    · obtain ⟨init,rfl⟩ := hmark
      simp only [if_true,List.getLast?_append,List.getLast?_singleton,Option.some_or,
        List.dropLast_concat,matchCommandBody_iff,List.append_left_inj]
    · have hlast : cmd.getLast? ≠ some '?' := fun h => hmark (List.getLast?_eq_some_iff.mp h)
      simp only [hlast,if_false,if_true,List.getLast?_append,List.getLast?_singleton,Option.some_or,
        Bool.false_eq_true,false_iff,not_exists,not_and,not_or]
      intro words _
      exact ⟨fun h => hmark ⟨_,h⟩,fun _ h => hmark ⟨_,h⟩⟩

theorem matchCommand_spells {pattern : String} {p : Pattern}
    (h : Pattern.read pattern.toList = some p) (cmd : List Char) :
    matchCommand pattern.toList cmd = true ↔ Spells pattern cmd := by
  rw [← Pattern.read_text h,matchCommand_iff,Spells,h]
  simp

end Matching

section Unambiguous

def Keyword.meets (k l : Keyword) : Bool := k.forms.any fun form => l.forms.contains form

def rowsMeet : List Keyword → List Keyword → Bool
  | [], [] => true
  | k :: ks, l :: ls => k.meets l && rowsMeet ks ls
  | _, _ => false

def Pattern.meets (p q : Pattern) : Bool :=
  p.query == q.query && p.rows.any fun ks => q.rows.any fun ls => rowsMeet ks ls

theorem Keyword.meets_of_names {k l : Keyword} {word : List Char} (hk : k.Names word)
    (hl : l.Names word) : k.meets l = true := by
  simp only [Keyword.meets,List.any_eq_true,List.contains_iff_mem]
  exact ⟨_,hk,hl⟩

theorem rowsMeet_of_spelled {ks ls : List Keyword} {words : List Char} (hk : Spelled ks words)
    (hl : Spelled ls words) : rowsMeet ks ls = true := by
  induction ks generalizing ls words with
  | nil => cases hk
  | cons k ks ih =>
    cases ls with
    | nil => cases hl
    | cons l ls =>
      cases ks with
      | nil =>
        cases ls with
        | nil =>
          have hword := Keyword.meets_of_names (spelled_one.mp hk).1 (spelled_one.mp hl).1
          simp [rowsMeet,hword]
        | cons _ ls =>
          obtain ⟨-,hend⟩ := spelled_one.mp hk
          obtain ⟨-,_,hmore,-⟩ := spelled_cons.mp hl
          rw [hend] at hmore
          cases hmore
      | cons _ ks =>
        obtain ⟨hword,rest,hmore,hrest⟩ := spelled_cons.mp hk
        cases ls with
        | nil =>
          obtain ⟨-,hend⟩ := spelled_one.mp hl
          rw [hend] at hmore
          cases hmore
        | cons _ ls =>
          obtain ⟨hword',rest',hmore',hrest'⟩ := spelled_cons.mp hl
          rw [hmore] at hmore'
          cases hmore'
          rw [rowsMeet,Keyword.meets_of_names hword hword',ih hrest hrest']
          rfl

theorem Pattern.Allows.no_query {p : Pattern} {words : List Char} (h : p.Allows words) :
    '?' ∉ words := by
  obtain ⟨row,-,h⟩ := h
  exact h.no_query

theorem Pattern.SpelledBy.query {p : Pattern} {header : List Char} (h : p.SpelledBy header) :
    p.query = true ↔ '?' ∈ header := by
  obtain ⟨words,hwords,rfl | ⟨-,rfl⟩⟩ := h <;> cases p.query <;> simp [hwords.no_query]

theorem Pattern.meets_of_spelled {p q : Pattern} {header : List Char} (hp : p.SpelledBy header)
    (hq : q.SpelledBy header) : p.meets q = true := by
  have hquery : p.query = q.query := Bool.eq_iff_iff.mpr (hp.query.trans hq.query.symm)
  obtain ⟨words,hwords,hheader⟩ := hp
  obtain ⟨words',hwords',hheader'⟩ := hq
  have hsame : words = words' := by
    obtain ⟨c,rest,hhead,hc⟩ := hwords.head
    obtain ⟨c',rest',hhead',hc'⟩ := hwords'.head
    rw [hquery] at hheader
    rcases hheader with h | ⟨-,h⟩ <;> rcases hheader' with h' | ⟨-,h'⟩ <;>
      have heq := List.append_cancel_right (h.symm.trans h')
    · exact heq
    · exact absurd (List.cons.inj (hhead.symm.trans heq)).1 hc
    · exact absurd (List.cons.inj (hhead'.symm.trans heq.symm)).1 hc'
    · exact (List.cons.inj heq).2
  subst hsame
  obtain ⟨row,hrow,hspelled⟩ := hwords
  obtain ⟨row',hrow',hspelled'⟩ := hwords'
  simp only [Pattern.meets,hquery,BEq.rfl,Bool.true_and,List.any_eq_true]
  exact ⟨row,hrow,row',hrow',rowsMeet_of_spelled hspelled hspelled'⟩

def tablePatterns : List Pattern := scpiCommands.filterMap fun e => Pattern.read e.1.toList

theorem table_read : (scpiCommands.all fun e => (Pattern.read e.1.toList).isSome) = true := by
  decide +kernel

theorem tablePatterns_apart : tablePatterns.Pairwise fun p q => p.meets q = false := by
  decide +kernel

theorem entry_matches {e : String × (ProgramData → Action)} (he : e ∈ scpiCommands)
    (header : List Char) : matchCommand e.1.toList header = true ↔ Spells e.1 header := by
  obtain ⟨p,hp⟩ := Option.isSome_iff_exists.mp (List.all_eq_true.mp table_read e he)
  exact matchCommand_spells hp header

theorem entries_apart {i j : Nat} {e f : String × (ProgramData → Action)} (hij : i < j)
    (he : scpiCommands[i]? = some e) (hf : scpiCommands[j]? = some f) {header : List Char}
    (hspells : Spells e.1 header) : ¬Spells f.1 header := by
  rintro ⟨q,hq,hheader'⟩
  obtain ⟨p,hp,hheader⟩ := hspells
  obtain ⟨hi,rfl⟩ := List.getElem?_eq_some_iff.mp he
  obtain ⟨hj,rfl⟩ := List.getElem?_eq_some_iff.mp hf
  have hapart := List.pairwise_iff_getElem.mp (List.pairwise_filterMap.mp tablePatterns_apart)
    i j hi hj hij p hp q hq
  rw [Pattern.meets_of_spelled hheader hheader'] at hapart
  cases hapart

/-- The entry of the table that a header selects is the only one the header spells. -/
theorem header_selects_entry (header : List Char) (i : Nat) :
    scpiCommands.findIdx? (fun e => matchCommand e.1.toList header) = some i ↔
      ∃ e, scpiCommands[i]? = some e ∧ Spells e.1 header := by
  rw [List.findIdx?_eq_some_iff_getElem]
  constructor
  · rintro ⟨hi,hmatch,-⟩
    exact ⟨_,List.getElem?_eq_getElem hi,(entry_matches (List.getElem_mem hi) header).mp hmatch⟩
  · rintro ⟨e,he,hspells⟩
    obtain ⟨hi,rfl⟩ := List.getElem?_eq_some_iff.mp he
    refine ⟨hi,(entry_matches (List.getElem_mem hi) header).mpr hspells,fun j hj hmatch => ?_⟩
    have hj' : j < scpiCommands.length := hj.trans hi
    have hfirst := (entry_matches (List.getElem_mem hj') header).mp hmatch
    exact entries_apart hj (List.getElem?_eq_getElem hj') he hfirst hspells

end Unambiguous

end Stm32Dds.Scpi
