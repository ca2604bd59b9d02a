import Mathlib

set_option autoImplicit false

namespace Stm32Dds.DecimalText

def isSpace (c : Char) : Bool := c.toNat = 32 || (9 ≤ c.toNat && c.toNat ≤ 13)

def value (ds : List Char) : Nat := Nat.ofDigitChars 10 ds 0

/-- strtoul on 32-bit numbers. What does not fit gives the highest number, with or
without a sign. -/
def strtoul (negative : Bool) (ds : List Char) : Nat :=
  if value ds ≥ 2^32 then 2^32-1
  else if negative then (2^32-value ds) % 2^32
  else value ds

def scanSign : List Char → Bool × List Char
  | '-' :: s => (true,s)
  | '+' :: s => (false,s)
  | s => (false,s)

def scanUnsigned (s : List Char) : Option (Nat × List Char) :=
  let (negative,s) := scanSign (s.dropWhile isSpace)
  let ds := s.takeWhile Char.isDigit
  if ds.isEmpty then none else some (strtoul negative ds,s.dropWhile Char.isDigit)

/-- The numbers converted by "%u.%u. … .%u" with k conversions, up to the first
that fails. -/
def scanDotted : Nat → List Char → List Nat
  | 0, _ => []
  | k+1, s =>
    match scanUnsigned s with
    | none => []
    | some (n,'.' :: rest) => n :: scanDotted k rest
    | some (n,_) => [n]

def joinDots : List (List Char) → List Char
  | [] => []
  | [d] => d
  | d :: ds => d ++ '.' :: joinDots ds

theorem mem_joinDots {ds : List (List Char)} {c : Char} (h : c ∈ joinDots ds) :
    c = '.' ∨ ∃ d ∈ ds, c ∈ d := by
  fun_induction joinDots ds with
  | case1 => simp at h
  | case2 d => exact .inr ⟨d,by simp,h⟩
  | case3 d ds _ ih =>
    obtain hd | hrest := List.mem_append.mp h
    · exact .inr ⟨d,by simp,hd⟩
    · obtain hdot | hjoin := List.mem_cons.mp hrest
      · exact .inl hdot
      · exact (ih hjoin).imp_right fun ⟨e,he,hc⟩ => ⟨e,by simp [he],hc⟩

structure Numeral (d : List Char) : Prop where
  nonempty : d ≠ []
  digits : ∀ c ∈ d, c.isDigit
  small : value d < 2^32

theorem numeral_toDigits {n : Nat} (h : n < 2^32) : Numeral (Nat.toDigits 10 n) where
  nonempty := Nat.toDigits_ne_nil
  digits := fun _ hc => Nat.isDigit_of_mem_toDigits (by decide) (by decide) hc
  small := by
    rw [value,Nat.ofDigitChars_toDigits (by decide) (by decide)]
    exact h

theorem isDigit_not_space {c : Char} (h : c.isDigit = true) : isSpace c = false := by
  have hc : 48 ≤ c.toNat ∧ c.toNat ≤ 57 := by
    simpa [Char.isDigit,UInt32.le_iff_toNat_le] using h
  simp only [isSpace,Bool.or_eq_false_iff,decide_eq_false_iff_not,Bool.and_eq_false_imp,
    decide_eq_true_eq]
  omega

theorem scanSign_digit {c : Char} (h : c.isDigit = true) (s : List Char) :
    scanSign (c :: s) = (false,c :: s) := by
  have hminus : c ≠ '-' := by
    rintro rfl
    simp at h
  have hplus : c ≠ '+' := by
    rintro rfl
    simp at h
  simp [scanSign,hminus,hplus]

theorem scanUnsigned_numeral {d : List Char} (hd : Numeral d) (rest : List Char)
    (hrest : ∀ c ∈ rest.head?, c.isDigit = false) :
    scanUnsigned (d ++ rest) = some (value d,rest) := by
  obtain ⟨hne,hdigits,hsmall⟩ := hd
  have htake : (d ++ rest).takeWhile Char.isDigit = d := by
    rw [List.takeWhile_append_of_pos hdigits]
    cases rest with
    | nil => simp
    | cons c rest => simp [hrest c (by simp)]
  have hdrop : (d ++ rest).dropWhile Char.isDigit = rest := by
    rw [List.dropWhile_append_of_pos hdigits]
    cases rest with
    | nil => rfl
    | cons c rest => simp [hrest c (by simp)]
  have hblank : (d ++ rest).dropWhile isSpace = d ++ rest := by
    cases d with
    | nil => contradiction
    | cons c d => simp [isDigit_not_space (hdigits c (by simp))]
  have hsign : scanSign (d ++ rest) = (false,d ++ rest) := by
    cases d with
    | nil => contradiction
    | cons c d => exact scanSign_digit (hdigits c (by simp)) (d ++ rest)
  have hnum : strtoul false d = value d := by
    rw [strtoul,if_neg (by omega)]
    rfl
  simp [scanUnsigned,hblank,hsign,htake,hdrop,hnum,hne]

theorem scanDotted_joinDots (ds : List (List Char)) (h : ∀ d ∈ ds, Numeral d) :
    scanDotted ds.length (joinDots ds) = ds.map value := by
  induction ds with
  | nil => rfl
  | cons d ds ih =>
    have hd := h d (by simp)
    cases ds with
    | nil =>
      have hscan := scanUnsigned_numeral hd [] (by simp)
      rw [List.append_nil] at hscan
      simp [scanDotted,joinDots,hscan]
    | cons e ds =>
      have hscan := scanUnsigned_numeral hd ('.' :: joinDots (e :: ds)) (by simp)
      have hrest := ih (fun x hx => h x (by simp [hx]))
      simp only [joinDots,List.length_cons,scanDotted,hscan,List.map_cons] at hrest ⊢
      rw [hrest]

def Convertible (t : List Char) : Prop :=
  ∃ blanks sign ds : List Char, t = blanks ++ (sign ++ ds) ∧ (∀ c ∈ blanks, isSpace c = true) ∧
    (sign = [] ∨ sign = ['-'] ∨ sign = ['+']) ∧ ds ≠ [] ∧ ∀ c ∈ ds, c.isDigit = true

theorem scanSign_split (s : List Char) :
    ∃ sign, s = sign ++ (scanSign s).2 ∧ (sign = [] ∨ sign = ['-'] ∨ sign = ['+']) := by
  fun_cases scanSign s with
  | case1 s => exact ⟨['-'],rfl,by simp⟩
  | case2 s => exact ⟨['+'],rfl,by simp⟩
  | case3 => exact ⟨[],rfl,by simp⟩

theorem scanSign_signed {sign : List Char} (h : sign = [] ∨ sign = ['-'] ∨ sign = ['+']) {c : Char}
    (hc : c.isDigit = true) (s : List Char) : (scanSign (sign ++ c :: s)).2 = c :: s := by
  obtain rfl | rfl | rfl := h
  · exact congrArg Prod.snd (scanSign_digit hc s)
  · rfl
  · rfl

theorem dropWhile_blanks {sign : List Char} (h : sign = [] ∨ sign = ['-'] ∨ sign = ['+']) {c : Char}
    (hc : c.isDigit = true) (s : List Char) :
    (sign ++ c :: s).dropWhile isSpace = sign ++ c :: s := by
  obtain rfl | rfl | rfl := h
  · simp [isDigit_not_space hc]
  · rfl
  · rfl

theorem scanUnsigned_convertible {t : List Char} (h : Convertible t) (rest : List Char) :
    ∃ n, scanUnsigned (t ++ rest) = some (n,rest.dropWhile Char.isDigit) := by
  obtain ⟨blanks,sign,ds,rfl,hblanks,hsign,hne,hdigits⟩ := h
  obtain ⟨c,ds,rfl⟩ := List.exists_cons_of_ne_nil hne
  have hc := hdigits c (by simp)
  have hskip : ((blanks ++ (sign ++ c :: ds)) ++ rest).dropWhile isSpace =
      sign ++ c :: (ds ++ rest) := by
    rw [List.append_assoc,List.dropWhile_append_of_pos hblanks]
    simpa using dropWhile_blanks hsign hc (ds ++ rest)
  have hrest : (ds ++ rest).dropWhile Char.isDigit = rest.dropWhile Char.isDigit :=
    List.dropWhile_append_of_pos fun d hd => hdigits d (by simp [hd])
  simp only [scanUnsigned,hskip,scanSign_signed hsign hc]
  simp [hc,hrest]

theorem convertible_of_scanUnsigned {s : List Char} {n : Nat} {rest : List Char}
    (h : scanUnsigned s = some (n,rest)) : ∃ t, Convertible t ∧ s = t ++ rest := by
  obtain ⟨sign,hsplit,hsign⟩ := scanSign_split (s.dropWhile isSpace)
  simp only [scanUnsigned,Option.ite_none_left_eq_some,Option.some.injEq,Prod.mk.injEq] at h
  obtain ⟨hne,_,rfl⟩ := h
  refine ⟨s.takeWhile isSpace ++ (sign ++ (scanSign (s.dropWhile isSpace)).2.takeWhile Char.isDigit),
    ⟨_,_,_,rfl,?_,hsign,by simpa using hne,?_⟩,?_⟩
  · exact fun c hc => List.mem_takeWhile_imp hc
  · exact fun c hc => List.mem_takeWhile_imp hc
  · rw [List.append_assoc,List.append_assoc,List.takeWhile_append_dropWhile,← hsplit,
      List.takeWhile_append_dropWhile]

/-- The texts on which k conversions with dots between them all succeed. -/
theorem scanDotted_length_iff (k : Nat) (s : List Char) :
    (scanDotted k s).length = k ↔
      ∃ ts tail, ts.length = k ∧ (∀ t ∈ ts, Convertible t) ∧ s = joinDots ts ++ tail := by
  induction k generalizing s with
  | zero =>
    exact ⟨fun _ => ⟨[],s,rfl,by simp,rfl⟩,fun _ => rfl⟩
  | succ k ih =>
    constructor
    · intro h
      rw [scanDotted] at h
      split at h
      · simp at h
      · rename_i n rest hscan
        obtain ⟨t,ht,rfl⟩ := convertible_of_scanUnsigned hscan
        obtain ⟨ts,tail,rfl,hts,rfl⟩ := (ih rest).mp (by simpa using h)
        cases ts with
        | nil => exact ⟨[t],'.' :: tail,rfl,by simpa using ht,by simp [joinDots]⟩
        | cons u ts => exact ⟨t :: u :: ts,tail,rfl,List.forall_mem_cons.mpr ⟨ht,hts⟩,by simp [joinDots]⟩
      · rename_i n rest _ hscan
        obtain ⟨t,ht,rfl⟩ := convertible_of_scanUnsigned hscan
        obtain rfl : k = 0 := by simpa using h.symm
        exact ⟨[t],rest,rfl,by simpa using ht,by simp [joinDots]⟩
    · rintro ⟨ts,tail,hlen,hts,rfl⟩
      obtain ⟨t,ts,rfl⟩ := List.exists_cons_of_length_eq_add_one hlen
      have ht := hts t (by simp)
      cases ts with
      | nil =>
        obtain rfl : k = 0 := by simpa using hlen.symm
        obtain ⟨n,hscan⟩ := scanUnsigned_convertible ht tail
        rw [joinDots,scanDotted,hscan]
        split <;> simp_all [scanDotted]
      | cons u ts =>
        obtain ⟨n,hscan⟩ := scanUnsigned_convertible ht ('.' :: joinDots (u :: ts) ++ tail)
        have hrest := (ih (joinDots (u :: ts) ++ tail)).mpr
          ⟨u :: ts,tail,by simpa using hlen,fun x hx => hts x (by simp [hx]),rfl⟩
        have hdot : ('.' :: joinDots (u :: ts) ++ tail).dropWhile Char.isDigit =
            '.' :: (joinDots (u :: ts) ++ tail) := by simp
        rw [hdot] at hscan
        have hjoin : joinDots (t :: u :: ts) ++ tail = t ++ ('.' :: joinDots (u :: ts) ++ tail) := by
          simp [joinDots]
        rw [hjoin,scanDotted,hscan]
        simpa using hrest

end Stm32Dds.DecimalText
