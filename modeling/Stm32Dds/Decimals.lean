import Mathlib
import Stm32Dds.Numerals

/-! Decimal fractions in text, and what strtod of the C library makes of them over exact
numbers. Hexadecimal numbers and the names of infinity are not dealt with. -/

set_option autoImplicit false

namespace Stm32Dds.Decimals
open Bytes Numerals

def isPoint (b : Byte) : Bool := b.toNat = 46

def isLetterE (b : Byte) : Bool := b.toNat = 101 || b.toNat = 69

def pointLen : List Byte → Nat
  | b :: _ => if isPoint b then 1 else 0
  | [] => 0

/-- The exponent, and how many characters it has: none without a digit. -/
def scanExponent : List Byte → Int × Nat
  | b :: s =>
    if isLetterE b then
      let (negative,signLen) := sign s
      let ds := (s.drop signLen).takeWhile (isDigit 10)
      if ds = [] then (0,0)
      else (if negative then -(value 10 ds : Int) else value 10 ds,1 + (signLen+ds.length))
    else (0,0)
  | [] => (0,0)

def strtod (s : List Byte) : ℚ × Nat :=
  let blanks := (s.takeWhile isSpace).length
  let s := s.drop blanks
  let (negative,signLen) := sign s
  let s := s.drop signLen
  let whole := s.takeWhile (isDigit 10)
  let s := s.drop whole.length
  let point := pointLen s
  let s := s.drop point
  let fraction := if point = 1 then s.takeWhile (isDigit 10) else []
  let s := s.drop fraction.length
  if whole ++ fraction = [] then (0,0)
  else
    let (exponent,len) := scanExponent s
    ((if negative then -1 else 1)*(value 10 (whole ++ fraction)/10^fraction.length)*10^exponent,
      blanks + (signLen + (whole.length + (point + (fraction.length+len)))))

def signTexts : List (List Byte) := [[],[43],[45]]

structure Mantissa where
  sign : List Byte
  whole : List Byte
  point : Bool
  fraction : List Byte
  sign_text : sign ∈ signTexts
  digits : ∀ b ∈ whole ++ fraction, isDigit 10 b = true
  nonempty : whole ++ fraction ≠ []
  pointed : point = false → fraction = []

namespace Mantissa
variable (m : Mantissa)

def pointText : List Byte := if m.point then [46] else []

def text : List Byte := m.sign ++ (m.whole ++ (m.pointText ++ m.fraction))

def value : ℚ :=
  (if m.sign = [45] then -1 else 1)*(Numerals.value 10 (m.whole ++ m.fraction)/10^m.fraction.length)

def integer (sign whole : List Byte) (hsign : sign ∈ signTexts)
    (hdigits : ∀ b ∈ whole, isDigit 10 b = true) (hne : whole ≠ []) : Mantissa where
  sign := sign
  whole := whole
  point := false
  fraction := []
  sign_text := hsign
  digits := by simpa using hdigits
  nonempty := by simpa using hne
  pointed := fun _ => rfl

theorem integer_text {sign whole : List Byte} (hsign : sign ∈ signTexts)
    (hdigits : ∀ b ∈ whole, isDigit 10 b = true) (hne : whole ≠ []) :
    (integer sign whole hsign hdigits hne).text = sign ++ whole := by
  simp [integer,text,pointText]

end Mantissa

structure Exponent where
  letter : Byte
  sign : List Byte
  ds : List Byte
  letter_e : isLetterE letter = true
  sign_text : sign ∈ signTexts
  digits : ∀ b ∈ ds, isDigit 10 b = true
  nonempty : ds ≠ []

namespace Exponent
variable (e : Exponent)

def text : List Byte := e.letter :: (e.sign ++ e.ds)

def value : Int := if e.sign = [45] then -(Numerals.value 10 e.ds : Int) else Numerals.value 10 e.ds

end Exponent

def Stops (rest : List Byte) : Prop := ∀ b ∈ rest.head?, isDigit 10 b = false ∧ isPoint b = false

section Sign

theorem sign_signText {sgn t : List Byte} (h : sgn ∈ signTexts)
    (ht : ∀ b ∈ t.head?, b.toNat ≠ 43 ∧ b.toNat ≠ 45) :
    sign (sgn ++ t) = (decide (sgn = [45]),sgn.length) := by
  simp only [signTexts,List.mem_cons,List.not_mem_nil,or_false] at h
  rcases h with rfl | rfl | rfl
  · cases t with
    | nil => rfl
    | cons b t =>
      obtain ⟨hplus,hminus⟩ := ht b rfl
      simp [sign,hplus,hminus]
  · rfl
  · rfl

theorem isDigit_not_sign {b : Byte} (h : isDigit 10 b = true) : b.toNat ≠ 43 ∧ b.toNat ≠ 45 := by
  have hbounds := isDigit_bounds h
  omega

theorem takeWhile_digits {ds rest : List Byte} (hds : ∀ b ∈ ds, isDigit 10 b = true)
    (hrest : ∀ b ∈ rest.head?, isDigit 10 b = false) :
    (ds ++ rest).takeWhile (isDigit 10) = ds := by
  rw [List.takeWhile_append_of_pos hds]
  cases rest with
  | nil => simp
  | cons b rest => simp [hrest b rfl]

end Sign

theorem scanExponent_text (e : Exponent) {rest : List Byte}
    (h : ∀ b ∈ rest.head?, isDigit 10 b = false) :
    scanExponent (e.text ++ rest) = (e.value,e.text.length) := by
  obtain ⟨d,ds,hd⟩ := List.exists_cons_of_ne_nil e.nonempty
  have hfirst : ∀ b ∈ (e.ds ++ rest).head?, b.toNat ≠ 43 ∧ b.toNat ≠ 45 := by
    rw [hd]
    simpa using isDigit_not_sign (e.digits d (by simp [hd]))
  have htake := takeWhile_digits e.digits h
  have hsign := sign_signText e.sign_text hfirst
  rw [Exponent.text,List.cons_append,List.append_assoc,scanExponent]
  simp only [e.letter_e,if_true,hsign,List.drop_left,htake,e.nonempty,if_false,decide_eq_true_eq]
  rw [Exponent.value,List.length_cons,List.length_append,Nat.add_comm 1]

/-- Anything but a digit or a sign behind the letter makes it no exponent. -/
theorem scanExponent_broken {b : Byte} {s : List Byte}
    (h : ∀ c ∈ s.head?, isDigit 10 c = false ∧ c.toNat ≠ 43 ∧ c.toNat ≠ 45) :
    scanExponent (b :: s) = (0,0) := by
  have hsign : sign s = (false,0) := by
    cases s with
    | nil => rfl
    | cons c s =>
      obtain ⟨-,hplus,hminus⟩ := h c rfl
      simp [sign,hplus,hminus]
  have hnone : s.takeWhile (isDigit 10) = [] := by
    cases s with
    | nil => rfl
    | cons c s => simp [(h c rfl).1]
  simp [scanExponent,hsign,hnone]

namespace Mantissa
variable (m : Mantissa)

theorem text_append (rest : List Byte) :
    m.text ++ rest = m.sign ++ (m.whole ++ (m.pointText ++ (m.fraction ++ rest))) := by
  simp [text]

theorem head_text (rest : List Byte) :
    ∀ b ∈ (m.whole ++ (m.pointText ++ (m.fraction ++ rest))).head?,
      isDigit 10 b = true ∨ isPoint b = true := by
  have hpoint : m.whole = [] → m.point = true := by
    intro hwhole
    cases hp : m.point with
    | true => rfl
    | false =>
      have hne := m.nonempty
      rw [hwhole,m.pointed hp] at hne
      exact absurd rfl hne
  intro b hb
  cases hw : m.whole with
  | nil =>
    simp only [hw,pointText,hpoint hw,if_true] at hb
    obtain rfl : (46 : Byte) = b := by simpa using hb
    exact .inr rfl
  | cons d ds =>
    obtain rfl : d = b := by simpa [hw] using hb
    exact .inl (m.digits d (by simp [hw]))

theorem not_space {b : Byte} (h : isDigit 10 b = true ∨ isPoint b = true) :
    isSpace b = false ∧ b.toNat ≠ 43 ∧ b.toNat ≠ 45 := by
  have hbounds : 46 ≤ b.toNat := by
    rcases h with h | h
    · have := isDigit_bounds h
      omega
    · simp only [isPoint,decide_eq_true_eq] at h
      omega
  refine ⟨?_,by omega,by omega⟩
  simp only [isSpace,Bool.or_eq_false_iff,decide_eq_false_iff_not,Bool.and_eq_false_iff]
  omega

theorem takeWhile_isSpace (rest : List Byte) : (m.text ++ rest).takeWhile isSpace = [] := by
  have hhead := m.head_text rest
  have hsign := m.sign_text
  simp only [signTexts,List.mem_cons,List.not_mem_nil,or_false] at hsign
  rw [m.text_append]
  rcases hsign with h | h | h
  · rw [h,List.nil_append]
    cases hrest : m.whole ++ (m.pointText ++ (m.fraction ++ rest)) with
    | nil => rfl
    | cons b s =>
      rw [hrest] at hhead
      simp [(not_space (hhead b rfl)).1]
  · rw [h]
    rfl
  · rw [h]
    rfl

theorem sign_head (rest : List Byte) :
    Numerals.sign (m.sign ++ (m.whole ++ (m.pointText ++ (m.fraction ++ rest)))) =
      (decide (m.sign = [45]),m.sign.length) :=
  sign_signText m.sign_text fun b hb => (not_space (m.head_text rest b hb)).2

theorem takeWhile_whole {rest : List Byte} (h : Stops rest) :
    (m.whole ++ (m.pointText ++ (m.fraction ++ rest))).takeWhile (isDigit 10) = m.whole := by
  refine takeWhile_digits (fun b hb => m.digits b (by simp [hb])) fun b hb => ?_
  cases hp : m.point with
  | true =>
    obtain rfl : (46 : Byte) = b := by simpa [pointText,hp] using hb
    rfl
  | false =>
    rw [pointText,hp,m.pointed hp] at hb
    exact (h b (by simpa using hb)).1

theorem strtod_text {rest : List Byte} (h : Stops rest) :
    strtod (m.text ++ rest) = (m.value*10^(scanExponent rest).1,
      m.text.length + (scanExponent rest).2) := by
  have hspace := m.takeWhile_isSpace rest
  have hpoint : pointLen (m.pointText ++ (m.fraction ++ rest)) = m.pointText.length := by
    cases hp : m.point with
    | true => simp [pointText,hp,pointLen,isPoint]
    | false =>
      cases rest with
      | nil => simp [pointText,hp,m.pointed hp,pointLen]
      | cons b rest => simp [pointText,hp,m.pointed hp,pointLen,(h b rfl).2]
  have hfraction : (if m.pointText.length = 1 then
      (m.fraction ++ rest).takeWhile (isDigit 10) else []) = m.fraction := by
    cases hp : m.point with
    | true =>
      have htake : (m.fraction ++ rest).takeWhile (isDigit 10) = m.fraction :=
        takeWhile_digits (fun b hb => m.digits b (by simp [hb])) fun b hb => (h b hb).1
      simp [pointText,hp,htake]
    | false => simp [pointText,hp,m.pointed hp]
  rw [strtod]
  simp only [hspace,List.length_nil,List.drop_zero]
  rw [m.text_append]
  simp only [m.sign_head,List.drop_left,m.takeWhile_whole h,hpoint,hfraction,m.nonempty,if_false,
    decide_eq_true_eq]
  refine Prod.ext rfl ?_
  simp only [text,List.length_append]
  omega

theorem scan_text {rest : List Byte} (h : Stops rest) :
    scan 10 (m.text ++ rest) =
      (decide (m.sign = [45]),m.whole,m.sign.length+m.whole.length) := by
  have hspace := m.takeWhile_isSpace rest
  have hradix (s : List Byte) : radixPrefix 10 s = 0 := by
    unfold radixPrefix
    split
    · exact if_neg (by simp)
    · rfl
  rw [scan]
  simp only [hspace,List.length_nil,List.drop_zero]
  rw [m.text_append]
  simp only [m.sign_head,List.drop_left,hradix,List.drop_zero,m.takeWhile_whole h,Nat.zero_add]

end Mantissa

end Stm32Dds.Decimals
