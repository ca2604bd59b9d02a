import Stm32Dds.Decimals
import Stm32Dds.ScpiParameters

/-! Numbers with a unit. The lexer takes a number as IEEE 488.2 writes it, with blanks in front
of the exponent and in it; its value is what strtod makes of the text, and strtod stops at a
blank. The arithmetic is exact. -/

set_option autoImplicit false

namespace Stm32Dds.Parameters
open Bytes Scanning Lexer Numerals Decimals Status
open Stm32Dds.Scpi (ScpiUnit ScpiNumber WaitNumber NumberOf SpecialTag compareStr)

def invalidSuffix : ErrorCode := -131

structure UnitDef where
  name : String
  unit : ScpiUnit
  mult : ℚ

/-- scpi_units_def, with the groups the library is built with. -/
def scpiUnitsDef : List UnitDef :=
  [⟨"PF",.other,1/10^12⟩,⟨"NF",.other,1/10^9⟩,⟨"UF",.other,1/10^6⟩,⟨"MF",.other,1/10^3⟩,
   ⟨"F",.other,1⟩,
   ⟨"UA",.other,1/10^6⟩,⟨"MA",.other,1/10^3⟩,⟨"A",.other,1⟩,⟨"KA",.other,10^3⟩,
   ⟨"UV",.other,1/10^6⟩,⟨"MV",.other,1/10^3⟩,⟨"V",.other,1⟩,⟨"KV",.other,10^3⟩,
   ⟨"OHM",.other,1⟩,⟨"KOHM",.other,10^3⟩,⟨"MOHM",.other,10^6⟩,
   ⟨"UH",.other,1/10^6⟩,⟨"MH",.other,1/10^3⟩,⟨"H",.other,1⟩,
   ⟨"HZ",.hertz,1⟩,⟨"KHZ",.hertz,10^3⟩,⟨"MHZ",.hertz,10^6⟩,⟨"GHZ",.hertz,10^9⟩,
   ⟨"W",.other,1⟩,⟨"DBM",.dbm,1⟩,⟨"DBMW",.dbm,1⟩,
   ⟨"PS",.second,1/10^12⟩,⟨"NS",.second,1/10^9⟩,⟨"US",.second,1/10^6⟩,⟨"MS",.second,1/10^3⟩,
   ⟨"S",.second,1⟩,⟨"MIN",.second,60⟩,⟨"HR",.second,3600⟩,⟨"D",.other,1⟩,⟨"ANN",.other,1⟩]

def scpiSpecialNumbersDef : List (String × ScpiNumber) :=
  [("MINimum",.special .min),("MAXimum",.special .max),("DEFault",.special .default),
   ("UP",.special .up),("DOWN",.special .down),("NAN",.special .nan),("INFinity",.special .inf),
   ("NINF",.special .ninf),("AUTO",.special .auto)]

def translateUnit (unit : List Byte) : Option UnitDef :=
  scpiUnitsDef.find? fun d => compareStr (Stream.chars unit) d.name.toList

def transformNumber (unit : List Byte) (value : ℚ) : Option (ℚ × ScpiUnit) :=
  let s := many isSpace unit
  if s = unit.length then some (value,.none)
  else (translateUnit (unit.drop s)).map fun d => (value*d.mult,d.unit)

/-- The token is read once more to find where its suffix is. -/
def suffixOf (token : List Byte) : List Byte :=
  let s := token.drop (scpiLexDecimalNumericProgramData token).skip
  let s := s.drop (skipWs s)
  s.take (scpiLexSuffixProgramData s)

def paramToDouble (p : Parameter) : ℚ :=
  match p.type with
  | .hexnum => (strtoul 64 16 p.ptr).1.toNat
  | .octnum => (strtoul 64 8 p.ptr).1.toNat
  | .binnum => (strtoul 64 2 p.ptr).1.toNat
  | _ => (strtod p.ptr).1

/-- SCPI_ParamNumber. A text or a block is no number, but no error is pushed for it. -/
def paramNumber {ν : Type} (special : List (String × ν)) (plain : ℚ → ScpiUnit → ν)
    (mandatory : Bool) : Params → Reading ν :=
  reader mandatory fun param =>
    match param.type with
    | .decimalNumericProgramData | .hexnum | .octnum | .binnum =>
      (some (plain (paramToDouble param) .none),[])
    | .decimalNumericProgramDataWithSuffix =>
      match transformNumber (suffixOf param.text) (paramToDouble param) with
      | some (value,unit) => (some (plain value unit),[])
      | none => (none,[invalidSuffix])
    | .programMnemonic =>
      let s := param.text.drop (skipWs param.text)
      let l := scpiLexCharacterProgramData s
      paramToChoice special ⟨l.type,s,l.len⟩
    | _ => (none,[])

theorem paramNumber_sound {ν : Type} (special : List (String × ν)) (plain : ℚ → ScpiUnit → ν)
    (mandatory : Bool) (p : Params) :
    Sound (paramNumber special plain mandatory p).value
      (paramNumber special plain mandatory p).errors := by
  refine reader_sound (fun param => ?_) mandatory p
  split
  case h_5 =>
    split
    · exact sound_quiet _
    · exact sound_error (by decide)
  case h_6 => exact paramToChoice_sound _ _
  all_goals exact sound_quiet _

/-- An exponent with the blanks that IEEE 488.2 allows in front of and behind its letter. -/
structure Power where
  before : List Byte
  after : List Byte
  exponent : Exponent
  blank : ∀ b ∈ before ++ after, isws b = true

def Power.text (p : Power) : List Byte :=
  p.before ++ (p.exponent.letter :: (p.after ++ (p.exponent.sign ++ p.exponent.ds)))

structure Number where
  mantissa : Mantissa
  power : Option Power

namespace Number

def text (n : Number) : List Byte := n.mantissa.text ++ (n.power.map Power.text).getD []

def meant (n : Number) : ℚ :=
  n.mantissa.value*10^((n.power.map fun p => p.exponent.value).getD 0)

def tight (n : Number) : Bool := n.power.all fun p => (p.before ++ p.after).isEmpty

/-- The number that is read: strtod knows nothing of an exponent behind a blank. -/
def read (n : Number) : ℚ := if n.tight then n.meant else n.mantissa.value

end Number

section Classes

theorem digit_point {b : Byte} (h : isdigit b = false ∧ b ≠ chr '.') :
    isDigit 10 b = false ∧ isPoint b = false := by
  refine ⟨(isDigit_ten b).trans h.1,?_⟩
  have hpoint : ∀ b : Byte, b ≠ chr '.' → isPoint b = false := by decide
  exact hpoint b h.2

def Ended (tail : List Byte) : Prop :=
  ∀ b ∈ tail.head?, isdigit b = false ∧ b ≠ chr '.' ∧ isE b = false ∧ isws b = false

theorem Closed.ended {behind : List Byte} (h : Closed behind) : Ended behind := by
  have hclass : ∀ b : Byte, isMnemonic b = false → isdigit b = false ∧ isE b = false := by decide
  intro b hb
  obtain ⟨hword,hpoint,hws⟩ := h b hb
  exact ⟨(hclass b hword).1,hpoint,(hclass b hword).2,hws⟩

variable {gap tail : List Byte} (hgap : ∀ b ∈ gap, isws b = true) (htail : Ended tail)
include hgap htail

theorem behind_stops : ∀ b ∈ (gap ++ tail).head?,
    isdigit b = false ∧ b ≠ chr '.' ∧ isE b = false := by
  have hblank : ∀ b : Byte, isws b = true → isE b = false := by decide
  intro b hb
  cases gap with
  | nil =>
    obtain ⟨hdigit,hpoint,he,-⟩ := htail b hb
    exact ⟨hdigit,hpoint,he⟩
  | cons c gap =>
    obtain rfl : c = b := by simpa using hb
    obtain ⟨hdigit,hpoint,-⟩ := blank_class c (hgap c (by simp))
    exact ⟨hdigit,hpoint,hblank c (hgap c (by simp))⟩

theorem skipWs_behind : skipWs (gap ++ tail) = gap.length :=
  skipWs_front hgap fun b hb => (htail b hb).2.2.2

end Classes

section Lexing

theorem skipPlusmn_sign {sgn t : List Byte} (h : sgn ∈ signTexts)
    (ht : ∀ b ∈ t.head?, b.toNat ≠ 43 ∧ b.toNat ≠ 45) : skipPlusmn (sgn ++ t) = sgn.length := by
  simp only [signTexts,List.mem_cons,List.not_mem_nil,or_false] at h
  rcases h with rfl | rfl | rfl
  · cases t with
    | nil => rfl
    | cons b t =>
      obtain ⟨hplus,hminus⟩ := ht b rfl
      have hclass : ∀ b : Byte, b.toNat ≠ 43 → b.toNat ≠ 45 → isplusmn b = false := by decide
      simp [skipPlusmn,one,hclass b hplus hminus]
  · rfl
  · rfl

theorem skipMantisa_text (m : Mantissa) {rest : List Byte}
    (h : ∀ b ∈ rest.head?, isdigit b = false ∧ b ≠ chr '.') :
    skipMantisa (m.text ++ rest) = (m.whole.length+m.fraction.length,m.text.length) := by
  have hdigit : ∀ b ∈ m.whole ++ m.fraction, isdigit b = true :=
    fun b hb => (isDigit_ten b).symm.trans (m.digits b hb)
  have hsign := skipPlusmn_sign m.sign_text
    fun b hb => (Mantissa.not_space (m.head_text rest b hb)).2
  have hwhole : skipNumbers (m.whole ++ (m.pointText ++ (m.fraction ++ rest))) =
      m.whole.length := by
    refine many_until (fun b hb => hdigit b (by simp [hb])) fun b hb => ?_
    cases hp : m.point with
    | true =>
      obtain rfl : (46 : Byte) = b := by simpa [Mantissa.pointText,hp] using hb
      rfl
    | false =>
      rw [Mantissa.pointText,hp,m.pointed hp] at hb
      exact (h b (by simpa using hb)).1
  have hpoint : skipChr '.' (m.pointText ++ (m.fraction ++ rest)) = m.pointText.length := by
    cases hp : m.point with
    | true => simp [Mantissa.pointText,hp,skipChr,one,chr]
    | false =>
      cases rest with
      | nil => simp [Mantissa.pointText,hp,m.pointed hp,skipChr,one]
      | cons b rest =>
        simp [Mantissa.pointText,hp,m.pointed hp,skipChr,one,(h b rfl).2]
  have hfraction : (if m.pointText.length = 1 then skipNumbers (m.fraction ++ rest) else 0) =
      m.fraction.length := by
    cases hp : m.point with
    | true =>
      have htake : skipNumbers (m.fraction ++ rest) = m.fraction.length :=
        many_until (fun b hb => hdigit b (by simp [hb])) fun b hb => (h b hb).1
      simp [Mantissa.pointText,hp,htake]
    | false => simp [Mantissa.pointText,hp,m.pointed hp]
  rw [m.text_append]
  simp only [skipMantisa,hsign,List.drop_left,hwhole,hpoint,hfraction,Mantissa.text,
    List.length_append]

theorem skipExponent_text (p : Power) {rest : List Byte}
    (h : ∀ b ∈ rest.head?, isdigit b = false) :
    skipWs (p.text ++ rest) = p.before.length ∧
      skipExponent ((p.text ++ rest).drop p.before.length) =
        (p.exponent.ds.length,p.text.length-p.before.length) := by
  have hletter : isE p.exponent.letter = true ∧ isws p.exponent.letter = false := by
    have hclass : ∀ b : Byte, isLetterE b = true → isE b = true ∧ isws b = false := by decide
    exact hclass _ p.exponent.letter_e
  obtain ⟨d,ds,hd⟩ := List.exists_cons_of_ne_nil p.exponent.nonempty
  have hdigit : ∀ b ∈ p.exponent.ds, isdigit b = true :=
    fun b hb => (isDigit_ten b).symm.trans (p.exponent.digits b hb)
  have hfirst : ∀ b ∈ (p.exponent.ds ++ rest).head?, b.toNat ≠ 43 ∧ b.toNat ≠ 45 := by
    rw [hd]
    simpa using isDigit_not_sign (p.exponent.digits d (by simp [hd]))
  have hblanks : skipWs (p.after ++ (p.exponent.sign ++ (p.exponent.ds ++ rest))) =
      p.after.length := by
    refine skipWs_front (fun b hb => p.blank b (by simp [hb])) fun b hb => ?_
    have hsign := p.exponent.sign_text
    simp only [signTexts,List.mem_cons,List.not_mem_nil,or_false] at hsign
    rcases hsign with h' | h' | h' <;> rw [h'] at hb
    · obtain rfl : d = b := by simpa [hd] using hb
      exact (digit_class d (hdigit d (by simp [hd]))).1
    · obtain rfl : (43 : Byte) = b := by simpa using hb
      rfl
    · obtain rfl : (45 : Byte) = b := by simpa using hb
      rfl
  have hsign := skipPlusmn_sign p.exponent.sign_text hfirst
  have hdigits : skipNumbers (p.exponent.ds ++ rest) = p.exponent.ds.length := many_until hdigit h
  have htext : p.text ++ rest = p.before ++ (p.exponent.letter ::
      (p.after ++ (p.exponent.sign ++ (p.exponent.ds ++ rest)))) := by
    simp [Power.text]
  rw [htext]
  constructor
  · exact skipWs_front (fun b hb => p.blank b (by simp [hb])) (by simpa using hletter.2)
  · rw [List.drop_left]
    simp only [skipExponent,one,hletter.1,if_true,List.drop_succ_cons,List.drop_zero,hblanks,
      List.drop_left,hsign,hdigits]
    simp only [Power.text,List.length_append,List.length_cons]
    refine Prod.ext rfl ?_
    dsimp only
    omega

theorem power_stops (p : Power) (rest : List Byte) :
    ∀ b ∈ (p.text ++ rest).head?, isdigit b = false ∧ b ≠ chr '.' := by
  have hclass : ∀ b : Byte, isLetterE b = true → isdigit b = false ∧ b ≠ chr '.' := by decide
  intro b hb
  cases hbefore : p.before with
  | nil =>
    obtain rfl : p.exponent.letter = b := by simpa [Power.text,hbefore] using hb
    exact hclass _ p.exponent.letter_e
  | cons c before =>
    obtain rfl : c = b := by simpa [Power.text,hbefore] using hb
    obtain ⟨hdigit,hpoint,-⟩ := blank_class c (p.blank c (by simp [hbefore]))
    exact ⟨hdigit,hpoint⟩

variable {gap tail : List Byte}

theorem decimal_number (n : Number) (hgap : ∀ b ∈ gap, isws b = true) (htail : Ended tail) :
    scpiLexDecimalNumericProgramData (n.text ++ (gap ++ tail)) =
      ⟨.decimalNumericProgramData,n.text.length,n.text.length,n.text.length⟩ := by
  have hstops := behind_stops hgap htail
  have hsome : 0 < n.mantissa.whole.length+n.mantissa.fraction.length := by
    rw [← List.length_append]
    exact List.length_pos_iff.mpr n.mantissa.nonempty
  have hlen : 0 < n.mantissa.text.length := by
    simp only [Mantissa.text,List.length_append]
    omega
  cases hp : n.power with
  | none =>
    have htext : n.text = n.mantissa.text := by simp [Number.text,hp]
    have hmantisa := skipMantisa_text n.mantissa fun b hb => ⟨(hstops b hb).1,(hstops b hb).2.1⟩
    have hexponent : skipExponent tail = (0,0) := by
      cases tail with
      | nil => rfl
      | cons b tail => simp [skipExponent,one,(htail b rfl).2.2.1]
    rw [htext,scpiLexDecimalNumericProgramData,hmantisa,if_neg (by simp only; omega)]
    simp only [List.drop_left,skipWs_behind hgap htail,hexponent]
    exact if_neg (show ¬n.mantissa.text.length+0 = 0 by omega)
  | some p =>
    have htext : n.text ++ (gap ++ tail) = n.mantissa.text ++ (p.text ++ (gap ++ tail)) := by
      simp [Number.text,hp]
    have hbefore := power_stops p (gap ++ tail)
    obtain ⟨hws,hexponent⟩ := skipExponent_text p fun b hb => (hstops b hb).1
    have hds := List.length_pos_iff.mpr p.exponent.nonempty
    have hle : p.before.length ≤ p.text.length := by simp [Power.text]
    have hlength : n.text.length = n.mantissa.text.length+p.text.length := by
      simp [Number.text,hp]
    rw [htext,scpiLexDecimalNumericProgramData,skipMantisa_text n.mantissa hbefore,
      if_neg (by simp only; omega)]
    simp only [List.drop_left,hws,hexponent,hlength]
    rw [if_neg (by omega),show n.mantissa.text.length +
      (p.before.length + (p.text.length-p.before.length)) =
        n.mantissa.text.length+p.text.length by omega]
    exact if_neg (by omega)

theorem strtod_number (n : Number) (hgap : ∀ b ∈ gap, isws b = true) (htail : Ended tail) :
    (strtod (n.text ++ (gap ++ tail))).1 = n.read := by
  have hstops := behind_stops hgap htail
  have hletter : ∀ b : Byte, isE b = false → isLetterE b = false := by decide
  have hblank : ∀ b : Byte, isws b = true →
      isLetterE b = false ∧ isDigit 10 b = false ∧ b.toNat ≠ 43 ∧ b.toNat ≠ 45 := by decide
  cases hp : n.power with
  | none =>
    have hend : Stops (gap ++ tail) := fun b hb => digit_point ⟨(hstops b hb).1,(hstops b hb).2.1⟩
    have hexponent : scanExponent (gap ++ tail) = (0,0) := by
      cases hrest : gap ++ tail with
      | nil => rfl
      | cons b rest => simp [scanExponent,hletter b (hstops b (by simp [hrest])).2.2]
    have htext : n.text = n.mantissa.text := by simp [Number.text,hp]
    rw [htext,n.mantissa.strtod_text hend,hexponent]
    simp [Number.read,Number.tight,Number.meant,hp]
  | some p =>
    have htext : n.text ++ (gap ++ tail) = n.mantissa.text ++ (p.text ++ (gap ++ tail)) := by
      simp [Number.text,hp]
    have hend : Stops (p.text ++ (gap ++ tail)) :=
      fun b hb => digit_point (power_stops p (gap ++ tail) b hb)
    rw [htext,n.mantissa.strtod_text hend]
    simp only [Number.read,Number.tight,Number.meant,hp,Option.all_some,Option.map_some,
      Option.getD_some]
    cases hbefore : p.before with
    | cons c before =>
      -- a blank in front of the letter
      have hc := hblank c (p.blank c (by simp [hbefore]))
      simp [Power.text,hbefore,scanExponent,hc.1]
    | nil =>
      cases hafter : p.after with
      | cons c after =>
        -- a blank behind it
        have hc := hblank c (p.blank c (by simp [hafter]))
        have hbroken : scanExponent (p.text ++ (gap ++ tail)) = (0,0) := by
          rw [Power.text,hbefore,hafter]
          exact scanExponent_broken (by simpa using hc.2)
        simp [hbroken]
      | nil =>
        have hp' : p.text = p.exponent.text := by simp [Power.text,Exponent.text,hbefore,hafter]
        rw [hp',scanExponent_text p.exponent fun b hb => (digit_point
          ⟨(hstops b hb).1,(hstops b hb).2.1⟩).1]
        simp

theorem suffix_letters {letters trailing : List Byte} (hne : letters ≠ [])
    (hletters : ∀ b ∈ letters, isalpha b = true) (ht : ∀ b ∈ trailing, isws b = true) :
    scpiLexSuffixProgramData (letters ++ trailing) = letters.length := by
  have hclass : ∀ b : Byte, isws b = true →
      isalpha b = false ∧ b ≠ chr '-' ∧ isdigit b = false ∧ b ≠ chr '/' ∧ b ≠ chr '.' := by decide
  have halpha : ∀ b : Byte, isalpha b = true → b ≠ chr '/' := by decide
  have hslash : skipChr '/' (letters ++ trailing) = 0 := by
    obtain ⟨b,rest,rfl⟩ := List.exists_cons_of_ne_nil hne
    simp [skipChr,one,halpha b (hletters b (by simp))]
  have hskip : skipAlpha (letters ++ trailing) = letters.length :=
    many_until hletters fun b hb => (hclass b (ht b (List.mem_of_mem_head? hb))).1
  have hpower : skipPower trailing = 0 ∧ skipSlashDot trailing = 0 := by
    cases trailing with
    | nil => exact ⟨rfl,rfl⟩
    | cons b trailing =>
      obtain ⟨-,hminus,hdigit,hslash,hpoint⟩ := hclass b (ht b (by simp))
      simp [skipPower,skipSlashDot,skipChr,skipDigit,one,hminus,hdigit,hslash,hpoint]
  have hunit : skipUnit (letters ++ trailing) = letters.length := by
    simp only [skipUnit,hskip,List.drop_left,hpower.1,Nat.add_zero]
  have hlen := List.length_pos_iff.mpr hne
  simp only [scpiLexSuffixProgramData,hslash,List.drop_zero,hskip,hunit,List.drop_left]
  rw [if_neg (by omega),loop,skipUnits,hpower.2]
  simp

theorem number_head (n : Number) (rest : List Byte) :
    n.text ++ rest ≠ [] ∧ ∀ b ∈ (n.text ++ rest).head?,
      isws b = false ∧ b ≠ chr '#' ∧ isalpha b = false := by
  have hclass : ∀ b : Byte, isDigit 10 b = true ∨ isPoint b = true →
      isws b = false ∧ b ≠ chr '#' ∧ isalpha b = false := by decide
  have htext : n.text ++ rest = n.mantissa.sign ++ (n.mantissa.whole ++ (n.mantissa.pointText ++
      (n.mantissa.fraction ++ ((n.power.map Power.text).getD [] ++ rest)))) := by
    simp [Number.text,Mantissa.text]
  have hhead := n.mantissa.head_text ((n.power.map Power.text).getD [] ++ rest)
  have hsign := n.mantissa.sign_text
  simp only [signTexts,List.mem_cons,List.not_mem_nil,or_false] at hsign
  constructor
  · have hne := n.mantissa.nonempty
    rw [htext]
    intro hnil
    simp only [List.append_eq_nil_iff] at hnil
    exact hne (by simp [hnil.2.1,hnil.2.2.2.1])
  · rw [htext]
    intro b hb
    rcases hsign with h | h | h <;> rw [h] at hb
    · exact hclass b (hhead b hb)
    · obtain rfl : (43 : Byte) = b := by simpa using hb
      decide
    · obtain rfl : (45 : Byte) = b := by simpa using hb
      decide

theorem programData_number (n : Number) (rest : List Byte)
    (h : (decimalWithSuffix (n.text ++ rest)).result ≠ 0) :
    programData (n.text ++ rest) = decimalWithSuffix (n.text ++ rest) := by
  obtain ⟨hne,hhead⟩ := number_head n rest
  obtain ⟨b,s,hs⟩ := List.exists_cons_of_ne_nil hne
  obtain ⟨-,hhash,halpha⟩ := hhead b (by simp [hs])
  have hnondecimal : scpiLexNondecimalNumericData (n.text ++ rest) = .none := by
    simp [hs,scpiLexNondecimalNumericData,skipChr,one,hhash]
  have hcharacter : scpiLexCharacterProgramData (n.text ++ rest) = .none := by
    simp [hs,scpiLexCharacterProgramData,skipProgramMnemonic,word,halpha,Lexed.whole]
  rw [programData,orElse_none hnondecimal,orElse_none hcharacter,orElse]
  exact if_neg h

end Lexing

structure Suffix where
  letters : List Byte
  unitDef : UnitDef
  known : translateUnit letters = some unitDef

section Suffixes

theorem unit_names : scpiUnitsDef.all (fun d =>
    let name := d.name.toList.map Char.toLower
    name.all (fun c => 'a' ≤ c && c ≤ 'z') && !name.isEmpty && name.head? != some 'e') = true := by
  decide +kernel

theorem letter_class : ∀ b : Byte,
    let c := (Char.ofNat b.toNat).toLower
    'a' ≤ c ∧ c ≤ 'z' → isalpha b = true ∧ (isE b = true → c = 'e') := by
  decide +kernel

theorem Suffix.spelled (u : Suffix) : u.letters ≠ [] ∧ (∀ b ∈ u.letters, isalpha b = true) ∧
    ∀ b ∈ u.letters.head?, isE b = false := by
  have hfound := List.find?_some u.known
  have hmem : u.unitDef ∈ scpiUnitsDef := List.mem_of_find?_eq_some u.known
  have hname := List.all_eq_true.mp unit_names u.unitDef hmem
  simp only [compareStr,beq_iff_eq,Stream.chars,List.map_map] at hfound
  simp only [← hfound,Bool.and_eq_true,List.all_eq_true,decide_eq_true_eq] at hname
  obtain ⟨⟨hletters,hne⟩,hfirst⟩ := hname
  have hclass : ∀ b ∈ u.letters, isalpha b = true ∧
      (isE b = true → (Char.ofNat b.toNat).toLower = 'e') :=
    fun b hb => letter_class b (hletters _ (List.mem_map.mpr ⟨b,hb,rfl⟩))
  refine ⟨?_,fun b hb => (hclass b hb).1,fun b hb => ?_⟩
  · rintro h
    simp [h] at hne
  · obtain ⟨s,hs⟩ : ∃ s, u.letters = b :: s := by
      cases hu : u.letters with
      | nil => simp [hu] at hb
      | cons c s => exact ⟨s,by simpa [hu] using hb⟩
    cases he : isE b with
    | false => rfl
    | true =>
      have hlower := (hclass b (by simp [hs])).2 he
      simp [hs,hlower] at hfirst

theorem Suffix.ended (u : Suffix) (rest : List Byte) : Ended (u.letters ++ rest) := by
  have hclass : ∀ b : Byte, isalpha b = true → isdigit b = false ∧ b ≠ chr '.' ∧ isws b = false := by
    decide
  obtain ⟨hne,hletters,hfirst⟩ := u.spelled
  obtain ⟨c,s,hs⟩ := List.exists_cons_of_ne_nil hne
  intro b hb
  obtain rfl : c = b := by simpa [hs] using hb
  obtain ⟨hdigit,hpoint,hws⟩ := hclass c (hletters c (by simp [hs]))
  exact ⟨hdigit,hpoint,hfirst c (by simp [hs]),hws⟩

end Suffixes

section Reading

variable {blanks gap trailing : List Byte}

theorem number_length (n : Number) : ¬n.text.length = 0 := by
  have hne := (number_head n []).1
  rw [List.append_nil] at hne
  exact fun h => hne (List.length_eq_zero_iff.mp h)

theorem programData_plain (n : Number) (ht : ∀ b ∈ trailing, isws b = true) :
    programData (n.text ++ trailing) =
      ⟨.decimalNumericProgramData,n.text.length,n.text.length,n.text.length+trailing.length⟩ := by
  have hended : Ended [] := by simp [Ended]
  have hnumber := decimal_number n ht hended
  rw [List.append_nil] at hnumber
  have hnot := number_length n
  have hlex : decimalWithSuffix (n.text ++ trailing) =
      ⟨.decimalNumericProgramData,n.text.length,n.text.length,n.text.length+trailing.length⟩ := by
    simp only [decimalWithSuffix,hnumber,List.drop_left,skipWs_trailing ht,List.drop_length,hnot,
      if_false]
    rfl
  rw [programData_number n trailing (by rw [hlex]; exact hnot),hlex]

theorem programData_suffix (n : Number) (u : Suffix) (hgap : ∀ b ∈ gap, isws b = true)
    (ht : ∀ b ∈ trailing, isws b = true) :
    programData (n.text ++ (gap ++ (u.letters ++ trailing))) =
      .whole .decimalNumericProgramDataWithSuffix (n.text ++ (gap ++ u.letters)).length := by
  obtain ⟨hne,hletters,-⟩ := u.spelled
  have hnumber := decimal_number n hgap (u.ended trailing)
  have hws := skipWs_behind hgap (u.ended trailing)
  have hsuffix := suffix_letters hne hletters ht
  have hlen : 0 < u.letters.length := List.length_pos_iff.mpr hne
  have hnot := number_length n
  have hlex : decimalWithSuffix (n.text ++ (gap ++ (u.letters ++ trailing))) =
      .whole .decimalNumericProgramDataWithSuffix (n.text ++ (gap ++ u.letters)).length := by
    simp only [decimalWithSuffix,hnumber,List.drop_left,hws,hsuffix,hnot,if_false]
    rw [if_pos hlen,List.length_append,List.length_append]
  rw [programData_number n _ (by
    rw [hlex,Lexed.whole,if_neg (by simp only [List.length_append]; omega)]
    simp only [List.length_append]
    omega),hlex]

theorem scpiParameter_plain (mandatory : Bool) (n : Number) (hb : ∀ b ∈ blanks, isws b = true)
    (ht : ∀ b ∈ trailing, isws b = true) (behind : List Byte) :
    scpiParameter mandatory ⟨blanks ++ (n.text ++ trailing),0,behind⟩ =
      ⟨some ⟨.decimalNumericProgramData,n.text ++ trailing ++ behind,n.text.length⟩,[],
        ⟨[],1,behind⟩⟩ := by
  obtain ⟨hne,hhead⟩ := number_head n trailing
  have hend : (n.text ++ trailing).drop (n.text.length+trailing.length) = [] :=
    List.drop_eq_nil_of_le (by simp)
  exact scpiParameter_first mandatory hb hne (fun b hb => (hhead b hb).1) (programData_plain n ht)
    (by simp [parameterTypes]) (by simp [hend]) behind

theorem scpiParameter_suffix (mandatory : Bool) (n : Number) (u : Suffix)
    (hb : ∀ b ∈ blanks, isws b = true) (hgap : ∀ b ∈ gap, isws b = true)
    (ht : ∀ b ∈ trailing, isws b = true) (behind : List Byte) :
    scpiParameter mandatory ⟨blanks ++ (n.text ++ (gap ++ (u.letters ++ trailing))),0,behind⟩ =
      ⟨some ⟨.decimalNumericProgramDataWithSuffix,
        n.text ++ (gap ++ (u.letters ++ trailing)) ++ behind,
        (n.text ++ (gap ++ u.letters)).length⟩,[],⟨[],1,behind⟩⟩ := by
  obtain ⟨hne,hhead⟩ := number_head n (gap ++ (u.letters ++ trailing))
  have hdata := programData_suffix n u hgap ht
  have hnot := number_length n
  rw [Lexed.whole,if_neg (by simp only [List.length_append]; omega)] at hdata
  have hend : (n.text ++ (gap ++ (u.letters ++ trailing))).drop
      (n.text ++ (gap ++ u.letters)).length = trailing := by
    rw [← List.append_assoc,← List.append_assoc,← List.append_assoc]
    exact List.drop_left' (by simp)
  exact scpiParameter_first mandatory hb hne (fun b hb => (hhead b hb).1) hdata
    (by simp [parameterTypes]) (by simpa only [hend] using ht) behind

theorem suffixOf_token (n : Number) (u : Suffix) (hgap : ∀ b ∈ gap, isws b = true) :
    suffixOf (n.text ++ (gap ++ u.letters)) = u.letters := by
  obtain ⟨hne,hletters,-⟩ := u.spelled
  have hended := u.ended []
  have hsuffix := suffix_letters hne hletters (by simp : ∀ b ∈ ([] : List Byte), isws b = true)
  rw [List.append_nil] at hended hsuffix
  simp only [suffixOf,decimal_number n hgap hended,List.drop_left,skipWs_behind hgap hended,hsuffix,
    List.take_length]

theorem transformNumber_suffix (u : Suffix) (value : ℚ) :
    transformNumber u.letters value = some (value*u.unitDef.mult,u.unitDef.unit) := by
  obtain ⟨hne,hletters,-⟩ := u.spelled
  have hclass : ∀ b : Byte, isalpha b = true → isSpace b = false := by decide
  have hzero : many isSpace u.letters = 0 := by
    obtain ⟨b,s,hs⟩ := List.exists_cons_of_ne_nil hne
    simp [hs,many,hclass b (hletters b (by simp [hs]))]
  have hlen : ¬0 = u.letters.length := fun h => hne (List.length_eq_zero_iff.mp h.symm)
  simp only [transformNumber,hzero,hlen,if_false,List.drop_zero,u.known,Option.map_some]

def suffixText (u : Option Suffix) : List Byte := (u.map Suffix.letters).getD []

def suffixMult (u : Option Suffix) : ℚ := (u.map fun u => u.unitDef.mult).getD 1

def suffixUnit (u : Option Suffix) : ScpiUnit := (u.map fun u => u.unitDef.unit).getD .none

theorem paramNumber_read {ν : Type} (special : List (String × ν)) (plain : ℚ → ScpiUnit → ν)
    (mandatory : Bool) (n : Number) (u : Option Suffix) (hb : ∀ b ∈ blanks, isws b = true)
    (hgap : ∀ b ∈ gap, isws b = true) (ht : ∀ b ∈ trailing, isws b = true)
    {behind : List Byte} (hbehind : Closed behind) :
    paramNumber special plain mandatory
        ⟨blanks ++ (n.text ++ (gap ++ (suffixText u ++ trailing))),0,behind⟩ =
      ⟨some (plain (n.read*suffixMult u) (suffixUnit u)),[],⟨[],1,behind⟩⟩ := by
  cases u with
  | none =>
    have hrest : ∀ b ∈ gap ++ trailing, isws b = true := by
      intro b hmem
      rcases List.mem_append.mp hmem with h | h
      · exact hgap b h
      · exact ht b h
    have hvalue := strtod_number n hrest hbehind.ended
    have hparam := scpiParameter_plain mandatory n hb hrest behind
    rw [List.append_assoc] at hparam
    simp only [suffixText,Option.map_none,Option.getD_none,List.nil_append]
    simp only [paramNumber,reader,hparam,paramToDouble,hvalue,suffixMult,suffixUnit,Option.map_none,
      Option.getD_none,mul_one]
  | some u =>
    have hvalue := strtod_number n hgap (u.ended (trailing ++ behind))
    have hparam := scpiParameter_suffix mandatory n u hb hgap ht behind
    simp only [List.append_assoc] at hparam
    have htoken : (n.text ++ (gap ++ (u.letters ++ (trailing ++ behind)))).take
        (n.text ++ (gap ++ u.letters)).length = n.text ++ (gap ++ u.letters) := by
      rw [← List.append_assoc,← List.append_assoc,← List.append_assoc]
      exact List.take_left' (by simp)
    simp only [suffixText,Option.map_some,Option.getD_some]
    simp only [paramNumber,reader,hparam,Parameter.text,htoken,suffixOf_token n u hgap,paramToDouble,
      hvalue,transformNumber_suffix,suffixMult,suffixUnit,Option.map_some,Option.getD_some]

theorem unit_mults : scpiUnitsDef.all (fun d => d.mult ≠ 0) = true := by decide +kernel

theorem suffixMult_ne_zero (u : Option Suffix) : suffixMult u ≠ 0 := by
  cases u with
  | none => exact one_ne_zero
  | some u =>
    have hmem : u.unitDef ∈ scpiUnitsDef := List.mem_of_find?_eq_some u.known
    simpa [suffixMult] using List.all_eq_true.mp unit_mults u.unitDef hmem

/-- What is read is what is written, unless there is a blank in a number whose exponent
matters. -/
theorem read_eq_meant_iff (n : Number) : n.read = n.meant ↔
    n.tight = true ∨ (∀ p ∈ n.power, p.exponent.value = 0) ∨ n.mantissa.value = 0 := by
  cases htight : n.tight with
  | true => simp [Number.read,htight]
  | false =>
    obtain ⟨p,hp⟩ : ∃ p, n.power = some p := by
      cases hp : n.power with
      | none => simp [Number.tight,hp] at htight
      | some p => exact ⟨p,rfl⟩
    have hone : (10 : ℚ)^p.exponent.value = 1 ↔ p.exponent.value = 0 :=
      zpow_eq_one_iff_right₀ (by norm_num) (by norm_num)
    simp only [Number.read,htight,Number.meant,hp,Option.map_some,Option.getD_some,
      Option.mem_some_iff,forall_eq',Bool.false_eq_true,if_false,false_or]
    rw [eq_comm,mul_right_eq_self₀,hone]

/-- The number a client writes is the number the firmware gets exactly if there is no blank in
front of the exponent or in it, or the exponent makes no difference. Otherwise the exponent is
left out without an error. -/
theorem number_as_written_iff (n : Number) (u : Option Suffix) (hb : ∀ b ∈ blanks, isws b = true)
    (hgap : ∀ b ∈ gap, isws b = true) (ht : ∀ b ∈ trailing, isws b = true)
    {behind : List Byte} (hbehind : Closed behind) :
    ∃ value, paramNumber scpiSpecialNumbersDef .plain true
          ⟨blanks ++ (n.text ++ (gap ++ (suffixText u ++ trailing))),0,behind⟩ =
        ⟨some (.plain value (suffixUnit u)),[],⟨[],1,behind⟩⟩ ∧
      (value = n.meant*suffixMult u ↔
        n.tight = true ∨ (∀ p ∈ n.power, p.exponent.value = 0) ∨ n.mantissa.value = 0) ∧
      (n.tight = false → value = n.mantissa.value*suffixMult u) := by
  refine ⟨n.read*suffixMult u,paramNumber_read _ _ true n u hb hgap ht hbehind,?_,fun h => ?_⟩
  · rw [mul_left_inj' (suffixMult_ne_zero u),read_eq_meant_iff]
  · rw [Number.read,h]
    rfl

def tenMega : Number where
  mantissa := .integer [] (text "10") (by decide) (by decide) (by decide)
  power := some ⟨text " ",[],⟨chr 'E',[],text "6",by decide,by decide,by decide,by decide⟩,by decide⟩

theorem ten_megahertz_read_as_ten :
    ∃ value : ℚ, paramNumber scpiSpecialNumbersDef .plain true ⟨text "10 E6 HZ",0,[newLine]⟩ =
      ⟨some (.plain value .hertz),[],⟨[],1,[newLine]⟩⟩ ∧ value = 10 ∧ tenMega.meant = 10^7 := by
  have hnone : ∀ b ∈ ([] : List Byte), isws b = true := by simp
  have hblank : ∀ b ∈ text " ", isws b = true := by decide
  obtain ⟨value,hread,-,hloose⟩ := number_as_written_iff tenMega
    (some ⟨text "HZ",⟨"HZ",.hertz,1⟩,rfl⟩) hnone hblank hnone (closed_newLine [])
  have hten : Numerals.value 10 (text "10") = 10 ∧ Numerals.value 10 (text "6") = 6 := by decide
  refine ⟨value,hread,?_,?_⟩
  · rw [hloose rfl]
    simp [tenMega,Mantissa.integer,Mantissa.value,suffixMult,hten.1]
  · simp [tenMega,Mantissa.integer,Number.meant,Mantissa.value,Exponent.value,hten]
    norm_num

end Reading

end Stm32Dds.Parameters
