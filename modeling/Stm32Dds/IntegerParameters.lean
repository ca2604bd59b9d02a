import Stm32Dds.ScpiNumbers

set_option autoImplicit false

namespace Stm32Dds.Parameters
open Bytes Scanning Lexer Numerals Decimals Results Status

section Bases

variable {trailing ds : List Byte}

/-- The letter behind the number sign, and the digits that go with it. -/
def baseLetter : Base → Byte
  | .bin => chr 'B'
  | .oct => chr 'Q'
  | _ => chr 'H'

def lexDigit : Base → Byte → Bool
  | .bin => isbdigit
  | .oct => isqdigit
  | .dec => isdigit
  | .hex => isxdigit

def baseType : Base → TokenType
  | .bin => .binnum
  | .oct => .octnum
  | .dec => .decimalNumericProgramData
  | .hex => .hexnum

theorem isDigit_radix (base : Base) : ∀ b : Byte, isDigit base.radix b = lexDigit base b := by
  cases base <;> decide

theorem programData_based {base : Base} (hbase : base ≠ .dec)
    (ht : ∀ b ∈ trailing, isws b = true) (hds : ∀ b ∈ ds, lexDigit base b = true)
    (hne : ds ≠ []) :
    programData (chr '#' :: baseLetter base :: (ds ++ trailing)) =
      ⟨baseType base,ds.length,ds.length+2,ds.length+2⟩ := by
  have hlen := List.length_pos_iff.mpr hne
  have hlex : scpiLexNondecimalNumericData (chr '#' :: baseLetter base :: (ds ++ trailing)) =
      prefixed (baseType base) (many (lexDigit base) (ds ++ trailing)) := by
    cases base with
    | dec => exact absurd rfl hbase
    | bin => rfl
    | oct => rfl
    | hex => rfl
  have hblank : ∀ b, isws b = true → lexDigit base b = false := by
    cases base <;> decide
  rw [many_until hds fun b hb => hblank b (ht b (List.mem_of_mem_head? hb)),prefixed,
    if_neg (by omega)] at hlex
  rw [programData,orElse,hlex]
  rfl

theorem blank_ends (base : Base) (ht : ∀ b ∈ trailing, isws b = true) {behind : List Byte}
    (hbehind : Closed behind) : ∀ b ∈ (trailing ++ behind).head?,
      isDigit base.radix b = false ∧ b.toNat ≠ 120 ∧ b.toNat ≠ 88 := by
  have hdigit : ∀ b, isws b = true ∨ isMnemonic b = false →
      isDigit base.radix b = false ∧ b.toNat ≠ 120 ∧ b.toNat ≠ 88 := by
    cases base <;> decide
  intro b hb
  cases trailing with
  | nil => exact hdigit b (.inr (hbehind b hb).1)
  | cons c trailing =>
    obtain rfl : c = b := by simpa using hb
    exact hdigit c (.inl (ht c (by simp)))

end Bases

section ReadBack

variable {blanks trailing ds behind : List Byte}

theorem scpiParameter_based (mandatory : Bool) {base : Base} (hbase : base ≠ .dec)
    (hb : ∀ b ∈ blanks, isws b = true) (ht : ∀ b ∈ trailing, isws b = true)
    (row : Row base.radix ds (trailing ++ behind)) :
    scpiParameter mandatory ⟨blanks ++ (chr '#' :: baseLetter base :: (ds ++ trailing)),0,behind⟩ =
      ⟨some ⟨baseType base,ds ++ (trailing ++ behind),ds.length⟩,[],⟨[],1,behind⟩⟩ := by
  have hlex := programData_based hbase ht
    (fun b h => (isDigit_radix base b).symm.trans (row.digits b h)) row.nonempty
  have hhash : isws (chr '#') = false := by decide
  have htype : baseType base ∈ parameterTypes := by
    cases base <;> decide
  have hfirst := scpiParameter_first mandatory hb (List.cons_ne_nil _ _) (by simpa using hhash) hlex
    htype (by simpa using ht) behind
  have hheader : headerLen ⟨baseType base,ds.length,ds.length+2,ds.length+2⟩ = 2 := by
    cases base with
    | dec => exact absurd rfl hbase
    | bin => simp [headerLen,baseType]
    | oct => simp [headerLen,baseType]
    | hex => simp [headerLen,baseType]
  rw [hfirst,hheader,← List.append_assoc]
  rfl

theorem scpiParameter_integer (mandatory : Bool) {sgn : List Byte} (hsgn : sgn ∈ signTexts)
    (hb : ∀ b ∈ blanks, isws b = true) (ht : ∀ b ∈ trailing, isws b = true)
    (row : Row 10 ds (trailing ++ behind)) :
    scpiParameter mandatory ⟨blanks ++ (sgn ++ (ds ++ trailing)),0,behind⟩ =
      ⟨some ⟨.decimalNumericProgramData,sgn ++ (ds ++ (trailing ++ behind)),sgn.length+ds.length⟩,[],
        ⟨[],1,behind⟩⟩ := by
  have hplain := scpiParameter_plain mandatory
    ⟨.integer sgn ds hsgn row.digits row.nonempty,none⟩ hb ht behind
  rw [Number.text,Option.map_none,Option.getD_none,List.append_nil,Mantissa.integer_text,
    List.length_append] at hplain
  simpa only [List.append_assoc] using hplain

theorem scpiParameter_number (mandatory : Bool) {base : Base} (hb : ∀ b ∈ blanks, isws b = true)
    (ht : ∀ b ∈ trailing, isws b = true) (row : Row base.radix ds (trailing ++ behind)) :
    scpiParameter mandatory ⟨blanks ++ (getBasePrefix base ++ (ds ++ trailing)),0,behind⟩ =
      ⟨some ⟨baseType base,ds ++ (trailing ++ behind),ds.length⟩,[],⟨[],1,behind⟩⟩ := by
  cases base with
  | dec =>
    have hsgn : [] ∈ signTexts := by decide
    simpa [getBasePrefix,baseType] using scpiParameter_integer mandatory hsgn hb ht row
  | bin => exact scpiParameter_based mandatory (by decide) hb ht row
  | oct => exact scpiParameter_based mandatory (by decide) hb ht row
  | hex => exact scpiParameter_based mandatory (by decide) hb ht row

theorem uint32_read (val : BitVec 32) (base : Base) (mandatory : Bool)
    (hb : ∀ b ∈ blanks, isws b = true) (ht : ∀ b ∈ trailing, isws b = true)
    (hbehind : Closed behind) :
    paramUInt32 mandatory ⟨blanks ++ (getBasePrefix base ++
      (uint32ToStrBaseSign val 33 base false ++ trailing)),0,behind⟩ =
        ⟨some val,[],⟨[],1,behind⟩⟩ := by
  have hshort := uint32ToStr_shortest val base (show base.places ≤ 33 by cases base <;> decide)
  generalize uint32ToStrBaseSign val 33 base false = ds at hshort
  obtain ⟨hlow,hhigh⟩ := base.radix_bounds
  have hvalue := hshort.value hlow (by omega)
  have row := hshort.row hlow (by omega) (blank_ends base ht hbehind)
  have hread : strtoul 32 base.radix (ds ++ (trailing ++ behind)) = (val,ds.length) := by
    rw [row.strtoul hhigh (by rw [hvalue]; exact val.isLt),hvalue,BitVec.ofNat_toNat,
      BitVec.setWidth_eq]
  have hnumber : numberAt (strtoul 32 base.radix) (ds ++ (trailing ++ behind)) = some val := by
    rw [numberAt,hread,if_pos (List.length_pos_iff.mpr row.nonempty)]
  have hconvert : paramSignToUInt32 false ⟨baseType base,ds ++ (trailing ++ behind),ds.length⟩ =
      some val := by
    cases base <;> exact hnumber
  have hdigits : paramIsNumber false (baseType base) = true := by
    cases base <;> rfl
  simp only [paramUInt32,paramSignUInt32,reader,scpiParameter_number mandatory hb ht row,hdigits,
    hconvert,if_true]

theorem paramInt32_integer (mandatory : Bool) {sgn : List Byte} (hsgn : sgn ∈ signTexts)
    (hb : ∀ b ∈ blanks, isws b = true) (ht : ∀ b ∈ trailing, isws b = true)
    (row : Row 10 ds (trailing ++ behind)) {val : BitVec 32} {used : Nat} (hused : 0 < used)
    (hread : strtol 32 10 (sgn ++ (ds ++ (trailing ++ behind))) = (val,used)) :
    paramInt32 mandatory ⟨blanks ++ (sgn ++ (ds ++ trailing)),0,behind⟩ =
      ⟨some val,[],⟨[],1,behind⟩⟩ := by
  have hnumber : numberAt (strtol 32 10) (sgn ++ (ds ++ (trailing ++ behind))) = some val := by
    rw [numberAt,hread,if_pos hused]
  simp only [paramInt32,paramSignUInt32,reader,scpiParameter_integer mandatory hsgn hb ht row,
    paramIsNumber,paramSignToUInt32,if_true,hnumber]

theorem int32_read (val : BitVec 32) (mandatory : Bool)
    (hb : ∀ b ∈ blanks, isws b = true) (ht : ∀ b ∈ trailing, isws b = true) (hbehind : Closed behind) :
    paramInt32 mandatory ⟨blanks ++ (uint32ToStrBaseSign val 33 .dec true ++ trailing),0,behind⟩ =
      ⟨some val,[],⟨[],1,behind⟩⟩ := by
  have hends := blank_ends .dec ht hbehind
  rcases int32ToStr_shortest val with ⟨hneg,hshort⟩ | ⟨hneg,ds,htext,hshort⟩
  · generalize uint32ToStrBaseSign val 33 .dec true = ds at hshort
    have hvalue := hshort.value (by omega) (by omega)
    have row := hshort.row (by omega) (by omega) hends
    have hsmall : val.toNat < 2^31 := by
      have hmsb : val.msb = false := (BitVec.slt_zero_eq_msb).symm.trans hneg
      simpa [BitVec.msb_eq_decide] using hmsb
    have hread : strtol 32 10 ([] ++ (ds ++ (trailing ++ behind))) = (val,ds.length) := by
      rw [List.nil_append,row.strtol (by omega) (by rw [hvalue]; exact hsmall),hvalue,
        BitVec.ofNat_toNat,BitVec.setWidth_eq]
    exact paramInt32_integer mandatory (by decide) hb ht row (List.length_pos_iff.mpr row.nonempty)
      hread
  · have hvalue := hshort.value (by omega) (by omega)
    have row := hshort.row (by omega) (by omega) hends
    have hsmall : (-val).toNat ≤ 2^31 := by
      have hmsb : val.msb = true := (BitVec.slt_zero_eq_msb).symm.trans hneg
      have hbig : 2^31 ≤ val.toNat := by simpa [BitVec.msb_eq_decide] using hmsb
      rw [BitVec.toNat_neg]
      omega
    have hread : strtol 32 10 ([minus] ++ (ds ++ (trailing ++ behind))) = (val,1+ds.length) := by
      rw [minus,List.singleton_append,row.strtol_minus (by decide) (by rw [hvalue]; exact hsmall),
        hvalue,BitVec.ofNat_toNat,BitVec.setWidth_eq,BitVec.neg_neg]
    rw [htext]
    exact paramInt32_integer mandatory (by decide) hb ht row (by omega) hread

/-- What the library prints for a number it also reads as that number: in any base without a
sign, and in decimal with one. -/
theorem printed_numbers_read_back (val : BitVec 32) (mandatory : Bool)
    (hb : ∀ b ∈ blanks, isws b = true) (ht : ∀ b ∈ trailing, isws b = true)
    (hbehind : Closed behind) :
    (∀ base, paramUInt32 mandatory ⟨blanks ++ (getBasePrefix base ++
      (uint32ToStrBaseSign val 33 base false ++ trailing)),0,behind⟩ =
        ⟨some val,[],⟨[],1,behind⟩⟩) ∧
    paramInt32 mandatory ⟨blanks ++ (uint32ToStrBaseSign val 33 .dec true ++ trailing),0,behind⟩ =
      ⟨some val,[],⟨[],1,behind⟩⟩ :=
  ⟨fun base => uint32_read val base mandatory hb ht hbehind,
    int32_read val mandatory hb ht hbehind⟩

theorem minus_five_read_back :
    paramUInt32 true ⟨text " #HFFFFFFFB ",0,[newLine]⟩ = ⟨some (-5),[],⟨[],1,[newLine]⟩⟩ ∧
      paramInt32 true ⟨text " -5 ",0,[newLine]⟩ = ⟨some (-5),[],⟨[],1,[newLine]⟩⟩ :=
  have hblank : ∀ b ∈ text " ", isws b = true := by decide
  have hboth := printed_numbers_read_back (-5) true hblank hblank (closed_newLine [])
  ⟨hboth.1 .hex,hboth.2⟩

end ReadBack

section Cut

variable {blanks trailing behind : List Byte}

def Number.tail (n : Number) (rest : List Byte) : List Byte :=
  (n.power.map Power.text).getD [] ++ rest

theorem Number.tail_stops (n : Number) (ht : ∀ b ∈ trailing, isws b = true)
    (hbehind : Closed behind) : Stops (n.tail (trailing ++ behind)) := by
  intro b hb
  cases hp : n.power with
  | none =>
    have hstops := behind_stops ht hbehind.ended b (by simpa [Number.tail,hp] using hb)
    exact digit_point ⟨hstops.1,hstops.2.1⟩
  | some p => exact digit_point (power_stops p (trailing ++ behind) b
      (by simpa [Number.tail,hp] using hb))

theorem scan_number (n : Number) (ht : ∀ b ∈ trailing, isws b = true) (hbehind : Closed behind) :
    scan 10 (n.text ++ (trailing ++ behind)) = (decide (n.mantissa.sign = [45]),n.mantissa.whole,
      n.mantissa.sign.length+n.mantissa.whole.length) := by
  have htext : n.text ++ (trailing ++ behind) = n.mantissa.text ++ n.tail (trailing ++ behind) := by
    simp [Number.text,Number.tail]
  rw [htext,n.mantissa.scan_text (n.tail_stops ht hbehind)]

theorem scan_whole (n : Number) (h : n.mantissa.whole ≠ []) :
    scan 10 (n.mantissa.sign ++ n.mantissa.whole) = (decide (n.mantissa.sign = [45]),
      n.mantissa.whole,n.mantissa.sign.length+n.mantissa.whole.length) := by
  have hends : Stops [] := by simp [Stops]
  have hdigits : ∀ b ∈ n.mantissa.whole, isDigit 10 b = true :=
    fun b hb => n.mantissa.digits b (by simp [hb])
  have hwhole := (Mantissa.integer _ _ n.mantissa.sign_text hdigits h).scan_text hends
  rwa [List.append_nil,Mantissa.integer_text] at hwhole

theorem numberAt_number (n : Number) (ht : ∀ b ∈ trailing, isws b = true)
    (hbehind : Closed behind)
    {read : List Byte → BitVec 32 × Nat} (hread : read = strtoul 32 10 ∨ read = strtol 32 10) :
    numberAt read (n.text ++ (trailing ++ behind)) = if n.mantissa.whole = [] then none
      else some (read (n.mantissa.sign ++ n.mantissa.whole)).1 := by
  have hscan := scan_number n ht hbehind
  by_cases hwhole : n.mantissa.whole = []
  · have hnone : read (n.text ++ (trailing ++ behind)) = (0,0) := by
      rcases hread with rfl | rfl
      · simp only [strtoul,hscan,hwhole,if_true]
      · simp only [strtol,hscan,hwhole,if_true]
    rw [numberAt,hnone,if_pos hwhole]
    rfl
  · have hlen := List.length_pos_iff.mpr hwhole
    have hsame : read (n.text ++ (trailing ++ behind)) = read (n.mantissa.sign ++ n.mantissa.whole) ∧
        0 < (read (n.mantissa.sign ++ n.mantissa.whole)).2 := by
      have hcut := scan_whole n hwhole
      rcases hread with rfl | rfl
      · simp only [strtoul,hscan,hcut,hwhole,if_false,true_and]
        split <;> simp only <;> omega
      · simp only [strtol,hscan,hcut,hwhole,if_false,true_and]
        split <;> simp only <;> omega
    rw [numberAt,hsame.1,if_pos hsame.2,if_neg hwhole]

/-- An integer parameter is what its sign and the digits in front of the point stand for. A
fraction and an exponent are dropped without an error; without a digit in front of the point
there is no value. -/
theorem integer_parameter_cut (n : Number) (mandatory : Bool) (hb : ∀ b ∈ blanks, isws b = true)
    (ht : ∀ b ∈ trailing, isws b = true) (hbehind : Closed behind) :
    let cut := n.mantissa.sign ++ n.mantissa.whole
    paramUInt32 mandatory ⟨blanks ++ (n.text ++ trailing),0,behind⟩ =
      ⟨if n.mantissa.whole = [] then none else some (strtoul 32 10 cut).1,[],⟨[],1,behind⟩⟩ ∧
    paramInt32 mandatory ⟨blanks ++ (n.text ++ trailing),0,behind⟩ =
      ⟨if n.mantissa.whole = [] then none else some (strtol 32 10 cut).1,[],⟨[],1,behind⟩⟩ := by
  intro cut
  have hparam := scpiParameter_plain mandatory n hb ht behind
  rw [List.append_assoc] at hparam
  constructor
  · simp only [paramUInt32,paramSignUInt32,reader,hparam,paramIsNumber,paramSignToUInt32,if_true,
      Bool.false_eq_true,if_false,numberAt_number n ht hbehind (.inl rfl),cut]
  · simp only [paramInt32,paramSignUInt32,reader,hparam,paramIsNumber,paramSignToUInt32,if_true,
      numberAt_number n ht hbehind (.inr rfl),cut]

theorem one_kilo_read_as_one :
    paramUInt32 true ⟨text "1E3",0,[newLine]⟩ = ⟨some 1,[],⟨[],1,[newLine]⟩⟩ := by
  have hnone : ∀ b ∈ ([] : List Byte), isws b = true := by simp
  let oneKilo : Number :=
    ⟨.integer [] (text "1") (by decide) (by decide) (by decide),
      some ⟨[],[],⟨chr 'E',[],text "3",by decide,by decide,by decide,by decide⟩,by simp⟩⟩
  exact (integer_parameter_cut oneKilo true hnone hnone (closed_newLine [])).1

end Cut

end Stm32Dds.Parameters
