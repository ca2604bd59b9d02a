import Stm32Dds.Numerals
import Stm32Dds.Replies

set_option autoImplicit false

namespace Stm32Dds.Results
open Bytes Numerals Replies

inductive Base
  | bin | oct | dec | hex
  deriving DecidableEq, Repr

def Base.radix : Base → Nat
  | .bin => 2
  | .oct => 8
  | .dec => 10
  | .hex => 16

def Base.firstDivisor : Base → Nat
  | .bin => 0x80000000
  | .oct => 0x40000000
  | .dec => 1000000000
  | .hex => 0x10000000

/-- `while ((uval / x) == 0) x /= base` -/
def leadingDivisor (radix uval : Nat) : Nat → Nat → Nat
  | 0, x => x
  | fuel+1, x => if uval/x = 0 then leadingDivisor radix uval fuel (x/radix) else x

def addDigits (radix : Nat) : Nat → Nat → Nat → List Byte
  | 0, _, _ => []
  | room+1, x, uval =>
    let digit := uval/x
    digitByte digit ::
      if x/radix = 0 then [] else addDigits radix room (x/radix) (uval-digit*x)

def minus : Byte := 45

def uint32ToStrBaseSign (val : BitVec 32) (len : Nat) (base : Base) (sign : Bool) : List Byte :=
  if val = 0 then (ascii "0").take len
  else
    let negative := sign && val.slt 0 && base = .dec
    let uval := if negative then -val else val
    let str := if negative then [minus].take len else []
    str ++ addDigits base.radix (len-str.length)
      (leadingDivisor base.radix uval.toNat 32 base.firstDivisor) uval.toNat

structure Output where
  count : Nat
  pieces : List Piece

namespace Output

def writeData (data : List Byte) (o : Output) : Output :=
  if data = [] then o else { o with pieces := o.pieces ++ [.write data] }

def writeDelimiter (o : Output) : Output := if o.count > 0 then o.writeData (ascii ",") else o

def writeNewLine (o : Output) : Output := if o.count > 0 then o.writeData lineEnding else o

def writeSemicolon (o : Output) : Output := if o.count > 0 then o.writeData (ascii ";") else o

def counted (o : Output) : Output := { o with count := o.count+1 }

def resultCharacters (data : List Byte) (o : Output) : Output :=
  (o.writeDelimiter.writeData data).counted

end Output

def getBasePrefix : Base → List Byte
  | .bin => ascii "#B"
  | .oct => ascii "#Q"
  | .hex => ascii "#H"
  | .dec => []

def Output.resultUInt32BaseSign (val : BitVec 32) (base : Base) (sign : Bool) (o : Output) :
    Output :=
  ((o.writeDelimiter.writeData (getBasePrefix base)).writeData
    (uint32ToStrBaseSign val 33 base sign)).counted

def Output.resultInt32 (val : BitVec 32) : Output → Output :=
  Output.resultUInt32BaseSign val .dec true

def quote : Byte := 34

/-- SCPI_ResultError without device dependent information: the number and its text, none of
which has a quote in it or is longer than SCPI_STD_ERROR_DESC_MAX_STRING_LENGTH. -/
def Output.resultError (code : BitVec 16) (translation : String) (o : Output) : Output :=
  (((o.resultInt32 (code.signExtend 32)).writeDelimiter.writeData [quote]).writeData
    (ascii translation)).writeData [quote]

/-- SCPI_ResultArbitraryBlock. No comma is written in front of it, and the header has just
set arbitrary_reminding to the length of the data. -/
def Output.resultArbitraryBlock (data : List Byte) (o : Output) : Output :=
  let digits := uint32ToStrBaseSign (BitVec.ofNat 32 data.length) 10 .dec false
  ((o.writeData (ascii "#" ++ BitVec.ofNat 8 (digits.length+48) :: digits)).counted).writeData data

section Text

def Base.places : Base → Nat
  | .bin => 32
  | .oct => 11
  | .dec => 10
  | .hex => 8

theorem Base.firstDivisor_eq (b : Base) :
    ∃ k, b.places = k+1 ∧ k ≤ 31 ∧ b.firstDivisor = b.radix^k ∧ 2^32 ≤ b.radix^(k+1) := by
  cases b with
  | bin => exact ⟨31,by decide,by decide,by decide,by decide⟩
  | oct => exact ⟨10,by decide,by decide,by decide,by decide⟩
  | dec => exact ⟨9,by decide,by decide,by decide,by decide⟩
  | hex => exact ⟨7,by decide,by decide,by decide,by decide⟩

theorem Base.radix_bounds (b : Base) : 2 ≤ b.radix ∧ b.radix ≤ 33 := by cases b <;> decide

variable {radix : Nat}

theorem leadingDivisor_eq (hlow : 2 ≤ radix) {uval : Nat} (hpos : 0 < uval) {k fuel : Nat}
    (hk : k ≤ fuel) (hlt : uval < radix^(k+1)) :
    ∃ j ≤ k, leadingDivisor radix uval fuel (radix^k) = radix^j ∧ radix^j ≤ uval ∧
      uval < radix^(j+1) := by
  induction k generalizing fuel with
  | zero =>
    refine ⟨0,le_rfl,?_,by rw [pow_zero]; exact hpos,hlt⟩
    cases fuel with
    | zero => rfl
    | succ fuel => rw [leadingDivisor,pow_zero,Nat.div_one,if_neg (by omega)]
  | succ k ih =>
    obtain ⟨fuel,rfl⟩ : ∃ f, fuel = f+1 := ⟨fuel-1,by omega⟩
    rw [leadingDivisor]
    by_cases hsmall : uval < radix^(k+1)
    · obtain ⟨j,hj,hdiv,hle,hlt'⟩ := ih (show k ≤ fuel by omega) hsmall
      refine ⟨j,by omega,?_,hle,hlt'⟩
      rw [if_pos (Nat.div_eq_of_lt hsmall),pow_succ,Nat.mul_div_cancel _ (by omega)]
      exact hdiv
    · have hquot : uval/radix^(k+1) ≠ 0 := by
        rw [Nat.div_ne_zero_iff]
        exact ⟨(pow_pos (by omega) _).ne',by omega⟩
      exact ⟨k+1,le_rfl,if_neg hquot,by omega,hlt⟩

theorem addDigits_eq (hlow : 2 ≤ radix) (j : Nat) {room uval : Nat} (hroom : j < room) :
    addDigits radix room (radix^j) uval = fixedWidth radix (j+1) uval := by
  induction j generalizing room uval with
  | zero =>
    obtain ⟨room,rfl⟩ : ∃ r, room = r+1 := ⟨room-1,by omega⟩
    rw [addDigits,pow_zero,if_pos (Nat.div_eq_of_lt (by omega)),fixedWidth,fixedWidth,pow_zero]
  | succ j ih =>
    obtain ⟨room,rfl⟩ : ∃ r, room = r+1 := ⟨room-1,by omega⟩
    have hpos : 0 < radix^j := pow_pos (by omega) j
    have hnext : radix^(j+1)/radix = radix^j := by
      rw [pow_succ,Nat.mul_div_cancel _ (by omega)]
    have hrest : uval-uval/radix^(j+1)*radix^(j+1) = uval % radix^(j+1) :=
      Nat.mod_eq_sub_div_mul.symm
    rw [addDigits,hnext,if_neg hpos.ne',hrest,ih (by omega)]
    rfl

theorem printed_shortest (b : Base) {uval : Nat} (hpos : 0 < uval) (hlt : uval < 2^32) {len : Nat}
    (hlen : b.places ≤ len) : Shortest b.radix uval
      (addDigits b.radix len (leadingDivisor b.radix uval 32 b.firstDivisor) uval) := by
  obtain ⟨k,hplaces,hk,hfirst,hbig⟩ := b.firstDivisor_eq
  have hlow := b.radix_bounds.1
  obtain ⟨j,hj,hdiv,hle,hj'⟩ := leadingDivisor_eq hlow hpos (show k ≤ 32 by omega)
    (hlt.trans_le hbig)
  rw [hfirst,hdiv,addDigits_eq hlow j (by omega)]
  exact ⟨j,rfl,hj',.inl hle⟩

theorem uint32ToStr_shortest (val : BitVec 32) (b : Base) {len : Nat} (hlen : b.places ≤ len) :
    Shortest b.radix val.toNat (uint32ToStrBaseSign val len b false) := by
  unfold uint32ToStrBaseSign
  split
  · rename_i h
    subst h
    obtain ⟨k,hplaces,-⟩ := b.firstDivisor_eq
    have hlow := b.radix_bounds.1
    have htake : (ascii "0").take len = ascii "0" :=
      List.take_of_length_le (show 1 ≤ len by omega)
    rw [htake]
    exact ⟨0,by simp [fixedWidth]; decide,by simp; omega,.inr rfl⟩
  · rename_i h
    have hpos : 0 < val.toNat := Nat.pos_of_ne_zero fun h0 => h (BitVec.eq_of_toNat_eq (by simpa using h0))
    simpa using printed_shortest b hpos val.isLt hlen

theorem int32ToStr_shortest (val : BitVec 32) :
    val.slt 0 = false ∧ Shortest 10 val.toNat (uint32ToStrBaseSign val 33 .dec true) ∨
    val.slt 0 = true ∧ ∃ ds, uint32ToStrBaseSign val 33 .dec true = minus :: ds ∧
      Shortest 10 (-val).toNat ds := by
  cases hneg : val.slt 0 with
  | false =>
    have hplain : uint32ToStrBaseSign val 33 .dec true = uint32ToStrBaseSign val 33 .dec false := by
      simp only [uint32ToStrBaseSign,hneg,Bool.true_and,Bool.false_and]
    exact .inl ⟨rfl,hplain ▸ uint32ToStr_shortest val .dec (by decide)⟩
  | true =>
    have hne : val ≠ 0 := by
      rintro rfl
      cases hneg
    have hpos : 0 < (-val).toNat := by
      refine Nat.pos_of_ne_zero fun h0 => hne ?_
      have hzero : -val = 0 := BitVec.eq_of_toNat_eq (by simpa using h0)
      simpa using hzero
    refine .inr ⟨rfl,_,?_,printed_shortest .dec hpos (-val).isLt (show 10 ≤ 32 by omega)⟩
    rw [uint32ToStrBaseSign,if_neg hne]
    simp only [hneg,Bool.true_and,decide_true,if_true]
    rfl

end Text

end Stm32Dds.Results
