import Stm32Dds.HeaderCarry
import Stm32Dds.PacketParsing
import Stm32Dds.ReplyFraming
import Stm32Dds.Slices

/-! SCPI_Parse on the bytes of the packet itself. composeCompoundCommand completes a header by
moving the path of the header before it to the bytes in front of it, so that the packet is
changed while it is read. -/

set_option autoImplicit false

namespace Stm32Dds.InPlace
open Bytes Lexer Stm32Dds.Stream Status Slices

structure Token where
  ptr : Nat
  len : Nat

def Token.bytes (t : Token) (buffer : List Byte) : List Byte := slice buffer t.ptr t.len

/-- None is a move from or to bytes outside of the packet. -/
def memmove (dest src n : Nat) (buffer : List Byte) : Option (List Byte) :=
  if src+n ≤ buffer.length ∧ dest+n ≤ buffer.length then
    some (overwrite buffer dest (slice buffer src n))
  else none

/-- The loop from the end of cmd_prev to the colon behind its path. -/
def lastColon (buffer : List Byte) (ptr : Nat) : Nat → Nat
  | 0 => 0
  | i+1 => if buffer[ptr+i]? = some (chr ':') then i+1 else lastColon buffer ptr i

def composeCompoundCommand (buffer : List Byte) (prev current : Token) :
    Option (List Byte × Token) :=
  if current.len = 0 ∨ prev.len = 0 then some (buffer,current)
  else if buffer[current.ptr]? = some (chr '*') ∨ buffer[current.ptr]? = some (chr ':') then
    some (buffer,current)
  else if buffer[prev.ptr]? = some (chr '*') then some (buffer,current)
  else
    let i := lastColon buffer prev.ptr prev.len
    if i = 0 then some (buffer,current)
    else if current.ptr < i then none
    else (memmove (current.ptr-i) prev.ptr i buffer).map fun buffer =>
      (buffer,⟨current.ptr-i,current.len+i⟩)

/-- The variables of SCPI_Parse: the packet, how much of it is read, cmd_prev, the result with
the context, and what the callbacks act on. -/
structure State (σ : Type) where
  buffer : List Byte
  data : Nat
  prev : Token
  result : Bool × Context
  device : σ

variable {σ : Type} (callback : String → Message → σ → Outcome × σ)

/-- What is done about a unit. The callback reads its data from the packet as it is now. -/
def handle (m : Message) (st : State σ) : Option (State σ) :=
  if m.invalid then some { st with result := Turn.step st.result .invalid }
  else if m.header = [] then some st
  else
    match composeCompoundCommand st.buffer st.prev ⟨st.data+m.headerAt,m.header.length⟩ with
    | none => none
    | some (buffer,header) =>
      match findPattern (chars (header.bytes buffer)) with
      | none => some { st with buffer := buffer, result := Turn.step st.result .undefined }
      | some pattern =>
        let m := { m with data := slice buffer (st.data+m.dataAt) m.data.length }
        let (o,device) := callback pattern m st.device
        some ⟨buffer,st.data,header,Turn.step st.result (.command o),device⟩

def parseUnits : Nat → State σ → Option (State σ)
  | 0, _ => none
  | fuel+1, st =>
    let m := scpiParserDetectProgramMessageUnit (st.buffer.drop st.data)
    match handle callback m st with
    | none => none
    | some next =>
      if m.size < (st.buffer.drop st.data).length then
        parseUnits fuel { next with data := st.data+m.size }
      else some next

def scpiParse (packet : List Byte) (device : σ) (c : Context) : Option (Bool × Context) :=
  let start := (true,{ c with out := { c.out with count := 0 } })
  (parseUnits callback (packet.length+1) ⟨packet,0,⟨0,0⟩,start,device⟩).map fun st =>
    (st.result.1,{ st.result.2 with out := st.result.2.out.writeNewLine })

section Paths

variable {buffer : List Byte} {ptr len : Nat}

theorem char_eq_iff {b : Byte} {c : Char} (hc : c = ':' ∨ c = '*') :
    Char.ofNat b.toNat = c ↔ b = chr c := by
  rcases hc with rfl | rfl
  · revert b
    decide
  · revert b
    decide

theorem lastColon_le (buffer : List Byte) (ptr len : Nat) : lastColon buffer ptr len ≤ len := by
  induction len with
  | zero => exact le_rfl
  | succ n ih =>
    rw [lastColon]
    split <;> omega

theorem headerPath_snoc (header : List Char) (c : Char) :
    Scpi.headerPath (header ++ [c]) = if c = ':' then header ++ [c] else Scpi.headerPath header := by
  by_cases h : c = ':' <;> simp [Scpi.headerPath,h]

theorem headerPath_slice (h : ptr+len ≤ buffer.length) :
    Scpi.headerPath (chars (slice buffer ptr len)) =
      chars (slice buffer ptr (lastColon buffer ptr len)) := by
  induction len with
  | zero => rfl
  | succ n ih =>
    have hget : buffer[ptr+n]? = some buffer[ptr+n] := List.getElem?_eq_getElem (by omega)
    have hchars : chars (slice buffer ptr (n+1)) =
        chars (slice buffer ptr n) ++ [Char.ofNat buffer[ptr+n].toNat] := by
      rw [slice_succ,hget,chars,List.map_append]
      rfl
    rw [hchars,headerPath_snoc,lastColon,hget]
    by_cases hcolon : buffer[ptr+n] = chr ':'
    · rw [if_pos ((char_eq_iff (.inl rfl)).mpr hcolon),if_pos (congrArg some hcolon),hchars]
    · rw [if_neg (mt (char_eq_iff (.inl rfl)).mp hcolon),if_neg fun h => hcolon (Option.some.inj h),
        ih (by omega)]

theorem head_slice (hlen : 0 < len) (h : ptr+len ≤ buffer.length) {c : Char}
    (hc : c = ':' ∨ c = '*') :
    (chars (slice buffer ptr len)).head? = some c ↔ buffer[ptr]? = some (chr c) := by
  have hget : buffer[ptr]? = some buffer[ptr] := List.getElem?_eq_getElem (by omega)
  have hslice : (slice buffer ptr len)[0]? = buffer[ptr]? := by
    rw [getElem?_slice,if_pos hlen,Nat.add_zero]
  rw [chars,List.head?_map,List.head?_eq_getElem?,hslice,hget,Option.map_some,Option.some_inj,
    Option.some_inj,char_eq_iff hc]

end Paths

section Refinement

variable {packet buffer : List Byte} {data : Nat} {t : Token} {prev : Scpi.Previous}

/-- cmd_prev is a part of what is read already; what is not read is as it came. -/
structure Tracks (packet buffer : List Byte) (data : Nat) (t : Token) (prev : Scpi.Previous) :
    Prop where
  length : buffer.length = packet.length
  unread : buffer.drop data = packet.drop data
  bound : data ≤ packet.length
  behind : t.ptr+t.len ≤ data
  header : prev.header = chars (t.bytes buffer)
  back : t.ptr+prev.back = data

theorem chars_length (s : List Byte) : (chars s).length = s.length := List.length_map _

section Compose

variable {current : Token} {header : List Char}

theorem Tracks.header_length (h : Tracks packet buffer data t prev) :
    prev.header.length = t.len := by
  have hbound := h.bound
  have hbehind := h.behind
  have hlength := h.length
  rw [h.header,chars_length,Token.bytes,slice_length (by omega)]

theorem Tracks.header_eq_nil (h : Tracks packet buffer data t prev) :
    prev.header = [] ↔ t.len = 0 := by rw [← List.length_eq_zero_iff,h.header_length]

theorem Tracks.header_common (h : Tracks packet buffer data t prev) (ht : t.len ≠ 0) :
    prev.header.head? = some '*' ↔ buffer[t.ptr]? = some (chr '*') := by
  have hbound := h.bound
  have hbehind := h.behind
  have hlength := h.length
  rw [h.header]
  exact head_slice (by omega) (by omega) (.inr rfl)

theorem compose_kept (h : Tracks packet buffer data t prev)
    (hcurrent : ∀ c, c = ':' ∨ c = '*' →
      (header.head? = some c ↔ buffer[current.ptr]? = some (chr c)))
    (hkeep : prev.header = [] ∨ header.head? = some '*' ∨ header.head? = some ':' ∨
      prev.header.head? = some '*') :
    composeCompoundCommand buffer t current = some (buffer,current) := by
  rw [h.header_eq_nil,hcurrent '*' (.inr rfl),hcurrent ':' (.inl rfl)] at hkeep
  unfold composeCompoundCommand
  by_cases ht : t.len = 0
  · rw [if_pos (.inr ht)]
  · rw [h.header_common ht] at hkeep
    split
    · rfl
    · split
      · rfl
      · rw [if_pos (by tauto)]

theorem compose_moved (h : Tracks packet buffer data t prev) (hdata : data ≤ current.ptr)
    (hlen : 0 < current.len) (hend : current.ptr+current.len ≤ buffer.length)
    (hcurrent : ∀ c, c = ':' ∨ c = '*' →
      (header.head? = some c ↔ buffer[current.ptr]? = some (chr c)))
    (hmove : ¬(prev.header = [] ∨ header.head? = some '*' ∨ header.head? = some ':' ∨
      prev.header.head? = some '*')) :
    let i := lastColon buffer t.ptr t.len
    composeCompoundCommand buffer t current =
      some (overwrite buffer (current.ptr-i) (slice buffer t.ptr i),
        ⟨current.ptr-i,current.len+i⟩) := by
  have hbehind := h.behind
  simp only [not_or,h.header_eq_nil,hcurrent '*' (.inr rfl),hcurrent ':' (.inl rfl)] at hmove
  obtain ⟨ht,hstar,hcolon,hcommon⟩ := hmove
  rw [h.header_common ht] at hcommon
  have hi := lastColon_le buffer t.ptr t.len
  rw [composeCompoundCommand,if_neg (by omega),if_neg (by tauto),if_neg hcommon]
  simp only
  generalize lastColon buffer t.ptr t.len = i at hi
  by_cases hzero : i = 0
  · simp [hzero]
  · rw [if_neg hzero,if_neg (by omega),memmove,if_pos (by omega)]
    rfl

/-- composeCompoundCommand stays inside of the packet, and does with the bytes what the
model of the texts does. -/
theorem compose_in_place (h : Tracks packet buffer data t prev) (hdata : data ≤ current.ptr)
    (hlen : 0 < current.len) (hend : current.ptr+current.len ≤ buffer.length)
    (hheader : header = chars (current.bytes buffer)) :
    let shift := prev.shift header
    shift ≤ t.len ∧
    composeCompoundCommand buffer t current =
      some (overwrite buffer (current.ptr-shift) (slice buffer t.ptr shift),
        ⟨current.ptr-shift,current.len+shift⟩) ∧
    Scpi.composeCompoundCommand prev.header header =
      chars (slice buffer t.ptr shift) ++ header := by
  have hbound := h.bound
  have hbehind := h.behind
  have hlength := h.length
  have hcurrent (c : Char) (hc : c = ':' ∨ c = '*') :
      header.head? = some c ↔ buffer[current.ptr]? = some (chr c) := by
    rw [hheader]
    exact head_slice hlen hend hc
  by_cases hkeep : prev.header = [] ∨ header.head? = some '*' ∨ header.head? = some ':' ∨
      prev.header.head? = some '*'
  · have hcompose : Scpi.composeCompoundCommand prev.header header = header := if_pos hkeep
    have hshift : prev.shift header = 0 := by rw [Scpi.Previous.shift,hcompose,Nat.sub_self]
    simp only [hshift,hcompose,slice_zero,overwrite_nil,Nat.sub_zero,Nat.add_zero]
    exact ⟨Nat.zero_le _,compose_kept h hcurrent hkeep,rfl⟩
  · have hcompose : Scpi.composeCompoundCommand prev.header header =
        Scpi.headerPath prev.header ++ header := if_neg hkeep
    have hi := lastColon_le buffer t.ptr t.len
    have hpath : Scpi.headerPath prev.header =
        chars (slice buffer t.ptr (lastColon buffer t.ptr t.len)) := by
      rw [h.header]
      exact headerPath_slice (by omega)
    have hshift : prev.shift header = lastColon buffer t.ptr t.len := by
      rw [Scpi.Previous.shift,hcompose,hpath,List.length_append,chars_length,
        slice_length (by omega)]
      omega
    simp only [hshift,hcompose,hpath]
    exact ⟨hi,compose_moved h hdata hlen hend hcurrent hkeep,trivial⟩

end Compose

theorem Tracks.next (h : Tracks packet buffer data t prev) {size : Nat}
    (hsize : data+size ≤ packet.length) :
    Tracks packet buffer (data+size) t { prev with back := prev.back+size } where
  length := h.length
  unread := by rw [← List.drop_drop,h.unread,List.drop_drop]
  bound := hsize
  behind := by have := h.behind; omega
  header := h.header
  back := by have := h.back; simp only; omega

theorem chars_append (s r : List Byte) : chars (s ++ r) = chars s ++ chars r := List.map_append

theorem chars_take (s : List Byte) (n : Nat) : chars (s.take n) = (chars s).take n := List.map_take

section Moved

variable {shift : Nat}

theorem moved_bytes (current : Token) (hptr : t.ptr+shift ≤ buffer.length)
    (hshift : shift ≤ current.ptr) (hend : current.ptr ≤ buffer.length) :
    chars (Token.bytes ⟨current.ptr-shift,current.len+shift⟩
        (overwrite buffer (current.ptr-shift) (slice buffer t.ptr shift))) =
      chars (slice buffer t.ptr shift) ++ chars (current.bytes buffer) := by
  have hpath : (slice buffer t.ptr shift).length = shift := slice_length hptr
  have hfits : current.ptr-shift+(slice buffer t.ptr shift).length ≤ buffer.length := by omega
  have hmoved := slice_overwrite_front (n := current.len) hfits
  rw [hpath,Nat.sub_add_cancel hshift] at hmoved
  simp only [Token.bytes]
  rw [Nat.add_comm current.len,hmoved,chars_append]

theorem Tracks.found (h : Tracks packet buffer data t prev) (current : Token)
    (hdata : data ≤ current.ptr) (hend : current.ptr+current.len ≤ buffer.length) (hshift : shift ≤ t.len) {size : Nat}
    (hsize : data+size ≤ packet.length) (hlast : current.ptr+current.len ≤ data+size) :
    Tracks packet (overwrite buffer (current.ptr-shift) (slice buffer t.ptr shift)) (data+size)
      ⟨current.ptr-shift,current.len+shift⟩
      ⟨chars (slice buffer t.ptr shift) ++ chars (current.bytes buffer),
        shift+size-(current.ptr-data)⟩ := by
  obtain ⟨hlength,hunread,hbound,hbehind,-,hback⟩ := h
  have hpath : (slice buffer t.ptr shift).length = shift := slice_length (by omega)
  have hfits : current.ptr-shift+(slice buffer t.ptr shift).length ≤ buffer.length := by omega
  constructor
  · rw [overwrite_length hfits,hlength]
  · rw [drop_overwrite hfits (by omega),← List.drop_drop,hunread,List.drop_drop]
  · exact hsize
  · simp only
    omega
  · exact (moved_bytes current (by omega) (by omega) (by omega)).symm
  · simp only
    omega

/-- A header that is not found leaves cmd_prev, with the end that it has written over. -/
theorem Tracks.undefined (h : Tracks packet buffer data t prev) (current : Token)
    (hdata : data ≤ current.ptr) (hend : current.ptr ≤ buffer.length) (hshift : shift ≤ t.len) {size : Nat}
    (hsize : data+size ≤ packet.length) (hlast : current.ptr ≤ data+size) :
    let start := prev.back+(current.ptr-data)-shift
    Tracks packet (overwrite buffer (current.ptr-shift) (slice buffer t.ptr shift)) (data+size) t
      ⟨prev.header.take start ++ (prev.header.take shift).take (prev.header.length-start),
        prev.back+size⟩ := by
  have hlen := h.header_length
  obtain ⟨hlength,hunread,hbound,hbehind,hheader,hback⟩ := h
  have hpath : (slice buffer t.ptr shift).length = shift := slice_length (by omega)
  have hfits : current.ptr-shift+(slice buffer t.ptr shift).length ≤ buffer.length := by omega
  constructor
  · rw [overwrite_length hfits,hlength]
  · rw [drop_overwrite hfits (by omega),← List.drop_drop,hunread,List.drop_drop]
  · exact hsize
  · omega
  · have hover := slice_overwrite_end (k := t.ptr) (n := t.len) hfits (by omega) (by omega)
    have hstart : current.ptr-shift-t.ptr = prev.back+(current.ptr-data)-shift := by omega
    have hshort : prev.header.take shift = chars (slice buffer t.ptr shift) := by
      rw [hheader,← chars_take,Token.bytes,take_slice _ _ hshift]
    rw [Token.bytes,hover,hstart,chars_append,chars_take,chars_take,hshort,hlen,hheader]
    rfl
  · simp only
    omega

end Moved

section Units

variable {s : List Byte}

theorem unit_places {m : Message} (hm : m = scpiParserDetectProgramMessageUnit s)
    (hvalid : m.invalid = false) :
    m.headerAt+m.header.length ≤ m.dataAt ∧ m.dataAt ≤ m.size ∧
      m.header = slice s m.headerAt m.header.length ∧
      m.data = slice s m.dataAt m.data.length := by
  subst hm
  unfold scpiParserDetectProgramMessageUnit at hvalid ⊢
  dsimp only at hvalid ⊢
  split at hvalid
  · cases hvalid
  · rename_i hstop
    rw [if_neg hstop]
    refine ⟨?_,?_,(slice_self_length _ _ _).symm,(slice_self_length _ _ _).symm⟩
    · simp only [List.length_take,Parts.dataAt]
      omega
    · simp only [Parts.pos]
      omega

theorem findCommandHeader_isSome (header : List Char) :
    (Scpi.findCommandHeader header).isSome = (findPattern header).isSome := by
  simp [Scpi.findCommandHeader,findPattern]

variable {m : Message} {shift : Nat}

theorem behind_found (hinvalid : ¬m.invalid = true) (hempty : m.header ≠ [])
    (hshift : prev.shift (chars m.header) = shift) {pattern : String}
    (hfind : findPattern (Scpi.composeCompoundCommand prev.header (chars m.header)) = some pattern) :
    prev.behind (unitHeader m) =
      ⟨Scpi.composeCompoundCommand prev.header (chars m.header),shift+m.size-m.headerAt⟩ := by
  have hne : chars m.header ≠ [] := fun h => hempty (List.map_eq_nil_iff.mp h)
  simp only [Scpi.Previous.behind,unitHeader,hinvalid,hne,or_self,if_false,
    findCommandHeader_isSome,hfind,hshift,Option.isSome_some,Bool.false_eq_true,if_true]

theorem behind_undefined (hinvalid : ¬m.invalid = true) (hempty : m.header ≠ [])
    (hshift : prev.shift (chars m.header) = shift)
    (hfind : findPattern (Scpi.composeCompoundCommand prev.header (chars m.header)) = none) :
    prev.behind (unitHeader m) =
      ⟨prev.header.take (prev.back+m.headerAt-shift) ++
          (prev.header.take shift).take (prev.header.length-(prev.back+m.headerAt-shift)),
        prev.back+m.size⟩ := by
  have hne : chars m.header ≠ [] := fun h => hempty (List.map_eq_nil_iff.mp h)
  simp only [Scpi.Previous.behind,unitHeader,hinvalid,hne,or_self,if_false,
    findCommandHeader_isSome,hfind,hshift,Option.isSome_none,Bool.false_eq_true]

end Units

section Handle

variable {st : State σ} {m : Message}

/-- A unit is handled in the packet as its texts are, and leaves the rest as it came. -/
structure InStep (packet : List Byte) (prev : Scpi.Previous) (m : Message) (st next : State σ) :
    Prop where
  handled : handle callback m st = some next
  result : ∀ ms, (turns callback prev (m :: ms) st.device).foldl Turn.step st.result =
    (turns callback (prev.behind (unitHeader m)) ms next.device).foldl Turn.step next.result
  tracks : st.data+m.size ≤ packet.length →
    Tracks packet next.buffer (st.data+m.size) next.prev (prev.behind (unitHeader m))

theorem handle_invalid (h : Tracks packet st.buffer st.data st.prev prev)
    (hinvalid : m.invalid = true) :
    InStep callback packet prev m st { st with result := Turn.step st.result .invalid } := by
  have hprev : prev.behind (unitHeader m) = { prev with back := prev.back+m.size } :=
    if_pos (.inl hinvalid)
  refine ⟨by rw [handle,if_pos hinvalid],fun ms => ?_,fun hsize => hprev ▸ h.next hsize⟩
  rw [turns,if_pos hinvalid,List.foldl_cons]

theorem handle_empty (h : Tracks packet st.buffer st.data st.prev prev)
    (hinvalid : ¬m.invalid = true) (hempty : m.header = []) :
    InStep callback packet prev m st st := by
  have hprev : prev.behind (unitHeader m) = { prev with back := prev.back+m.size } :=
    if_pos (.inr (by rw [unitHeader,hempty]; rfl))
  refine ⟨by rw [handle,if_neg hinvalid,if_pos hempty],fun ms => ?_,fun hsize => hprev ▸ h.next hsize⟩
  rw [turns,if_neg hinvalid,if_pos hempty,List.foldl_cons]
  rfl

/-- A unit with a header: it is where the lexer has found it, and `shift` bytes of cmd_prev are
the path of the header. -/
structure Composed (packet : List Byte) (prev : Scpi.Previous) (m : Message) (st : State σ)
    (shift : Nat) : Prop where
  tracks : Tracks packet st.buffer st.data st.prev prev
  valid : ¬m.invalid = true
  named : m.header ≠ []
  before_data : m.headerAt+m.header.length ≤ m.dataAt
  before_end : m.dataAt ≤ m.size
  inside : st.data+m.headerAt+m.header.length ≤ st.buffer.length
  header : m.header = slice st.buffer (st.data+m.headerAt) m.header.length
  data : m.data = slice st.buffer (st.data+m.dataAt) m.data.length
  shift_eq : prev.shift (chars m.header) = shift
  shift_le : shift ≤ st.prev.len
  bytes : composeCompoundCommand st.buffer st.prev ⟨st.data+m.headerAt,m.header.length⟩ =
    some (overwrite st.buffer (st.data+m.headerAt-shift) (slice st.buffer st.prev.ptr shift),
      ⟨st.data+m.headerAt-shift,m.header.length+shift⟩)
  text : Scpi.composeCompoundCommand prev.header (chars m.header) =
    chars (slice st.buffer st.prev.ptr shift) ++ chars m.header

theorem composed (h : Tracks packet st.buffer st.data st.prev prev)
    (hm : m = scpiParserDetectProgramMessageUnit (st.buffer.drop st.data))
    (hinvalid : ¬m.invalid = true) (hempty : m.header ≠ []) :
    Composed packet prev m st (prev.shift (chars m.header)) := by
  obtain ⟨hdataAt,hsizeAt,hheader,hdata⟩ := unit_places hm (Bool.not_eq_true _ ▸ hinvalid)
  rw [slice_drop] at hheader hdata
  have hpos : 0 < m.header.length := List.length_pos_iff.mpr hempty
  have hend : st.data+m.headerAt+m.header.length ≤ st.buffer.length :=
    slice_inside (congrArg List.length hheader).symm hpos
  let current : Token := ⟨st.data+m.headerAt,m.header.length⟩
  have hplace : st.data ≤ current.ptr := Nat.le_add_right _ _
  obtain ⟨hshift,hbytes,htext⟩ := compose_in_place h hplace hpos hend (congrArg chars hheader)
  exact ⟨h,hinvalid,hempty,hdataAt,hsizeAt,hend,hheader,hdata,rfl,hshift,hbytes,htext⟩

section Lookup

variable {shift : Nat} (hc : Composed packet prev m st shift)
include hc

theorem Composed.lookup : chars (Token.bytes ⟨st.data+m.headerAt-shift,m.header.length+shift⟩
      (overwrite st.buffer (st.data+m.headerAt-shift) (slice st.buffer st.prev.ptr shift))) =
    Scpi.composeCompoundCommand prev.header (chars m.header) := by
  obtain ⟨h,-,-,-,-,hend,hheader,-,-,hshift,-,htext⟩ := hc
  have hbound := h.bound
  have hbehind := h.behind
  have hlength := h.length
  rw [htext,congrArg chars hheader]
  exact moved_bytes ⟨st.data+m.headerAt,m.header.length⟩ (by omega) (by simp only; omega)
    (by simp only; omega)

theorem Composed.data_kept : slice (overwrite st.buffer (st.data+m.headerAt-shift)
    (slice st.buffer st.prev.ptr shift)) (st.data+m.dataAt) m.data.length = m.data := by
  obtain ⟨h,-,-,hdataAt,-,hend,-,hdata,-,hshift,-,-⟩ := hc
  have hbound := h.bound
  have hbehind := h.behind
  have hlength := h.length
  have hpath : (slice st.buffer st.prev.ptr shift).length = shift := slice_length (by omega)
  rw [slice_overwrite_behind (by omega) (by omega),← hdata]

theorem handle_undefined
    (hfind : findPattern (Scpi.composeCompoundCommand prev.header (chars m.header)) = none) :
    ∃ next, InStep callback packet prev m st next := by
  have hlookup := hc.lookup
  obtain ⟨h,hinvalid,hempty,hdataAt,hsizeAt,hend,-,-,hs,hshift,hbytes,-⟩ := hc
  refine ⟨{ st with
    buffer := overwrite st.buffer (st.data+m.headerAt-shift) (slice st.buffer st.prev.ptr shift)
    result := Turn.step st.result .undefined },?_,fun ms => ?_,fun hsize => ?_⟩
  · rw [handle,if_neg hinvalid,if_neg hempty,hbytes]
    simp only [hlookup,hfind]
  · rw [turns,if_neg hinvalid,if_neg hempty]
    simp only [hfind,List.foldl_cons]
  · have hnext := h.undefined ⟨st.data+m.headerAt,m.header.length⟩ (Nat.le_add_right _ _)
      (by simp only; omega) hshift hsize (by simp only; omega)
    simp only [Nat.add_sub_cancel_left] at hnext
    rw [behind_undefined hinvalid hempty hs hfind]
    exact hnext

theorem handle_found {pattern : String}
    (hfind : findPattern (Scpi.composeCompoundCommand prev.header (chars m.header)) =
      some pattern) :
    ∃ next, InStep callback packet prev m st next := by
  have hlookup := hc.lookup
  have hkept := hc.data_kept
  obtain ⟨h,hinvalid,hempty,hdataAt,hsizeAt,hend,hheader,-,hs,hshift,hbytes,htext⟩ := hc
  obtain ⟨o,device,hcall⟩ : ∃ o device, callback pattern m st.device = (o,device) := ⟨_,_,rfl⟩
  refine ⟨⟨overwrite st.buffer (st.data+m.headerAt-shift) (slice st.buffer st.prev.ptr shift),
    st.data,⟨st.data+m.headerAt-shift,m.header.length+shift⟩,Turn.step st.result (.command o),
    device⟩,?_,fun ms => ?_,fun hsize => ?_⟩
  · rw [handle,if_neg hinvalid,if_neg hempty,hbytes]
    simp only [hlookup,hfind,hkept,hcall]
  · rw [turns,if_neg hinvalid,if_neg hempty]
    simp only [hfind,List.foldl_cons,hcall]
  · have hnext := h.found ⟨st.data+m.headerAt,m.header.length⟩ (Nat.le_add_right _ _) hend hshift
      hsize (by simp only; omega)
    simp only [Nat.add_sub_cancel_left] at hnext
    rw [behind_found hinvalid hempty hs hfind,htext,congrArg chars hheader]
    exact hnext

end Lookup

theorem handle_in_place (h : Tracks packet st.buffer st.data st.prev prev)
    (hm : m = scpiParserDetectProgramMessageUnit (st.buffer.drop st.data)) :
    ∃ next, InStep callback packet prev m st next := by
  by_cases hinvalid : m.invalid = true
  · exact ⟨_,handle_invalid callback h hinvalid⟩
  by_cases hempty : m.header = []
  · exact ⟨_,handle_empty callback h hinvalid hempty⟩
  have hc := composed h hm hinvalid hempty
  cases hfind : findPattern (Scpi.composeCompoundCommand prev.header (chars m.header)) with
  | none => exact handle_undefined callback hc hfind
  | some pattern => exact handle_found callback hc hfind

end Handle

theorem parseUnits_in_place {fuel : Nat} (st : State σ)
    (h : Tracks packet st.buffer st.data st.prev prev) (hmore : st.data < packet.length)
    (hfuel : packet.length-st.data ≤ fuel) :
    ∃ last, parseUnits callback fuel st = some last ∧ last.result =
      (turns callback prev (units (packet.drop st.data)) st.device).foldl Turn.step st.result := by
  induction fuel generalizing st prev with
  | zero => omega
  | succ fuel ih =>
    have hne : packet.drop st.data ≠ [] := by
      rw [Ne,List.drop_eq_nil_iff]
      omega
    generalize hm : scpiParserDetectProgramMessageUnit (st.buffer.drop st.data) = m
    have hpos : 0 < m.size := by
      rw [← hm,h.unread]
      exact size_pos hne
    obtain ⟨next,hnext,hturns,htracks⟩ := handle_in_place callback h hm.symm
    rw [units_of_ne hne,← h.unread,hm,h.unread,hturns,parseUnits,hm,hnext,List.drop_drop]
    simp only [List.length_drop,h.length]
    split
    · rename_i hsize
      exact ih _ (htracks (by omega)) (by simp only; omega) (by simp only; omega)
    · rename_i hsize
      have hrest : packet.drop (st.data+m.size) = [] := List.drop_eq_nil_iff.mpr (by omega)
      rw [hrest]
      exact ⟨next,rfl,rfl⟩

theorem scpiParse_in_place (packet : List Byte) (device : σ) (c : Context) :
    scpiParse callback packet device c =
      some (Status.scpiParse (turns callback .none (units packet) device) c) := by
  by_cases hempty : packet = []
  · subst hempty
    have hunit : (scpiParserDetectProgramMessageUnit []).invalid = false ∧
        (scpiParserDetectProgramMessageUnit []).header = [] := by decide
    rw [scpiParse,parseUnits,List.drop_nil,handle,if_neg (by simp [hunit]),if_pos hunit.2]
    rfl
  · have htracks : Tracks packet packet 0 ⟨0,0⟩ .none :=
      ⟨rfl,rfl,Nat.zero_le _,le_rfl,rfl,rfl⟩
    have hpos := List.length_pos_iff.mpr hempty
    obtain ⟨last,hlast,hresult⟩ := parseUnits_in_place callback
      ⟨packet,0,⟨0,0⟩,(true,{ c with out := { c.out with count := 0 } }),device⟩ htracks hpos
      (show packet.length-0 ≤ packet.length+1 by omega)
    rw [scpiParse,hlast,Option.map_some,hresult]
    rfl

end Refinement

section Texts

/-- The units of a packet for a parser that keeps the last header it has found as a text of
its own. -/
def textTurns : List Char → List Message → σ → List Turn
  | _, [], _ => []
  | prev, m :: ms, s =>
    if m.invalid then .invalid :: textTurns prev ms s
    else if m.header = [] then .empty :: textTurns prev ms s
    else
      let header := Scpi.composeCompoundCommand prev (chars m.header)
      match findPattern header with
      | none => .undefined :: textTurns prev ms s
      | some pattern =>
        let (o,s) := callback pattern m s
        .command o :: textTurns header ms s

/-- Every header that is completed with a path is found. -/
def pathsFound : List Char → List Message → Bool
  | _, [] => true
  | prev, m :: ms =>
    if m.invalid ∨ m.header = [] then pathsFound prev ms
    else
      let header := Scpi.composeCompoundCommand prev (chars m.header)
      match findPattern header with
      | none => header = chars m.header && pathsFound prev ms
      | some _ => pathsFound header ms

theorem behind_length_le {prev : Scpi.Previous} (hprev : prev.header.length ≤ prev.back)
    {m : Message} (hm : m.invalid = false → m.headerAt+m.header.length ≤ m.size) :
    (prev.behind (unitHeader m)).header.length ≤ (prev.behind (unitHeader m)).back := by
  by_cases hinvalid : m.invalid = true
  · rw [show prev.behind (unitHeader m) = _ from if_pos (.inl hinvalid)]
    exact hprev.trans (Nat.le_add_right _ _)
  have hplace := hm (Bool.not_eq_true _ ▸ hinvalid)
  by_cases hempty : m.header = []
  · rw [show prev.behind (unitHeader m) = _ from if_pos (.inr (by rw [unitHeader,hempty]; rfl))]
    exact hprev.trans (Nat.le_add_right _ _)
  cases hfind : findPattern (Scpi.composeCompoundCommand prev.header (chars m.header)) with
  | none =>
    rw [behind_undefined hinvalid hempty rfl hfind]
    simp only [List.length_append,List.length_take]
    omega
  | some pattern =>
    rw [behind_found hinvalid hempty rfl hfind]
    have hshift : (Scpi.composeCompoundCommand prev.header (chars m.header)).length ≤
        prev.shift (chars m.header) + m.header.length := by
      rw [Scpi.Previous.shift,chars_length]
      omega
    simp only
    omega

theorem turns_texts {ms : List Message}
    (hms : ∀ m ∈ ms, m.invalid = false → m.headerAt+m.header.length ≤ m.size)
    {prev : Scpi.Previous} (hprev : prev.header.length ≤ prev.back)
    (h : pathsFound prev.header ms = true) (s : σ) :
    turns callback prev ms s = textTurns callback prev.header ms s := by
  induction ms generalizing prev s with
  | nil => rfl
  | cons m ms ih =>
    have hnext := ih (fun m' hm' => hms m' (List.mem_cons_of_mem _ hm'))
      (behind_length_le hprev (hms m List.mem_cons_self))
    rw [pathsFound] at h
    rw [turns,textTurns]
    by_cases hinvalid : m.invalid = true
    · rw [if_pos (.inl hinvalid)] at h
      have hheader : (prev.behind (unitHeader m)).header = prev.header :=
        Scpi.behind_skipped (.inl hinvalid)
      rw [hheader] at hnext
      rw [if_pos hinvalid,if_pos hinvalid,hnext h]
    by_cases hempty : m.header = []
    · rw [if_pos (.inr hempty)] at h
      have hheader : (prev.behind (unitHeader m)).header = prev.header :=
        Scpi.behind_skipped (.inr (by rw [unitHeader,hempty]; rfl))
      rw [hheader] at hnext
      rw [if_neg hinvalid,if_neg hinvalid,if_pos hempty,if_pos hempty,hnext h]
    rw [if_neg (not_or.mpr ⟨hinvalid,hempty⟩)] at h
    rw [if_neg hinvalid,if_neg hinvalid,if_neg hempty,if_neg hempty]
    cases hfind : findPattern (Scpi.composeCompoundCommand prev.header (chars m.header)) with
    | none =>
      simp only [hfind,Bool.and_eq_true,decide_eq_true_eq] at h
      -- nothing is moved, so cmd_prev is not overwritten
      have hheader : (prev.behind (unitHeader m)).header = prev.header := by
        rw [behind_undefined hinvalid hempty (Scpi.shift_zero h.1) hfind]
        simp only [List.take_zero,List.take_nil,List.append_nil,Nat.sub_zero]
        exact List.take_of_length_le (hprev.trans (Nat.le_add_right _ _))
      rw [hheader] at hnext
      simp only [hfind,hnext h.2]
    | some pattern =>
      simp only [hfind] at h
      rw [behind_found hinvalid hempty rfl hfind] at hnext
      simp only [hfind,behind_found hinvalid hempty rfl hfind,hnext h]

theorem units_header_place {s : List Byte} :
    ∀ m ∈ units s, m.invalid = false → m.headerAt+m.header.length ≤ m.size := by
  refine forall_units
    (P := fun m => m.invalid = false → m.headerAt+m.header.length ≤ m.size) fun s _ hvalid => ?_
  obtain ⟨hheader,hdata,-,-⟩ := unit_places rfl hvalid
  exact hheader.trans hdata

/-- Moving paths about inside of the packet never touches anything outside of it; and if no
header that is completed with a path turns out to be undefined, it does not change what is
read from the packet either. -/
theorem in_place_parse_agrees (packet : List Byte) (device : σ) (c : Context) :
    (scpiParse callback packet device c).isSome = true ∧
      (pathsFound [] (units packet) = true →
        scpiParse callback packet device c =
          some (Status.scpiParse (textTurns callback [] (units packet) device) c)) := by
  rw [scpiParse_in_place]
  refine ⟨rfl,fun h => ?_⟩
  have hstart : Scpi.Previous.none.header.length ≤ Scpi.Previous.none.back := le_rfl
  rw [turns_texts callback units_header_place hstart h device]
  rfl

end Texts

def silent (_ : String) (_ : Message) (s : Unit) : Outcome × Unit := (⟨[],true,false,by simp⟩,s)

theorem in_place_parse_agrees_ramp :
    scpiParse silent (text "RAMP:STEP:UP 1;DOWN 1;:X") () (scpiInit (Vector.replicate _ 0)) =
      some (Status.scpiParse (textTurns silent [] (units (text "RAMP:STEP:UP 1;DOWN 1;:X")) ())
        (scpiInit (Vector.replicate _ 0))) :=
  (in_place_parse_agrees silent (text "RAMP:STEP:UP 1;DOWN 1;:X") ()
    (scpiInit (Vector.replicate _ 0))).2 (by decide +kernel)

-- the path of X is written over the end of RAMP:STEP:UP, and DOWN is not found either
example : ((scpiParse silent (text "RAMP:STEP:UP 1;X;DOWN 1") ()
        (scpiInit (Vector.replicate _ 0))).map fun p => p.2.errorQueue.contents) =
      some [undefinedHeader,undefinedHeader] ∧
    (Status.scpiParse (textTurns silent [] (units (text "RAMP:STEP:UP 1;X;DOWN 1")) ())
      (scpiInit (Vector.replicate _ 0))).2.errorQueue.contents = [undefinedHeader] := by
  decide +kernel

end Stm32Dds.InPlace
