import Mathlib.Data.List.SplitLengths
import Stm32Dds.BlockResume

/-! Which bytes an upload stores. The callback of PARallel:DATa does not use the place of
the block in the packet: it counts from the header, and takes the blanks behind the block
for a part of what is in front of it. -/

set_option autoImplicit false

namespace Stm32Dds.Stream
open Bytes Lexer

/-- A window of the length of a part shows that part, whatever it is, only if it starts
where the part starts. -/
theorem window_iff {α : Type} [Nontrivial α] (front tail : List α) (n start : Nat) :
    (∀ data : List α, data.length = n →
      ((front ++ (data ++ tail)).drop start).take n = data) ↔ n = 0 ∨ start = front.length := by
  constructor
  · intro h
    by_contra hnot
    push Not at hnot
    obtain ⟨hn,hstart⟩ := hnot
    obtain ⟨n,rfl⟩ := Nat.exists_eq_succ_of_ne_zero hn
    have hfirst : ∀ a x, x.length = n → (front ++ (a :: x ++ tail))[start]? = some a := by
      intro a x hx
      have hwindow := congrArg List.head? (h (a :: x) (by simp [hx]))
      simpa [List.head?_take,List.head?_drop] using hwindow
    obtain ⟨a,b,hab⟩ := exists_pair_ne α
    obtain hlt | hgt := Nat.lt_or_gt_of_ne hstart
    · -- in front of the part, the first element is always the same
      have ha := hfirst a (List.replicate n a) (by simp)
      have hb := hfirst b (List.replicate n b) (by simp)
      rw [List.getElem?_append_left hlt] at ha hb
      exact hab (Option.some.inj (ha.symm.trans hb))
    · -- behind the first element, nothing depends on it
      have ha := hfirst a (List.replicate n a) (by simp)
      have hb := hfirst b (List.replicate n a) (by simp)
      obtain ⟨k,rfl⟩ : ∃ k, start = front.length + (k+1) := ⟨start-front.length-1,by omega⟩
      rw [List.getElem?_append_right (Nat.le_add_right _ _),Nat.add_sub_cancel_left] at ha hb
      exact hab (Option.some.inj (ha.symm.trans hb))
  · rintro (rfl | rfl)
    · intro data hdata
      rw [List.take_zero,List.length_eq_zero_iff.mp hdata]
    · intro data hdata
      rw [List.drop_left,← hdata,List.take_left]

theorem mapIdx_front {x : List Byte} (y : List Byte) {g : Nat → Byte → Byte}
    (hg : ∀ j b, x.length ≤ j → g j b = b) : (x ++ y).mapIdx g = x.mapIdx g ++ y := by
  have hsame : (fun j => g (j+x.length)) = fun _ b => b := by
    funext j b
    exact hg _ b (Nat.le_add_left _ _)
  rw [List.mapIdx_append,hsame,mapIdx_same]

theorem stored_memcpy {n : Nat} {x : List Byte} (hx : x.length = n) (c : Conn) :
    (List.range n).map (c.memcpy 0 x).parallel.buffer = x := by
  refine List.ext_getElem (by simp [hx]) fun j hj hj' => ?_
  simp [Conn.memcpy,hj']

/-- How a command with a block is spread over pbufs, without the data of the block. Its
packet starts with `front`, and has `kept` bytes of the block; if these are all, blanks and
a terminator may follow. The pbufs behind it have the lengths `later`, and `after` is what
they have behind the block. -/
structure Upload where
  opening : Opening
  front : List Byte
  blanks : List Byte
  kept : Nat
  trailing : List Byte
  rest : List Byte
  later : List Nat
  after : List Byte
  fits : opening.block.size ≤ Scpi.parallelBufSize
  kept_le : kept ≤ opening.block.size
  blanks_blank : ∀ c ∈ blanks, isws c = true
  trailing_blank : ∀ c ∈ trailing, isws c = true
  ends : kept < opening.block.size → trailing ++ rest = []
  stop : terminator rest ≠ 0 ∨ rest = []
  later_bytes : later.sum = opening.block.size - kept + after.length
  front_reads : ∀ w, units (front ++ (blanks ++ (opening.text ++ w))) =
    units front ++ units (blanks ++ (opening.text ++ w))
  front_size : sizes (units front) = front.length
  command : findPattern (Scpi.composeCompoundCommand
    (previousBehind .none (units front)).header (chars opening.header)) = some parallelData

namespace Upload
variable (u : Upload)

def size : Nat := u.opening.block.size

section
variable (data : List Byte)

def packet : Pbuf :=
  u.front ++ (u.blanks ++ (u.opening.text ++ (data.take u.kept ++ (u.trailing ++ u.rest))))

def following : List Pbuf := u.later.splitLengths (data.drop u.kept ++ u.after)

def upTo : List Message := (units (u.packet data)).take ((units u.front).length+1)

end

/-- How far composeCompoundCommand moves the header to the front. -/
def shift : Nat := (previousBehind .none (units u.front)).shift (chars u.opening.header)

def Stores : Prop := ∀ data : List Byte, data.length = u.size → ∀ (c : Conn) (pin : List Pbuf),
  c.pin = u.packet data :: pin → pin ++ c.arrivals.flatten = u.following data →
    ∃ p, handleAll (u.upTo data) ⟨.none,c.consumed,c⟩ = .ok p ∧
      p.conn.parallel.length.toNat = u.size ∧
      (List.range u.size).map p.conn.parallel.buffer = data

/-- As much is in front of the header in its packet as is counted for it: the blanks behind
the block, and the path that the header is completed with. -/
def Aligned : Prop := u.front.length + u.blanks.length = u.trailing.length + u.shift

def offset : Nat := u.opening.text.length + u.trailing.length + u.shift

def moved : List Byte := (u.front ++ u.blanks).mapIdx fun j b =>
  overwrite ⟨false,chars u.opening.header,u.blanks.length,u.blanks.length +
      (u.opening.text.length + u.opening.block.size + u.trailing.length + terminator u.rest)⟩
    (previousBehind .none (units u.front)) u.front.length j
    (overwrites .none 0 (units u.front) j b)

def movedPacket (data : List Byte) : Pbuf :=
  u.moved ++ (u.opening.text ++ (data.take u.kept ++ (u.trailing ++ u.rest)))

def stream (data : List Byte) : List Byte :=
  (u.moved ++ u.opening.text) ++ (data ++ (u.trailing ++ (u.rest ++ u.after)))

theorem moved_length : u.moved.length = u.front.length+u.blanks.length := by
  simp [moved]

theorem shift_le_front : u.shift ≤ u.front.length :=
  (shift_le _ _).trans (previousBehind_le u.front_size)

section
variable {data : List Byte} (hdata : data.length = u.size)
include hdata

def placed : Placed u.opening where
  blanks := u.blanks
  data := data.take u.kept
  trailing := u.trailing
  rest := u.rest
  blanks_blank := u.blanks_blank
  trailing_blank := u.trailing_blank
  data_le := (List.length_take_le _ _).trans u.kept_le
  ends := by
    intro hlt
    have hsize : data.length = u.opening.block.size := hdata
    rw [List.length_take] at hlt
    exact u.ends (by omega)
  stop := u.stop

theorem upTo_eq : u.upTo data = units u.front ++ [(u.placed hdata).unit] := by
  have htext : (u.placed hdata).text ≠ [] := by
    simp [Placed.text,Opening.text,u.opening.header_ne]
  rw [upTo,packet,u.front_reads,List.take_append,List.take_of_length_le (Nat.le_succ _),
    Nat.add_sub_cancel_left]
  change _ ++ (units (u.placed hdata).text).take 1 = _
  rw [units_of_ne htext,(u.placed hdata).detect_text]
  rfl

theorem stream_eq : u.movedPacket data ++ (u.following data).flatten = u.stream data := by
  have hflat : (u.following data).flatten = data.drop u.kept ++ u.after := by
    have hsize : data.length = u.opening.block.size := hdata
    refine List.flatten_splitLengths _ _ ?_
    rw [u.later_bytes,List.length_append,List.length_drop]
    omega
  rw [movedPacket,stream,hflat]
  obtain hlt | heq := u.kept_le.lt_or_eq
  · obtain ⟨htrailing,hrest⟩ := List.append_eq_nil_iff.mp (u.ends hlt)
    simp only [htrailing,hrest,List.append_nil,List.nil_append,List.append_assoc]
    rw [← List.append_assoc (data.take u.kept),List.take_append_drop]
  · have hall : data.length ≤ u.kept := by rw [hdata,size,heq]
    simp [List.take_of_length_le hall,List.drop_eq_nil_of_le hall]

theorem packet_moved : (u.packet data).mapIdx (fun j b =>
      overwrite (unitHeader (u.placed hdata).unit) (previousBehind .none (units u.front))
        u.front.length j (overwrites .none 0 (units u.front) j b)) =
    u.movedPacket data := by
  rw [packet,← List.append_assoc]
  refine mapIdx_front _ fun j b hj => ?_
  rw [List.length_append] at hj
  rw [overwrites_behind units_header_le b (Nat.zero_le _) (by rw [u.front_size]; omega)]
  exact overwrite_behind b (previousBehind_le u.front_size) hj

theorem handleAll_upTo {c : Conn} {pin : List Pbuf} (hpin : c.pin = u.packet data :: pin)
    (hfollowing : pin ++ c.arrivals.flatten = u.following data) :
    ∃ p, handleAll (u.upTo data) ⟨.none,c.consumed,c⟩ = .ok p ∧
      p.conn.parallel.length.toNat = u.size ∧
      (List.range u.size).map p.conn.parallel.buffer =
        ((u.stream data).drop u.offset).take u.size := by
  obtain ⟨parallel,hlength,hall⟩ := handleAll_block (u.placed hdata) u.fits u.front_size rfl
    u.command (u.front_reads _) hpin
  generalize he : c.after _ _ parallel = e at hall
  have hepin : e.pin = u.movedPacket data :: pin := by
    rw [← he,← u.packet_moved hdata]
    simp only [Conn.after,hpin,List.modifyHead_cons]
  have hequeue : e.queue = u.movedPacket data :: u.following data := by
    have harrivals : e.arrivals = c.arrivals := by
      rw [← he]
      rfl
    rw [Conn.queue,hepin,harrivals,List.cons_append,hfollowing]
  have hshift := u.shift_le_front
  have hoffset : u.offset ≤ (u.movedPacket data).length := by
    simp only [offset,movedPacket,List.length_append,u.moved_length]
    omega
  have hstream : e.queue.flatten = u.stream data := by
    rw [hequeue,List.flatten_cons,u.stream_eq hdata]
  have hlen : u.offset+u.size ≤ (u.stream data).length := by
    simp only [offset,stream,List.length_append,u.moved_length,hdata]
    omega
  obtain ⟨d,_,_,_,hcopied,-,-,hstored⟩ := copyData_copies u.size u.offset hepin hoffset
    (by rw [← length_flatten_queue,hstream]; exact hlen)
  rw [hstream] at hstored
  rw [← u.upTo_eq hdata] at hall
  refine ⟨_,hall.trans (congrArg (Except.map _) hcopied),?_,?_⟩
  · have hfits : u.opening.block.size < 2^32 := u.fits.trans_lt (by decide)
    have hsame : d.parallel.length = parallel.length := by
      rw [hstored,← he]
      rfl
    rw [show u.size = u.opening.block.size from rfl]
    change d.parallel.length.toNat = _
    rw [hsame,hlength,BitVec.toNat_ofNat,Nat.mod_eq_of_lt hfits]
  · change (List.range u.size).map d.parallel.buffer = _
    have hwindow : u.size ≤ ((u.stream data).drop u.offset).length := by
      rw [List.length_drop]
      omega
    rw [hstored]
    exact stored_memcpy (List.length_take_of_le hwindow) e

end

theorem stores_iff_window : u.Stores ↔ ∀ data, data.length = u.size →
    ((u.stream data).drop u.offset).take u.size = data := by
  constructor
  · intro h data hdata
    let c : Conn := { Conn.accepted [] with pin := u.packet data :: u.following data }
    have hrest : u.following data ++ c.arrivals.flatten = u.following data := List.append_nil _
    obtain ⟨p,hp,-,hbytes⟩ := h data hdata c _ rfl hrest
    obtain ⟨q,hq,-,hstored⟩ := u.handleAll_upTo hdata (c := c) rfl hrest
    rw [hp] at hq
    cases hq
    rw [← hstored,hbytes]
  · intro h data hdata c pin hpin hfollowing
    obtain ⟨p,hp,hlen,hstored⟩ := u.handleAll_upTo hdata hpin hfollowing
    exact ⟨p,hp,hlen,hstored.trans (h data hdata)⟩

/-- An upload stores its block for every content of the block exactly where as many bytes
are in front of the header as are counted by mistake. -/
theorem stores_block_iff : u.Stores ↔ u.size = 0 ∨ u.Aligned := by
  have hplace : u.offset = (u.moved ++ u.opening.text).length ↔ u.Aligned := by
    rw [offset,Aligned,List.length_append,u.moved_length]
    omega
  have hbyte : Nontrivial Byte := ⟨0,1,by decide⟩
  rw [u.stores_iff_window,← hplace]
  exact window_iff _ _ _ _

end Upload

/-- PAR:DAT #14 and four bytes, behind two blanks at the start of the packet. -/
def blankUpload : Upload where
  opening := upload
  front := []
  blanks := Lexer.text "  "
  kept := 4
  trailing := []
  rest := [newLine]
  later := []
  after := []
  fits := by decide
  kept_le := by decide
  blanks_blank := by decide
  trailing_blank := nothing_blank
  ends := by decide
  stop := by decide
  later_bytes := by decide
  front_reads := by simp
  front_size := rfl
  command := upload_command

/-- The digits of the length come first, and the last two bytes of the block are lost. -/
theorem digits_stored_for_data :
    (∃ p, handleAll (blankUpload.upTo (Lexer.text "abcd")) ⟨.none,0,{ Conn.accepted [] with
        pin := [blankUpload.packet (Lexer.text "abcd")] }⟩ = .ok p ∧
      (List.range 4).map p.conn.parallel.buffer = Lexer.text "14ab") ∧ ¬ blankUpload.Stores := by
  refine ⟨⟨_,rfl,rfl⟩,?_⟩
  rw [blankUpload.stores_iff_window]
  intro hall
  exact absurd (hall (Lexer.text "abcd") rfl) (by decide)

end Stm32Dds.Stream
