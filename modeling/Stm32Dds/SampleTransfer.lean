import Stm32Dds.BlockUploads
import Stm32Dds.ChoiceQueries
import Stm32Dds.ParallelPlayback
import Stm32Dds.ScpiParameters

set_option autoImplicit false

namespace Stm32Dds.Transfer
open Bytes Replies Numerals Lexer Results Parameters
open Stm32Dds.Scpi (Parallel Device Layout Conversions SetCommand Reachable parallelBufSize)
open Stm32Dds.Stream (Conn Pbuf Upload nothing_blank upload_command scpiProcess scpiProcess_units)

def samples (p : Parallel) : List Byte := (List.range p.length.toNat).map p.buffer

def scpiCallbackParallelDataQ (dev : Device) : Output → Output :=
  Output.resultArbitraryBlock (samples dev.parallel)

section Format

theorem digitValue_isdigit {b : Byte} (h : isdigit b = true) :
    digitValue b = some (b.toNat-0x30) := by
  simp only [isdigit,between,Bool.and_eq_true,decide_eq_true_eq] at h
  exact if_pos h

theorem decimal_eq_value {ds : List Byte} (h : ∀ b ∈ ds, isdigit b = true) :
    decimal ds = value 10 ds := by
  have hfrom : ∀ n, ds.foldl (fun n b => 10*n + (b.toNat-0x30)) n =
      ds.foldl (fun n b => n*10 + (digitValue b).getD 0) n := by
    induction ds with
    | nil => exact fun _ => rfl
    | cons b ds ih =>
      intro n
      rw [List.foldl_cons,List.foldl_cons,digitValue_isdigit (h b (by simp)),Option.getD_some,
        Nat.mul_comm]
      exact ih (fun c hc => h c (by simp [hc])) _
  exact hfrom 0

theorem isNonzeroDigit_count : ∀ n : Fin 10, n ≠ 0 →
    isNonzeroDigit (BitVec.ofNat 8 (n.val+48)) = true ∧
      (BitVec.ofNat 8 (n.val+48)).toNat-0x30 = n.val := by decide

theorem written_header {n : Nat} (h : n < 10^9) :
    ∃ b : BlockHeader, b.size = n ∧ b.text =
      let digits := uint32ToStrBaseSign (BitVec.ofNat 32 n) 10 .dec false
      ascii "#" ++ BitVec.ofNat 8 (digits.length+48) :: digits := by
  have hshort := uint32ToStr_shortest (BitVec.ofNat 32 n) .dec (le_refl 10)
  generalize uint32ToStrBaseSign (BitVec.ofNat 32 n) 10 .dec false = ds at hshort ⊢
  have hval : (BitVec.ofNat 32 n).toNat = n := Nat.mod_eq_of_lt (by omega)
  rw [hval] at hshort
  have hrow : Row 10 ds [] := hshort.row (by decide) (by decide) (by simp)
  have hlen : ds.length < 10 := Nat.lt_succ_of_le (Shortest.length_le (by decide) hshort h)
  have hdigits : ∀ b ∈ ds, isdigit b = true :=
    fun b hb => (isDigit_ten b).symm.trans (hrow.digits b hb)
  obtain ⟨hcount,hback⟩ := isNonzeroDigit_count ⟨ds.length,hlen⟩
    (fun h0 => hrow.nonempty (List.length_eq_zero_iff.mp (congrArg Fin.val h0)))
  refine ⟨⟨_,ds,hcount,hback.symm,hdigits⟩,?_,rfl⟩
  rw [BlockHeader.size,decimal_eq_value hdigits]
  exact hshort.value (by decide) (by decide)

end Format

section Upload

/-- PAR:DAT up to the first byte of a block. -/
def opening (b : BlockHeader) : Opening := { Stream.upload with block := b }

theorem nothing_size : Stream.sizes (units []) = ([] : List Byte).length := rfl

theorem nothing_reads (b : BlockHeader) (w : List Byte) :
    units ([] ++ ([] ++ ((opening b).text ++ w))) =
      units [] ++ units ([] ++ ((opening b).text ++ w)) := by
  rw [units_nil,List.nil_append,List.nil_append,List.nil_append]

structure Shipment where
  block : BlockHeader
  kept : Nat
  rest : List Byte
  later : List Nat
  after : List Byte
  fits : block.size ≤ parallelBufSize
  kept_le : kept ≤ block.size
  ends : kept < block.size → rest = []
  line : rest ++ after = [newLine]
  later_bytes : later.sum = block.size - kept + after.length

namespace Shipment
variable (s : Shipment)

theorem rest_cases : s.rest = [] ∨ s.rest = [newLine] :=
  (List.append_eq_singleton_iff.mp s.line).imp And.left And.left

theorem stop : terminator s.rest ≠ 0 ∨ s.rest = [] := by
  rcases s.rest_cases with h | h
  · exact .inr h
  · rw [h]
    decide

def upload : Upload where
  opening := opening s.block
  front := []
  blanks := []
  kept := s.kept
  trailing := []
  rest := s.rest
  later := s.later
  after := s.after
  fits := s.fits
  kept_le := s.kept_le
  blanks_blank := nothing_blank
  trailing_blank := nothing_blank
  ends := s.ends
  stop := s.stop
  later_bytes := s.later_bytes
  front_reads := nothing_reads s.block
  front_size := nothing_size
  command := upload_command

theorem packet_ne (data : List Byte) : s.upload.packet data ≠ [] := by
  simp [Upload.packet,upload,Opening.text,(opening s.block).header_ne]

variable {data : List Byte} (hdata : data.length = s.block.size)
include hdata

theorem upTo_packet : s.upload.upTo data = units (s.upload.packet data) := by
  have htext := s.packet_ne data
  have hunit : scpiParserDetectProgramMessageUnit (s.upload.packet data) =
      (s.upload.placed hdata).unit := (s.upload.placed hdata).detect_text
  have hsize : (s.upload.packet data).length ≤ (s.upload.placed hdata).unit.size := by
    have hrest : s.rest.length ≤ terminator s.rest := by
      rcases s.rest_cases with h | h <;> rw [h] <;> decide
    have hkept := s.kept_le
    simp only [Upload.packet,upload,Placed.unit,Upload.placed,List.length_append,List.length_nil,
      List.length_take]
    change _ ≤ 0 + ((opening s.block).text.length + s.block.size + 0 + terminator s.rest)
    omega
  rw [s.upload.upTo_eq hdata,units_of_ne htext,hunit,List.drop_eq_nil_of_le hsize,units_nil]
  rfl

theorem window : ((s.upload.stream data).drop s.upload.offset).take s.upload.size = data := by
  have hshift : s.upload.shift = 0 := rfl
  have hmoved : s.upload.moved = [] := rfl
  rw [Upload.stream,Upload.offset,hshift,hmoved,List.nil_append]
  change (((opening s.block).text ++ _).drop (opening s.block).text.length).take s.block.size = data
  rw [List.drop_left,← hdata,List.take_left]

theorem stored {c : Conn} {pin : List Pbuf} (hpin : c.pin = s.upload.packet data :: pin)
    (hfollowing : pin ++ c.arrivals.flatten = s.upload.following data) :
    ∃ d, scpiProcess c = .ok d ∧ d.parallel.length.toNat = s.block.size ∧
      (List.range s.block.size).map d.parallel.buffer = data := by
  obtain ⟨p,hp,hlength,hbuffer⟩ := s.upload.handleAll_upTo hdata hpin hfollowing
  rw [s.upTo_packet hdata] at hp
  rw [s.window hdata] at hbuffer
  refine ⟨p.conn,?_,hlength,hbuffer⟩
  rw [scpiProcess_units hpin (s.packet_ne data),hp]
  rfl

end Shipment

theorem splitLengths_flatten (ps : List Pbuf) : (ps.map List.length).splitLengths ps.flatten = ps := by
  induction ps with
  | nil => rfl
  | cons p ps ih =>
    rw [List.map_cons,List.flatten_cons,List.splitLengths_cons,List.take_left,List.drop_left,ih]

/-- However the line is cut behind the header of the block, the block is stored. -/
theorem line_stored {b : BlockHeader} (hfits : b.size ≤ parallelBufSize) {data : List Byte}
    (hdata : data.length = b.size) {first : Pbuf} {later : List Pbuf}
    (hline : first ++ later.flatten = (opening b).text ++ (data ++ [newLine]))
    (hhead : (opening b).text.length ≤ first.length) {c : Conn} {pin : List Pbuf}
    (hpin : c.pin = first :: pin) (hlater : pin ++ c.arrivals.flatten = later) :
    ∃ d, scpiProcess c = .ok d ∧ d.parallel.length.toNat = b.size ∧
      (List.range b.size).map d.parallel.buffer = data := by
  have hsum : (later.map List.length).sum = later.flatten.length := List.length_flatten.symm
  obtain ⟨x,rfl⟩ : (opening b).text <+: first :=
    List.prefix_of_prefix_length_le ⟨_,hline.symm⟩ ⟨_,rfl⟩ hhead
  have hx : data ++ [newLine] = x ++ later.flatten := by
    rw [List.append_assoc] at hline
    exact (List.append_cancel_left hline).symm
  rcases List.append_eq_append_iff.mp hx with ⟨y,rfl,hy⟩ | ⟨y,rfl,hy⟩
  · -- the whole block is in the first pbuf
    let s : Shipment := ⟨b,b.size,y,later.map List.length,later.flatten,hfits,le_rfl,
      fun h => absurd h (lt_irrefl _),hy.symm,by rw [hsum]; omega⟩
    have hpacket : c.pin = s.upload.packet data :: pin := by
      rw [hpin]
      simp [Upload.packet,s,Shipment.upload,← hdata]
    refine s.stored hdata hpacket ?_
    rw [hlater]
    simp only [Upload.following,s,Shipment.upload]
    rw [List.drop_eq_nil_of_le (by omega),List.nil_append,splitLengths_flatten]
  · let s : Shipment := ⟨b,x.length,[],later.map List.length,[newLine],hfits,
      by rw [← hdata,List.length_append]; omega,fun _ => rfl,rfl,by
        rw [hsum,hy,← hdata,List.length_append,List.length_append]
        omega⟩
    have hpacket : c.pin = s.upload.packet (x ++ y) :: pin := by
      rw [hpin]
      simp [Upload.packet,s,Shipment.upload]
    refine s.stored hdata hpacket ?_
    rw [hlater]
    simp only [Upload.following,s,Shipment.upload]
    rw [List.drop_left,← hy,splitLengths_flatten]

end Upload

section Runs

variable {lay : Layout} {k : Conversions}

def Fits (dev : Device) : Prop := dev.parallel.length.toNat ≤ parallelBufSize

theorem Fits.step {dev : Device} (h : Fits dev) (c : SetCommand) : Fits (c.step lay k dev) := by
  cases c with
  | callback cb =>
    rw [Fits,SetCommand.step,Scpi.run_parallel]
    exact h
  | parallelData data =>
    simp only [SetCommand.step,Scpi.scpiCallbackParallelData]
    split
    · exact h
    · rename_i hlen
      rw [Fits,BitVec.toNat_ofNat]
      exact (Nat.mod_le _ _).trans (by omega)
  | parallelNcycles value =>
    cases value <;> exact h
  | sequenceNcycles value =>
    simp only [SetCommand.step,Scpi.scpiCallbackSequenceNcycles]
    split <;> exact h
  | mode value =>
    simp only [SetCommand.step,Scpi.scpiCallbackMode]
    split <;> exact h

theorem fits_of_reachable {dev : Device} (h : Reachable lay k dev) : Fits dev := by
  induction h with
  | init mem chip pins => exact Nat.zero_le _
  | set h c ih => exact ih.step c
  | clear h ih => exact ih
  | play h q hq hdds ih => exact ih

/-- A client sends the answer to PARallel:DATa? on as the parameter of PARallel:DATa. -/
def commandLine (dev : Device) : List Byte :=
  text "PAR:DAT " ++ (Status.written (scpiCallbackParallelDataQ dev ⟨0,[]⟩) ++ [newLine])

theorem commandLine_eq {dev : Device} (h : Fits dev) :
    ∃ b : BlockHeader, b.size = dev.parallel.length.toNat ∧
      commandLine dev = (opening b).text ++ (samples dev.parallel ++ [newLine]) := by
  have hlen : (samples dev.parallel).length = dev.parallel.length.toNat := by simp [samples]
  have hsize : dev.parallel.length.toNat < 10^9 := lt_of_le_of_lt h (by decide)
  obtain ⟨b,hb,htext⟩ := written_header hsize
  refine ⟨b,hb,?_⟩
  have hopening : (opening b).text = text "PAR:DAT " ++ b.text := rfl
  have hnone : Status.written ⟨0,[]⟩ = [] := rfl
  rw [hopening,commandLine,scpiCallbackParallelDataQ,Output.resultArbitraryBlock]
  simp only [Status.written_writeData,Status.written_counted,hnone,List.nil_append,hlen,← htext,
    List.append_assoc]

/-- Samples are moved from one device to another by sending the answer to PARallel:DATa? as
the parameter of PARallel:DATa: the other device then has the same samples, whatever it had
before and however the line is spread over pbufs, if the first one reaches up to the samples. -/
theorem samples_transferred {dev : Device} (h : Reachable lay k dev) (first : Pbuf)
    (later : List Pbuf) (hline : first ++ later.flatten = commandLine dev)
    (hhead : (commandLine dev).length ≤ first.length + (dev.parallel.length.toNat+1))
    (c : Conn) (pin : List Pbuf) (hpin : c.pin = first :: pin)
    (hlater : pin ++ c.arrivals.flatten = later) :
    ∃ d, scpiProcess c = .ok d ∧ d.parallel.length = dev.parallel.length ∧
      ∀ i, 2*i+1 < dev.parallel.length.toNat → d.parallel.sample i = dev.parallel.sample i := by
  have hfits := fits_of_reachable h
  obtain ⟨b,hsize,htext⟩ := commandLine_eq hfits
  have hlen : (samples dev.parallel).length = b.size := by simp [samples,hsize]
  have hopening : (opening b).text.length ≤ first.length := by
    rw [htext,List.length_append,List.length_append,hlen,hsize,List.length_singleton] at hhead
    omega
  obtain ⟨d,hd,hlength,hbuffer⟩ := line_stored (by rw [hsize]; exact hfits) hlen
    (hline.trans htext) hopening hpin hlater
  refine ⟨d,hd,BitVec.eq_of_toNat_eq (hlength.trans hsize),fun i hi => ?_⟩
  have hbyte : ∀ j < dev.parallel.length.toNat, d.parallel.buffer j = dev.parallel.buffer j := by
    rw [hsize,samples] at hbuffer
    intro j hj
    exact List.map_inj_left.mp hbuffer j (List.mem_range.mpr hj)
  rw [Parallel.sample,Parallel.sample,hbyte (2*i) (by omega),hbyte (2*i+1) hi]

theorem two_samples_transferred :
    let first := text "PAR:DAT #14" ++ [1,2]
    ∃ d, scpiProcess { Conn.accepted [[[3]],[[4,newLine]]] with pin := [first] } = .ok d ∧
      d.parallel.sample 1 = 0x0403 := by
  intro first
  have hreach : Reachable Layout.plain Conversions.plain _ :=
    (Reachable.init (fun _ => 0) (Ad9910.Chip.ofRegs Ad9910.Reg.bootValue) fun _ => false).set
      (.parallelData [1,2,3,4])
  obtain ⟨d,hd,-,hsample⟩ := samples_transferred hreach first [[3],[4,newLine]]
    (by decide +kernel) (by decide +kernel)
    { Conn.accepted [[[3]],[[4,newLine]]] with pin := [first] } [] rfl rfl
  exact ⟨d,hd,hsample 1 (by decide)⟩

end Runs

end Stm32Dds.Transfer
