import Stm32Dds.ByteMemory
import Stm32Dds.Runs

/-! Replies on their way to the client. The SCPI library hands them over piece by
piece; each piece goes to tcp_write, which takes it whole or not at all, and what
tcp_write says is dropped. -/

set_option autoImplicit false

namespace Stm32Dds.Replies
open Bytes

inductive Err
  | ok | mem
  deriving DecidableEq, Repr

structure Socket where
  connected : Bool
  sent : List Byte
  deriving DecidableEq

/-- With less room in the send buffer than the length, nothing is queued. -/
def tcpWrite (room : Nat) (data : List Byte) (length : Nat) (s : Socket) : Err × Socket :=
  if length > room then (.mem,s) else (.ok,{ s with sent := s.sent ++ data.take length })

def strlen (data : List Byte) : Nat := (data.takeWhile fun b => b ≠ 0).length

def ethernetCopyQueue (room : Nat) (data : List Byte) (length : BitVec 16) (s : Socket) :
    Err × Socket :=
  if s.connected then
    tcpWrite room data (if length = 0 then strlen data else length.toNat) s
  else (.ok,s)

/-- The length is narrowed to 16 bits, and len is returned in any case. -/
def scpiWrite (room : Nat) (data : List Byte) (len : Nat) (s : Socket) : Nat × Socket :=
  (len,(ethernetCopyQueue room data (BitVec.ofNat 16 len) s).2)

def ascii (text : String) : List Byte := text.toList.map fun c => BitVec.ofNat 8 c.toNat

def errorText (err : BitVec 16) (translation : String) : List Byte :=
  ascii ("**ERROR: " ++ toString err.toInt ++ ", \"" ++ translation ++ "\"")

def scpiError (room : Nat) (err : BitVec 16) (translation : String) (s : Socket) : Nat × Socket :=
  let buf := errorText err translation
  (0,(ethernetCopyQueue room buf (BitVec.ofNat 16 buf.length) s).2)

inductive Piece
  | write (data : List Byte)
  | error (err : BitVec 16) (translation : String)

def Piece.bytes : Piece → List Byte
  | .write data => data
  | .error err translation => errorText err translation

@[simp] theorem bytes_write (data : List Byte) : (Piece.write data).bytes = data := rfl

def Piece.send (room : Nat) (s : Socket) : Piece → Socket
  | .write data => (scpiWrite room data data.length s).2
  | .error err translation => (scpiError room err translation s).2

/-- A call that ends in tcp_write: the length of the piece and the room it finds. -/
structure Attempt where
  len : Nat
  room : Nat
  len_pos : 1 ≤ len
  len_le : len ≤ 61440

def Attempt.accepted (a : Attempt) : Bool := a.len ≤ a.room

def send (s : Socket) (x : Piece × Attempt) : Socket := x.1.send x.2.room s

/-- In this range neither the 16 bits nor the special meaning of 0 show. -/
theorem ethernetCopyQueue_eq (room : Nat) (data : List Byte) (s : Socket) (hs : s.connected = true)
    (hpos : 1 ≤ data.length) (hle : data.length ≤ 61440) :
    (ethernetCopyQueue room data (BitVec.ofNat 16 data.length) s).2 =
      if data.length ≤ room then { s with sent := s.sent ++ data } else s := by
  have hlen : (BitVec.ofNat 16 data.length).toNat = data.length := by
    rw [BitVec.toNat_ofNat]
    omega
  have hne : BitVec.ofNat 16 data.length ≠ 0 := by
    intro hz
    rw [hz] at hlen
    simp at hlen
    omega
  rw [ethernetCopyQueue,if_pos hs,if_neg hne,hlen,tcpWrite,List.take_length]
  by_cases h : data.length ≤ room
  · rw [if_neg (by omega),if_pos h]
  · rw [if_pos (by omega),if_neg h]

theorem send_eq {s : Socket} (hs : s.connected = true) {x : Piece × Attempt}
    (hlen : x.1.bytes.length = x.2.len) :
    send s x = if x.2.accepted then { s with sent := s.sent ++ x.1.bytes } else s := by
  have hpos := x.2.len_pos
  have hle := x.2.len_le
  rw [← hlen] at hpos hle
  have hsend : send s x =
      (ethernetCopyQueue x.2.room x.1.bytes (BitVec.ofNat 16 x.1.bytes.length) s).2 := by
    obtain ⟨p,a⟩ := x
    cases p <;> rfl
  rw [hsend,ethernetCopyQueue_eq x.2.room x.1.bytes s hs hpos hle]
  simp only [Attempt.accepted,hlen,decide_eq_true_eq]

def taken (xs : List (Piece × Attempt)) : List Byte :=
  (xs.filter fun x => x.2.accepted).flatMap fun x => x.1.bytes

theorem run_sent {xs : List (Piece × Attempt)} (hxs : ∀ x ∈ xs, x.1.bytes.length = x.2.len)
    {s : Socket} (hs : s.connected = true) :
    (Runs.run send s xs).sent = s.sent ++ taken xs := by
  induction xs generalizing s with
  | nil => simp [Runs.run,taken]
  | cons x xs ih =>
    have hrest := fun y hy => hxs y (List.mem_cons_of_mem x hy)
    rw [Runs.run,send_eq hs (hxs x (by simp))]
    cases hx : x.2.accepted with
    | false => simpa [taken,hx] using ih hrest hs
    | true =>
      have hnext := ih hrest (s := { s with sent := s.sent ++ x.1.bytes }) hs
      simpa [taken,hx] using hnext

/-- Whatever pieces of these lengths are sent, the client gets the beginning of the
stream they make. -/
def Contiguous (as : List Attempt) : Prop :=
  ∀ ps : List Piece, ps.map (fun p => p.bytes.length) = as.map Attempt.len →
    (Runs.run send ⟨true,[]⟩ (ps.zip as)).sent <+: ps.flatMap Piece.bytes

theorem zip_lengths {ps : List Piece} {as : List Attempt}
    (h : ps.map (fun p => p.bytes.length) = as.map Attempt.len) :
    ∀ x ∈ ps.zip as, x.1.bytes.length = x.2.len := by
  induction ps generalizing as with
  | nil => simp
  | cons p ps ih =>
    cases as with
    | nil => simp
    | cons a as =>
      simp only [List.map_cons,List.cons.injEq] at h
      intro x hx
      rcases List.mem_cons.mp hx with rfl | hx
      · exact h.1
      · exact ih h.2 x hx

theorem contiguous_iff_taken (as : List Attempt) :
    Contiguous as ↔ ∀ ps : List Piece, ps.map (fun p => p.bytes.length) = as.map Attempt.len →
      taken (ps.zip as) <+: ps.flatMap Piece.bytes := by
  constructor
  · intro h ps hps
    have hsent := h ps hps
    rwa [run_sent (zip_lengths hps) rfl,List.nil_append] at hsent
  · intro h ps hps
    rw [run_sent (zip_lengths hps) rfl,List.nil_append]
    exact h ps hps

def constant (b : Byte) (as : List Attempt) : List Piece :=
  as.map fun a => .write (List.replicate a.len b)

theorem constant_lengths (b : Byte) (as : List Attempt) :
    (constant b as).map (fun p => p.bytes.length) = as.map Attempt.len := by
  simp [constant]

theorem taken_constant (b : Byte) (as : List Attempt) :
    taken ((constant b as).zip as) =
      (as.filter Attempt.accepted).flatMap fun a => List.replicate a.len b := by
  induction as with
  | nil => rfl
  | cons a as ih =>
    simp only [constant,taken] at ih ⊢
    cases ha : a.accepted with
    | false => simpa [ha] using ih
    | true => simpa [ha] using ih

theorem taken_cons (p : Piece) (a : Attempt) (xs : List (Piece × Attempt)) :
    taken ((p,a) :: xs) = if a.accepted then p.bytes ++ taken xs else taken xs := by
  cases ha : a.accepted <;> simp [taken,ha]

theorem contiguous_cons_accepted {a : Attempt} (as : List Attempt) (ha : a.accepted = true) :
    Contiguous (a :: as) ↔ Contiguous as := by
  simp only [contiguous_iff_taken]
  constructor
  · intro h ps hps
    have hcons := h (.write (List.replicate a.len 0) :: ps) (by simp [hps])
    rw [List.zip_cons_cons,taken_cons,if_pos ha,List.flatMap_cons] at hcons
    exact (List.prefix_append_right_inj _).mp hcons
  · intro h ps hps
    cases ps with
    | nil => simp at hps
    | cons p ps =>
      simp only [List.map_cons,List.cons.injEq] at hps
      rw [List.zip_cons_cons,taken_cons,if_pos ha,List.flatMap_cons]
      exact (List.prefix_append_right_inj _).mpr (h ps hps.2)

theorem taken_eq_nil {as : List Attempt} (h : ∀ a ∈ as, a.accepted = false) (ps : List Piece) :
    taken (ps.zip as) = [] := by
  simp only [taken,List.flatMap_eq_nil_iff,List.mem_filter]
  intro x ⟨hx,hacc⟩
  rw [h x.2 (List.of_mem_zip hx).2] at hacc
  cases hacc

theorem exists_accepted_cons {as : List Attempt} {a : Attempt} (ha : a ∈ as)
    (hacc : a.accepted = true) (x : Byte) :
    ∃ rest, (as.filter Attempt.accepted).flatMap (fun a => List.replicate a.len x) = x :: rest := by
  have hpos := a.len_pos
  have hsome : x ∈ (as.filter Attempt.accepted).flatMap fun a => List.replicate a.len x := by
    refine List.mem_flatMap.mpr ⟨a,List.mem_filter.mpr ⟨ha,hacc⟩,?_⟩
    simp
    omega
  obtain ⟨first,rest,hfirst⟩ := List.exists_cons_of_ne_nil (List.ne_nil_of_mem hsome)
  have hmem : first ∈ (as.filter Attempt.accepted).flatMap fun a => List.replicate a.len x := by
    rw [hfirst]
    exact List.mem_cons_self
  obtain ⟨b,-,hb⟩ := List.mem_flatMap.mp hmem
  exact ⟨rest,by rw [hfirst,List.eq_of_mem_replicate hb]⟩

/-- Behind a lost piece nothing may get through: if the lost one were all zeros and the
rest all ones, the client would see a one where a zero belongs. -/
theorem contiguous_cons_lost {a : Attempt} (as : List Attempt) (ha : a.accepted = false) :
    Contiguous (a :: as) ↔ ∀ b ∈ as, b.accepted = false := by
  simp only [contiguous_iff_taken]
  constructor
  · intro h b hb
    cases hacc : b.accepted with
    | false => rfl
    | true =>
      have hcons := h (.write (List.replicate a.len 0) :: constant 1 as) (by
        rw [List.map_cons,constant_lengths,List.map_cons]
        simp)
      rw [List.zip_cons_cons,taken_cons,ha,taken_constant] at hcons
      simp only [Bool.false_eq_true,if_false,List.flatMap_cons,bytes_write] at hcons
      obtain ⟨rest,hones⟩ := exists_accepted_cons hb hacc 1
      obtain ⟨n,hn⟩ : ∃ n, a.len = n+1 := ⟨a.len-1,by have := a.len_pos; omega⟩
      rw [hones,hn,List.replicate_succ,List.cons_append,List.cons_prefix_cons] at hcons
      exact absurd hcons.1 (by decide)
  · intro h ps hps
    cases ps with
    | nil => simp at hps
    | cons p ps =>
      rw [List.zip_cons_cons,taken_cons,ha,taken_eq_nil h ps]
      exact List.nil_prefix

theorem replies_contiguous_iff (as : List Attempt) :
    Contiguous as ↔ as.Pairwise fun a b => b.accepted = true → a.accepted = true := by
  induction as with
  | nil => simp [contiguous_iff_taken,taken]
  | cons a as ih =>
    cases ha : a.accepted with
    | true => simp [contiguous_cons_accepted as ha,ih,ha]
    | false =>
      rw [contiguous_cons_lost as ha,List.pairwise_cons]
      constructor
      · intro h
        refine ⟨fun b hb hacc => absurd hacc (by simp [h b hb]),?_⟩
        exact List.pairwise_of_forall_mem_list fun b hb c hc hacc => absurd hacc (by simp [h c hc])
      · intro h b hb
        cases hacc : b.accepted with
        | false => rfl
        | true => exact (ha.symm.trans (h.1 b hb hacc)).symm

def lineEnding : List Byte := ascii "\r\n"

/-- SCPI_ResultArbitraryBlockHeader: the number of digits of the length, and the length. -/
def blockHeader (len : Nat) : List Byte :=
  let digits := ascii (toString len)
  ascii "#" ++ ascii (toString digits.length) ++ digits

/-- The pieces that answer PARallel:DATa?. An empty one is not written. -/
def parallelDataReply (data : List Byte) : List Piece :=
  ([blockHeader data.length,data,lineEnding].filter fun piece => piece ≠ []).map Piece.write

def tcpSndBuf : Nat := 2*(1500-40)

theorem parallelDataReply_eq {data : List Byte} (h : data ≠ []) :
    parallelDataReply data = [.write (blockHeader data.length),.write data,.write lineEnding] := by
  have hheader : blockHeader data.length ≠ [] := by simp [blockHeader,ascii]
  have hend : lineEnding ≠ [] := by decide
  simp [parallelDataReply,hheader,h,hend]

/-- The answer to an upload of 4000 bytes on an idle connection. -/
def longAnswer : List Attempt :=
  [⟨6,tcpSndBuf,by decide,by decide⟩,⟨4000,tcpSndBuf-6,by decide,by decide⟩,
    ⟨2,tcpSndBuf-6,by decide,by decide⟩]

theorem block_lost_in_between :
    (Runs.run send ⟨true,[]⟩ ((parallelDataReply (List.replicate 4000 0)).zip longAnswer)).sent =
        blockHeader 4000 ++ lineEnding ∧
      ¬ Contiguous longAnswer := by
  generalize hdata : List.replicate 4000 (0 : Byte) = data
  have hlen : data.length = 4000 := by rw [← hdata,List.length_replicate]
  have hreply := parallelDataReply_eq (List.ne_nil_of_length_pos (by omega : 0 < data.length))
  rw [hlen] at hreply
  constructor
  · have hlengths : (parallelDataReply data).map (fun p => p.bytes.length) =
        longAnswer.map Attempt.len := by
      rw [hreply,List.map_cons,List.map_cons,bytes_write data,hlen]
      decide
    rw [run_sent (zip_lengths hlengths) rfl,hreply,longAnswer]
    simp only [List.zip_cons_cons,List.zip_nil_right,taken_cons,bytes_write]
    simp [Attempt.accepted,tcpSndBuf,taken]
  · rw [longAnswer,contiguous_cons_accepted _ (by decide),contiguous_cons_lost _ (by decide)]
    intro hlost
    exact absurd (hlost _ List.mem_cons_self) (by decide)

end Stm32Dds.Replies
