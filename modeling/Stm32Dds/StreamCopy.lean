import Stm32Dds.PacketStream

set_option autoImplicit false

namespace Stm32Dds.Stream
open Bytes

theorem memcpy_nil (i : Nat) (c : Conn) : c.memcpy i [] = c := by
  simp [Conn.memcpy]

theorem memcpy_memcpy (i : Nat) (x y : List Byte) (c : Conn) :
    (c.memcpy i x).memcpy (i+x.length) y = c.memcpy i (x ++ y) := by
  have hbuffer : ∀ j, ((c.memcpy i x).memcpy (i+x.length) y).parallel.buffer j =
      (c.memcpy i (x ++ y)).parallel.buffer j := by
    intro j
    simp only [Conn.memcpy]
    by_cases hx : i+x.length ≤ j
    · rw [if_pos hx,if_pos (by omega),if_pos (by omega),List.getD_append_right _ _ _ _ (by omega),
        Nat.sub_add_eq,List.getD_eq_default x _ (by omega)]
    · rw [if_neg hx]
      by_cases hi : i ≤ j
      · rw [if_pos hi,if_pos hi,List.getD_append _ _ _ _ (by omega)]
      · rw [if_neg hi,if_neg hi]
  have hsame := funext hbuffer
  dsimp only [Conn.memcpy] at hsame ⊢
  rw [hsame]

theorem pin_of_queue {c : Conn} {p : Pbuf} {ps : List Pbuf} (hpin : c.pin ≠ [])
    (hq : c.queue = p :: ps) : ∃ pin, c.pin = p :: pin := by
  obtain ⟨r,pin,hr⟩ := List.exists_cons_of_ne_nil hpin
  rw [Conn.queue,hr,List.cons_append,List.cons.injEq] at hq
  exact ⟨pin,by rw [hr,hq.1]⟩

/-- Of the pbufs `ps`, q is the one that has byte number n, counted from one. In front of
it are the pbufs `gone`. -/
structure EndsIn (ps : List Pbuf) (n : Nat) (gone : List Pbuf) (q : Pbuf) (rest : List Pbuf) :
    Prop where
  split : ps = gone ++ q :: rest
  passed : gone ≠ [] → bytes gone < n
  reached : n ≤ bytes gone + q.length

theorem EndsIn.first {p : Pbuf} {n : Nat} (ps : List Pbuf) (h : n ≤ p.length) :
    EndsIn (p :: ps) n [] p ps where
  split := rfl
  passed := fun hne => absurd rfl hne
  reached := by simpa using h

theorem EndsIn.cons {p : Pbuf} {ps gone rest : List Pbuf} {q : Pbuf} {n : Nat}
    (h : EndsIn ps n gone q rest) (hn : 0 < n) :
    EndsIn (p :: ps) (p.length+n) (p :: gone) q rest where
  split := by rw [h.split,List.cons_append]
  passed := by
    intro _
    rw [bytes_cons]
    by_cases hgone : gone = []
    · rw [hgone,bytes_nil]
      omega
    · exact Nat.add_lt_add_left (h.passed hgone) _
  reached := by
    have hreached := h.reached
    rw [bytes_cons]
    omega

theorem EndsIn.not_longer {ps gone rest gone' rest' more : List Pbuf} {q q' r : Pbuf} {n : Nat}
    (h : EndsIn ps n gone q rest) (h' : EndsIn ps n gone' q' rest') : gone' ≠ gone ++ r :: more := by
  intro hlonger
  have hsplit := h.split.symm.trans h'.split
  rw [hlonger,List.append_assoc,List.append_cancel_left_eq,List.cons_append,
    List.cons.injEq] at hsplit
  have hpassed := h'.passed (by rw [hlonger]; simp)
  have hreached := h.reached
  rw [hlonger,bytes_append,bytes_cons,← hsplit.1] at hpassed
  omega

theorem EndsIn.unique {ps gone rest gone' rest' : List Pbuf} {q q' : Pbuf} {n : Nat}
    (h : EndsIn ps n gone q rest) (h' : EndsIn ps n gone' q' rest') :
    gone = gone' ∧ q = q' ∧ rest = rest' := by
  have hsame : gone = gone' := by
    obtain ⟨more,hmore,-⟩ | ⟨more,hmore,-⟩ :=
      List.append_eq_append_iff.mp (h.split.symm.trans h'.split)
    · cases more with
      | nil => rw [hmore,List.append_nil]
      | cons r more => exact absurd hmore (h.not_longer h')
    · cases more with
      | nil => rw [hmore,List.append_nil]
      | cons r more => exact absurd hmore (h'.not_longer h)
  have hsplit := h.split.symm.trans h'.split
  rw [hsame,List.append_cancel_left_eq,List.cons.injEq] at hsplit
  exact ⟨hsame,hsplit⟩

structure Moved (c : Conn) (gone : List Pbuf) (q : Pbuf) (rest : List Pbuf) (d : Conn) : Prop where
  pin : d.pin ≠ []
  queue : d.queue = q :: rest
  consumed : d.consumed = c.consumed + bytes gone
  handled : d.handled = c.handled

theorem Moved.trans {c d e : Conn} {gone gone' rest rest' : List Pbuf} {q q' : Pbuf}
    (h : Moved c gone q rest d) (h' : Moved d gone' q' rest' e) :
    Moved c (gone ++ gone') q' rest' e where
  pin := h'.pin
  queue := h'.queue
  consumed := by rw [h'.consumed,h.consumed,bytes_append,Nat.add_assoc]
  handled := h'.handled.trans h.handled

section
variable {len i offset : Nat} {p q : Pbuf} {ps : List Pbuf} {c : Conn}

theorem copyLoop_last (len i offset : Nat) {pin : List Pbuf} (hpin : c.pin = p :: pin) (ho : offset ≤ p.length)
    (hi : i ≤ len) (hlen : len - i ≤ p.length - offset) (fuel : Nat) :
    copyLoop len (fuel+1) i offset c =
      .ok (len,c.memcpy i ((p.drop offset).take (len-i))) := by
  rw [copyLoop]
  by_cases hmore : i < len
  · rw [if_pos hmore]
    simp only [hpin]
    rw [if_neg (by omega),Nat.min_eq_right hlen,if_neg (by omega),Nat.add_sub_of_le hi]
  · rw [if_neg hmore,show i = len by omega,Nat.sub_self,List.take_zero,memcpy_nil]

theorem copyLoop_next (hpin : c.pin ≠ []) (hq : c.queue = p :: q :: ps) (ho : offset ≤ p.length)
    (hmore : i + (p.length-offset) < len) (fuel : Nat) :
    ∃ d, copyLoop len (fuel+1) i offset c = copyLoop len fuel (i + (p.length-offset)) 0 d ∧
      Moved c [p] q ps d ∧ d.parallel = (c.memcpy i (p.drop offset)).parallel := by
  obtain ⟨pin,hp⟩ := pin_of_queue hpin hq
  have hqueue : ∀ d, Kept ((c.memcpy i (p.drop offset)).pin.take 1) (c.memcpy i (p.drop offset)) d →
      d.queue = q :: ps := by
    intro d hkept
    have hall : c.queue = c.pin.take 1 ++ d.queue := hkept.queue
    rw [hq,hp] at hall
    exact (List.cons.inj hall).2.symm
  have hnext := nextPacket_spec (c.memcpy i (p.drop offset))
  obtain ⟨d,hd,hlater,hkept,hdpin⟩ | ⟨d,-,-,hkept,hempty⟩ := hnext
  · have hconsumed : d.consumed = c.consumed + bytes [p] := by
      have hreleased : d.consumed = c.consumed + bytes (c.pin.take 1) := hlater.consumed
      rw [hreleased,hp]
      rfl
    refine ⟨d,?_,⟨hdpin,hqueue d hkept,hconsumed,hkept.handled⟩,hkept.parallel⟩
    have htake : (p.drop offset).take (p.length-offset) = p.drop offset :=
      List.take_of_length_le (List.length_drop ..).le
    rw [copyLoop,if_pos (by omega)]
    simp only [hp]
    rw [if_neg (by omega),Nat.min_eq_left (by omega),htake,if_pos hmore,hd]
  · rw [hqueue d hkept] at hempty
    cases hempty

/-- A copy that stores the stream from the place on where it starts, and ends in the pbuf
with its last byte. -/
structure CopyEnd (len fuel i offset : Nat) (p : Pbuf) (ps : List Pbuf) (c : Conn)
    (gone : List Pbuf) (q : Pbuf) (rest : List Pbuf) (d : Conn) : Prop where
  result : copyLoop len fuel i offset c = .ok (len,d)
  ends : EndsIn (p :: ps) (offset + (len-i)) gone q rest
  moved : Moved c gone q rest d
  stored : d.parallel = (c.memcpy i ((p.drop offset ++ ps.flatten).take (len-i))).parallel

theorem copyEnd_last (hpin : c.pin ≠ []) (hq : c.queue = p :: ps) (ho : offset ≤ p.length)
    (hi : i ≤ len) (hlast : len - i ≤ p.length - offset) (fuel : Nat) :
    CopyEnd len (fuel+1) i offset p ps c [] p ps
      (c.memcpy i ((p.drop offset).take (len-i))) := by
  obtain ⟨pin,hp⟩ := pin_of_queue hpin hq
  refine ⟨copyLoop_last len i offset hp ho hi hlast fuel,.first ps (by omega),⟨hpin,hq,rfl,rfl⟩,?_⟩
  rw [List.take_append_of_le_length (by rw [List.length_drop]; exact hlast)]

theorem CopyEnd.next {fuel : Nat} {d e : Conn} {r : Pbuf} {gone rest : List Pbuf}
    (ho : offset ≤ p.length) (hmore : i + (p.length-offset) < len)
    (hround : copyLoop len (fuel+1) i offset c = copyLoop len fuel (i + (p.length-offset)) 0 d)
    (hmoved : Moved c [p] q ps d) (hparallel : d.parallel = (c.memcpy i (p.drop offset)).parallel)
    (h : CopyEnd len fuel (i + (p.length-offset)) 0 q ps d gone r rest e) :
    CopyEnd len (fuel+1) i offset p (q :: ps) c (p :: gone) r rest e where
  result := hround.trans h.result
  ends := by
    have hends := h.ends.cons (p := p) (by omega)
    rwa [show p.length + (0 + (len - (i + (p.length-offset)))) = offset + (len-i) by omega] at hends
  moved := hmoved.trans h.moved
  stored := by
    have hdrop : (p.drop offset).length = p.length-offset := List.length_drop
    have hwindow : (p.drop offset ++ (q :: ps).flatten).take (len-i) =
        p.drop offset ++ (q ++ ps.flatten).take (len - (i + (p.length-offset))) := by
      rw [List.take_append,List.take_of_length_le (by omega),hdrop,Nat.sub_add_eq,
        List.flatten_cons]
    rw [h.stored,hwindow,← memcpy_memcpy,hdrop,Conn.memcpy,hparallel]
    rfl

end

theorem copyLoop_copies (len fuel i offset : Nat) {p : Pbuf} {ps : List Pbuf} {c : Conn}
    (hpin : c.pin ≠ []) (hq : c.queue = p :: ps) (ho : offset ≤ p.length) (hi : i ≤ len)
    (hlen : offset + (len-i) ≤ bytes (p :: ps)) (hf : ps.length < fuel) :
    ∃ d gone q rest, CopyEnd len fuel i offset p ps c gone q rest d := by
  induction ps generalizing p fuel i offset c with
  | nil =>
    obtain ⟨fuel,rfl⟩ : ∃ k, fuel = k+1 := ⟨fuel-1,by omega⟩
    rw [bytes_cons,bytes_nil] at hlen
    exact ⟨_,_,_,_,copyEnd_last hpin hq ho hi (by omega) fuel⟩
  | cons q ps ih =>
    obtain ⟨fuel,rfl⟩ : ∃ k, fuel = k+1 := ⟨fuel-1,by omega⟩
    by_cases hlast : len - i ≤ p.length-offset
    · exact ⟨_,_,_,_,copyEnd_last hpin hq ho hi hlast fuel⟩
    · have hmore : i + (p.length-offset) < len := by omega
      obtain ⟨d,hround,hmoved,hparallel⟩ := copyLoop_next hpin hq ho hmore fuel
      rw [bytes_cons] at hlen
      rw [List.length_cons] at hf
      obtain ⟨e,gone,r,rest,hend⟩ := ih fuel (i + (p.length-offset)) 0 hmoved.pin hmoved.queue
        (Nat.zero_le _) (by omega) (by omega) (by omega)
      exact ⟨e,p :: gone,r,rest,hend.next ho hmore hround hmoved hparallel⟩

theorem length_flatten_queue (c : Conn) : c.queue.flatten.length = bytes c.queue :=
  List.length_flatten

theorem copyData_copies (len offset : Nat) {c : Conn} {p : Pbuf} {pin : List Pbuf}
    (hpin : c.pin = p :: pin) (ho : offset ≤ p.length) (hlen : offset+len ≤ bytes c.queue) :
    ∃ d gone q rest, ethernetCopyData len offset c = .ok (len,d) ∧
      EndsIn c.queue (offset+len) gone q rest ∧ Moved c gone q rest d ∧
      d.parallel = (c.memcpy 0 ((c.queue.flatten.drop offset).take len)).parallel := by
  have hqueue : c.queue = p :: (pin ++ c.arrivals.flatten) := by
    rw [Conn.queue,hpin,List.cons_append]
  generalize pin ++ c.arrivals.flatten = ps at hqueue
  have hwindow : c.queue.flatten.drop offset = p.drop offset ++ ps.flatten := by
    rw [hqueue,List.flatten_cons,List.drop_append_of_le_length ho]
  obtain ⟨d,gone,q,rest,hend⟩ := copyLoop_copies len (c.queue.length+1) 0 offset
    (by rw [hpin]; exact List.cons_ne_nil _ _) hqueue ho (Nat.zero_le _)
    (by rw [← hqueue]; exact hlen) (by rw [hqueue,List.length_cons]; omega)
  refine ⟨d,gone,q,rest,hend.result,?_,hend.moved,?_⟩
  · rw [hqueue]
    exact hend.ends
  · rw [hwindow]
    exact hend.stored

/-- What ethernet_copy_data has to leave behind: the bytes of the stream in the sample
buffer, and at hand the pbuf that has the last of them. -/
structure Copied (len offset : Nat) (c d : Conn) : Prop where
  stored : ∀ j, j < len → c.queue.flatten[offset+j]? = some (d.parallel.buffer j)
  beyond : ∀ j, len ≤ j → d.parallel.buffer j = c.parallel.buffer j
  idle : len = 0 → d = c
  stops : 0 < len → ∃ gone q rest pin, c.queue = gone ++ q :: rest ∧ d.pin = q :: pin ∧
    d.queue = q :: rest ∧ bytes gone < offset+len ∧ offset+len ≤ bytes gone + q.length

theorem memcpy_buffer (data : List Byte) (c : Conn) (j : Nat) :
    (c.memcpy 0 data).parallel.buffer j = data.getD j (c.parallel.buffer j) := by
  simp [Conn.memcpy]

/-- However the stream is cut into pbufs, the copy puts it together again. The result is no
fault, so that no length wraps on the way. -/
theorem copy_data_reassembles (len offset : Nat) (c : Conn) (p : Pbuf) (pin : List Pbuf)
    (hpin : c.pin = p :: pin) (ho : offset ≤ p.length)
    (hlen : offset+len ≤ c.queue.flatten.length) :
    ∃ d, ethernetCopyData len offset c = .ok (len,d) ∧ Copied len offset c d := by
  obtain ⟨d,gone,q,rest,hcopy,hends,hmoved,hparallel⟩ := copyData_copies len offset hpin ho
    (by rw [← length_flatten_queue]; exact hlen)
  have hbuffer : ∀ j, d.parallel.buffer j =
      ((c.queue.flatten.drop offset).take len).getD j (c.parallel.buffer j) := by
    intro j
    rw [hparallel,memcpy_buffer]
  refine ⟨d,hcopy,?_,?_,?_,?_⟩
  · intro j hj
    have hin : offset+j < c.queue.flatten.length := by omega
    rw [hbuffer,List.getD_eq_getElem?_getD,List.getElem?_take_of_lt hj,List.getElem?_drop,
      List.getElem?_eq_getElem hin,Option.getD_some]
  · intro j hj
    rw [hbuffer,List.getD_eq_default]
    exact (List.length_take_le _ _).trans hj
  · intro hzero
    rw [hzero,ethernetCopyData,copyLoop,if_neg (Nat.lt_irrefl 0)] at hcopy
    cases hcopy
    rfl
  · intro hpos
    obtain ⟨pin',hpin'⟩ := pin_of_queue hmoved.pin hmoved.queue
    refine ⟨gone,q,rest,pin',hends.split,hpin',hmoved.queue,?_,hends.reached⟩
    by_cases hgone : gone = []
    · rw [hgone,bytes_nil]
      omega
    · exact hends.passed hgone

/-- An empty pbuf, and a block that starts at the end of one pbuf and ends at that of another. -/
theorem copy_data_reassembles_over_pbufs :
    ∃ d, ethernetCopyData 3 2 { Conn.accepted [[],[[3]],[[4,5],[6]]] with pin := [[1,2],[]] } =
        .ok (3,d) ∧
      Copied 3 2 { Conn.accepted [[],[[3]],[[4,5],[6]]] with pin := [[1,2],[]] } d :=
  copy_data_reassembles 3 2 _ [1,2] [[]] rfl (by decide) (by decide)

end Stm32Dds.Stream
