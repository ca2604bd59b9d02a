import Stm32Dds.ProgramMode

set_option autoImplicit false

namespace Stm32Dds.Commands
open Bytes Tagged Scpi

/-- A call that reports an error has changed neither the end nor the bytes before it. -/
def FailureKeeps (c : Cmd) (q : CommandQueue) : Prop :=
  (c.queue q).1 ≠ 0 → (c.queue q).2.endPtr = q.endPtr ∧ content (c.queue q).2 = content q

theorem endPtr_eq_of_content {q q' : CommandQueue} (hq : InBuffer q) (hq' : InBuffer q')
    (h : content q' = content q) : q'.endPtr = q.endPtr := by
  rw [← content_length hq,← content_length hq',h]

theorem failureKeeps_iff_content {q : CommandQueue} (hq : InBuffer q) (c : Cmd) :
    FailureKeeps c q ↔ ((c.queue q).1 ≠ 0 → content (c.queue q).2 = content q) := by
  constructor
  · intro h hfail
    exact (h hfail).2
  · intro h hfail
    exact ⟨endPtr_eq_of_content hq (c.queue_kept hq).inBuffer (h hfail),h hfail⟩

/-- The fill levels at which a register call that fails has done nothing: with a closing
spi_write to take back, all but one; without, those where both parts fit and the full queue. -/
def SafeLevel (bs : List Byte) : Prop :=
  if searchFinds bs then bs.length+8 ≠ commandQueueLength
  else bs.length+9 < commandQueueLength ∨ bs.length = commandQueueLength

theorem content_ne {q q' : CommandQueue} {front added : List Byte}
    (h : content q' = front ++ added) (hlen : front.length+added.length ≠ (content q).length) :
    content q' ≠ content q := by
  intro he
  rw [← he,h,List.length_append] at hlen
  exact hlen rfl

theorem register_failureKeeps_iff {q : CommandQueue} (hq : InBuffer q) (reg value : BitVec 32) :
    ((commandQueueRegister reg value q).1 ≠ 0 →
      content (commandQueueRegister reg value q).2 = content q) ↔ SafeLevel (content q) := by
  have hlen := content_length hq
  have hmax := hq.2
  obtain ⟨h₉,-⟩ := encode_register_length reg value
  have hout := register_outcome hq reg value
  cases hs : searchFinds (content q) with
  | false =>
    have htrim : content (trim q) = content q := by rw [content_trim,hs]; rfl
    simp only [SafeLevel,hs,Bool.false_eq_true,if_false]
    rw [htrim] at hout
    rcases hout with ⟨hroom,hz⟩ | ⟨hz,⟨hroom,h⟩ | ⟨hroom,hlt,h⟩ | ⟨hfull,h⟩⟩
    · exact ⟨fun _ => .inl (by omega),fun _ hn => absurd hz hn⟩
    · have hne := content_ne (q := q) h (by rw [h₉]; omega)
      exact ⟨fun hk => absurd (hk hz) hne,fun hsafe => by omega⟩
    · have hne := content_ne (q := q) h (by simp [encode,spiRecord])
      exact ⟨fun hk => absurd (hk hz) hne,fun hsafe => by omega⟩
    · exact ⟨fun _ => .inr hfull,fun _ _ => h⟩
  | true =>
    obtain ⟨front,hfront⟩ := List.getLast?_eq_some_iff.mp (searchFinds_getLast hs)
    have htrim : content (trim q) = front := by
      rw [content_trim,hs,if_pos rfl,hfront,List.dropLast_concat]
    have hl : (content q).length = front.length+1 := by rw [hfront]; simp
    simp only [SafeLevel,hs,if_true]
    rw [htrim] at hout
    rcases hout with ⟨hroom,hz⟩ | ⟨hz,⟨hroom,h⟩ | ⟨hroom,hlt,h⟩ | ⟨hfull,h⟩⟩
    · exact ⟨fun _ => by omega,fun _ hn => absurd hz hn⟩
    · have hne := content_ne (q := q) h (by rw [h₉]; omega)
      exact ⟨fun hk => absurd (hk hz) hne,fun hsafe => by omega⟩
    · -- the spi_write that was taken back is put where it was
      have he : content (commandQueueRegister reg value q).2 = content q := h.trans hfront.symm
      exact ⟨fun _ => by omega,fun _ _ => he⟩
    · omega

theorem failureKeeps_append {q : CommandQueue} (hq : InBuffer q) {c : Cmd}
    (hc : c.isRegister = false) : FailureKeeps c q := by
  intro hfail
  rw [c.queue_eq hc] at hfail ⊢
  rcases commandQueue_cases hq c.type c.payload c.payload_length_le with ⟨hz,-⟩ | ⟨-,he⟩
  · exact absurd hz hfail
  · rw [he]
    exact ⟨rfl,rfl⟩

theorem failureKeeps_iff {q : CommandQueue} (hq : InBuffer q) (c : Cmd) :
    FailureKeeps c q ↔ (c.isRegister = true → SafeLevel (content q)) := by
  cases hc : c.isRegister with
  | false =>
    have hkeeps := failureKeeps_append hq hc
    simp [hkeeps]
  | true =>
    cases c with
    | register reg value =>
      rw [failureKeeps_iff_content hq]
      have hreg := register_failureKeeps_iff hq reg value
      simpa [Cmd.queue] using hreg
    | _ => simp [Cmd.isRegister,Cmd.type] at hc

theorem failed_enqueue_keeps_iff (mem : Memory) (calls : List Call) (c : Cmd) :
    let q := Runs.run Call.step (startQueue mem) calls
    FailureKeeps c q ↔ (c.isRegister = true → SafeLevel (content q)) :=
  failureKeeps_iff (run_kept (inBuffer_empty mem 0) calls).inBuffer c

theorem run_updates (mem : Memory) (n : Nat) :
    Runs.run Call.step (startQueue mem) (List.replicate n (.queue .update)) =
      queueEach (startQueue mem) (List.replicate n .update) := by
  induction n with
  | zero => rfl
  | succ n ih =>
    rw [List.replicate_succ',Runs.run_append,ih,List.replicate_succ',queueEach_snoc]
    rfl

theorem searchFinds_updates (mem : Memory) (n : Nat) (h : n+1 ≤ commandQueueLength) :
    searchFinds (content (queueEach (startQueue mem) (List.replicate (n+1) .update))) = false := by
  have hq : InBuffer (queueEach (startQueue mem) (List.replicate n .update)) :=
    queueEach_inBuffer (inBuffer_empty mem 0) _
  have hlen := updates_fill mem n (by omega)
  have hz := (Cmd.update.queue_zero_iff hq).mpr (by rw [append_update_length]; omega)
  have hcontent := Cmd.update.queue_content hq hz
  cases hs : searchFinds (content (queueEach (startQueue mem) (List.replicate (n+1) .update))) with
  | false => rfl
  | true =>
    have hlast := searchFinds_getLast hs
    rw [List.replicate_succ',queueEach_snoc,hcontent] at hlast
    simp [append,extend,Cmd.isRegister,Cmd.type,Cmd.record,Cmd.payload,encode,CommandType.code] at hlast

theorem register_fails_open (mem : Memory) (n : Nat) (h : n+10 = commandQueueLength) :
    ¬ FailureKeeps (.register 0 0)
      (Runs.run Call.step (startQueue mem) (List.replicate (n+1) (.queue .update))) := by
  rw [run_updates]
  intro hkeeps
  have hq : InBuffer (queueEach (startQueue mem) (List.replicate (n+1) .update)) :=
    queueEach_inBuffer (inBuffer_empty mem 0) _
  have hsafe := (failureKeeps_iff hq _).mp hkeeps rfl
  have hlen := updates_fill mem (n+1) (by omega)
  have hfinds := searchFinds_updates mem n (by omega)
  rw [SafeLevel,hfinds] at hsafe
  simp only [Bool.false_eq_true,if_false,hlen] at hsafe
  omega

/-- Behind 1015 io-updates the call fails and leaves its record. -/
theorem register_left_open :
    ¬ FailureKeeps (.register 0 0)
      (Runs.run Call.step (startQueue fun _ => 0) (List.replicate (1014+1) (.queue .update))) :=
  register_fails_open (fun _ => 0) 1014 rfl

end Stm32Dds.Commands
