import Stm32Dds.CountedChains
import Stm32Dds.TcpServer

/-! The pbufs of received data: who counts them up and down between their delivery to
server_recv_callback and the step of ethernet_clear_packet that is done with them. The
pool has n pbufs, so n also bounds the loops over a chain. -/

set_option autoImplicit false

namespace Stm32Dds.Ethernet
open Chains

section
variable {n : Nat}

def pbufRef (p : Option (Fin n)) (heap : Heap (Fin n)) : Heap (Fin n) := share p heap

def pbufFree (p : Fin n) (heap : Heap (Fin n)) : Heap (Fin n) := release n (some p) heap

/-- `for (p = h; p->next != NULL; p = p->next)` -/
def lastPbuf (heap : Heap (Fin n)) : Nat → Fin n → Fin n
  | 0, p => p
  | fuel+1, p =>
    match (heap p).next with
    | none => p
    | some q => lastPbuf heap fuel q

def pbufCat (h t : Fin n) (heap : Heap (Fin n)) : Heap (Fin n) :=
  let p := lastPbuf heap n h
  Function.update heap p { heap p with next := some t }

def pbufChain (h t : Fin n) (heap : Heap (Fin n)) : Heap (Fin n) :=
  pbufRef (some t) (pbufCat h t heap)

/-- A chain as the driver hands it over: linked, and one pointer to each pbuf. -/
def deliver : List (Fin n) → Heap (Fin n) → Heap (Fin n)
  | [], heap => heap
  | a :: as, heap => Function.update (deliver as heap) a ⟨1,as.head?⟩

end

structure Buffers (n : Nat) where
  state : EsState
  pin : Option (Fin n)
  heap : Heap (Fin n)

namespace Buffers
variable {n : Nat}

def boot : Buffers n := ⟨.none,none,fun _ => ⟨0,none⟩⟩

def serverAcceptCallback (b : Buffers n) : Buffers n :=
  { b with state := .accepted, pin := none }

def serverRecvCallback (p : Fin n) (ok : Bool) (b : Buffers n) : Buffers n :=
  if ok then
    match b.state with
    | .accepted => { b with state := .receiving, pin := some p }
    | .receiving =>
      match b.pin with
      | some x => { b with heap := pbufChain x p b.heap }
      | none => { b with pin := some p }
    | _ => { b with heap := pbufFree p b.heap }
  else { b with heap := pbufFree p b.heap }

/-- es.pin stays as it is. -/
def serverConnectionClose (b : Buffers n) : Buffers n := { b with state := .none }

def ethernetClearPacket (b : Buffers n) : Buffers n :=
  match b.pin with
  | none => b
  | some ptr =>
    let next := (b.heap ptr).next
    { b with pin := next, heap := pbufFree ptr (pbufRef next b.heap) }

def Deliverable (b : Buffers n) (ids : List (Fin n)) : Prop :=
  ids.Nodup ∧ ∀ a ∈ ids, (b.heap a).ref = 0

instance (b : Buffers n) (ids : List (Fin n)) : Decidable (b.Deliverable ids) :=
  inferInstanceAs (Decidable (_ ∧ _))

end Buffers

/-- `clear` is also the start of ethernet_next_packet, which then waits for the others. -/
inductive BufferEvent (n : Nat)
  | accept
  | recv (head : Fin n) (rest : List (Fin n)) (ok : Bool)
  | close
  | clear

namespace Buffers
variable {n : Nat}

def step (b : Buffers n) : BufferEvent n → Buffers n
  | .accept => b.serverAcceptCallback
  | .recv p rest ok =>
    if b.Deliverable (p :: rest) then
      serverRecvCallback p ok { b with heap := deliver (p :: rest) b.heap }
    else b
  | .close => b.serverConnectionClose
  | .clear => b.ethernetClearPacket

/-- Every pbuf that can be reached from es.pin is counted once, every other one is free. -/
structure Counted (b : Buffers n) : Prop where
  held : ∀ a, Reach b.heap b.pin a → (b.heap a).ref = 1
  freed : ∀ a, ¬ Reach b.heap b.pin a → (b.heap a).ref = 0

/-- Data and connections come when everything received before has been consumed. -/
def Consumed (b : Buffers n) : BufferEvent n → Prop
  | .accept => b.pin = none
  | .recv p rest ok => b.Deliverable (p :: rest) → ok = true → b.state = .receiving → b.pin = none
  | _ => True

structure Holds (b : Buffers n) (l : List (Fin n)) : Prop where
  chain : Chain b.heap b.pin l
  nodup : l.Nodup
  count : ∀ a, (b.heap a).ref = if a ∈ l then 1 else 0
  fresh : b.state = .accepted → b.pin = none

theorem Holds.counted {b : Buffers n} {l : List (Fin n)} (h : b.Holds l) : b.Counted := by
  constructor
  · intro a ha
    rw [h.count,if_pos ((h.chain.reach_iff a).mp ha)]
  · intro a ha
    rw [h.count,if_neg fun hm => ha ((h.chain.reach_iff a).mpr hm)]

end Buffers

section
variable {n : Nat} {heap : Heap (Fin n)} {ids : List (Fin n)}

theorem deliver_of_not_mem {a : Fin n} (ha : a ∉ ids) : deliver ids heap a = heap a := by
  induction ids with
  | nil => rfl
  | cons b bs ih =>
    obtain ⟨hab,hbs⟩ := List.ne_and_not_mem_of_not_mem_cons ha
    rw [deliver,Function.update_of_ne hab,ih hbs]

theorem deliver_ref (a : Fin n) :
    (deliver ids heap a).ref = if a ∈ ids then 1 else (heap a).ref := by
  induction ids with
  | nil => simp [deliver]
  | cons b bs ih =>
    by_cases hab : a = b
    · subst hab
      simp [deliver]
    · simp [deliver,hab,ih]

theorem deliver_chain (hn : ids.Nodup) : Chain (deliver ids heap) ids.head? ids := by
  induction ids with
  | nil => rfl
  | cons a as ih =>
    obtain ⟨ha,hn⟩ := List.nodup_cons.mp hn
    refine ⟨rfl,?_⟩
    have hnext : (deliver (a :: as) heap a).next = as.head? := by simp [deliver]
    rw [hnext]
    refine (ih hn).congr fun b hb => ?_
    have hba : b ≠ a := by
      intro he
      exact ha (he ▸ hb)
    rw [deliver,Function.update_of_ne hba]

theorem pbufCat_ref (h t a : Fin n) : (pbufCat h t heap a).ref = (heap a).ref := by
  by_cases ha : a = lastPbuf heap n h
  · subst ha
    simp [pbufCat]
  · simp [pbufCat,ha]

end

namespace Buffers
variable {n : Nat} {b : Buffers n} {l : List (Fin n)}

theorem Holds.length_le (h : b.Holds l) : l.length ≤ n := by
  simpa using h.nodup.length_le_card

theorem Holds.not_mem (h : b.Holds l) {ids : List (Fin n)} (hd : b.Deliverable ids) {a : Fin n}
    (ha : a ∈ l) : a ∉ ids := by
  intro hm
  have hzero := hd.2 a hm
  rw [h.count,if_pos ha] at hzero
  cases hzero

theorem Holds.nil (h : b.Holds l) (hp : b.pin = none) : l = [] := by
  have hc := h.chain
  rw [hp] at hc
  exact hc.nil

theorem Holds.take (h : b.Holds l) (hp : b.pin = none) {p : Fin n} {rest : List (Fin n)}
    (hd : b.Deliverable (p :: rest)) :
    Holds ⟨.receiving,some p,deliver (p :: rest) b.heap⟩ (p :: rest) := by
  have hl := h.nil hp
  subst hl
  refine ⟨deliver_chain hd.1,hd.1,?_,by simp⟩
  intro a
  rw [deliver_ref,h.count]
  simp

theorem Deliverable.refused_ref {p : Fin n} {rest : List (Fin n)}
    (hd : b.Deliverable (p :: rest)) (a : Fin n) :
    (pbufFree p (deliver (p :: rest) b.heap) a).ref = (b.heap a).ref := by
  have hlen : (p :: rest).length ≤ n := by simpa using hd.1.length_le_card
  have hone : ∀ a ∈ p :: rest, (deliver (p :: rest) b.heap a).ref = 1 := by
    intro a ha
    rw [deliver_ref,if_pos ha]
  refine (release_chain n hlen (deliver_chain hd.1) hd.1 hone a).trans ?_
  rw [deliver_ref]
  by_cases ha : a ∈ p :: rest
  · rw [if_pos ha,hd.2 a ha]
  · rw [if_neg ha,if_neg ha]

theorem Holds.refuse (h : b.Holds l) {p : Fin n} {rest : List (Fin n)}
    (hd : b.Deliverable (p :: rest)) :
    Holds { b with heap := pbufFree p (deliver (p :: rest) b.heap) } l := by
  refine ⟨h.chain.congr ?_,h.nodup,fun a => (hd.refused_ref a).trans (h.count a),h.fresh⟩
  intro a ha
  rw [pbufFree,release_next,deliver_of_not_mem (h.not_mem hd ha)]

theorem Holds.recv (h : b.Holds l) {p : Fin n} {rest : List (Fin n)} {ok : Bool}
    (hc : b.Consumed (.recv p rest ok)) : ∃ l, (b.step (.recv p rest ok)).Holds l := by
  unfold step
  dsimp only
  split
  · rename_i hd
    have href := h.refuse hd
    cases ok with
    | false => exact ⟨l,href⟩
    | true =>
      unfold serverRecvCallback
      cases hs : b.state with
      | none => exact ⟨l,by simpa [hs] using href⟩
      | closing => exact ⟨l,by simpa [hs] using href⟩
      | accepted => exact ⟨_,h.take (h.fresh hs) hd⟩
      | receiving =>
        have hp := hc hd rfl hs
        exact ⟨_,by simpa [hs,hp] using h.take hp hd⟩
  · exact ⟨l,h⟩

theorem Holds.clear (h : b.Holds l) : ∃ l, b.ethernetClearPacket.Holds l := by
  unfold ethernetClearPacket
  split
  · exact ⟨l,h⟩
  · rename_i a hp
    have hc := h.chain
    rw [hp] at hc
    cases l with
    | nil => cases hc
    | cons c cs =>
      cases hc.1
      have hone : ∀ x ∈ a :: cs, (b.heap x).ref = 1 := by
        intro x hx
        rw [h.count,if_pos hx]
      obtain ⟨ha,hn⟩ := List.nodup_cons.mp h.nodup
      refine ⟨cs,hc.2.congr fun x _ => by simp [pbufFree,pbufRef],hn,?_,?_⟩
      · intro x
        refine (release_head n h.length_le hc h.nodup hone x).trans ?_
        rw [h.count]
        by_cases hx : x = a
        · subst hx
          simp [ha]
        · simp [hx]
      · intro hs
        rw [h.fresh hs] at hp
        cases hp

theorem holds_step (h : b.Holds l) {e : BufferEvent n} (hc : b.Consumed e) :
    ∃ l, (b.step e).Holds l := by
  cases e with
  | accept =>
    have hl := h.nil hc
    subst hl
    exact ⟨[],rfl,List.nodup_nil,h.count,fun _ => rfl⟩
  | recv p rest ok => exact h.recv hc
  | close => exact ⟨l,h.chain,h.nodup,h.count,fun hs => by cases hs⟩
  | clear => exact h.clear

theorem counted_lost (h : b.Holds l) {e : BufferEvent n} (hc : ¬ b.Consumed e) :
    ¬ (b.step e).Counted := by
  cases e with
  | accept =>
    -- the chain that was in es.pin is out of reach, and still counted
    obtain ⟨a,hp⟩ := Option.ne_none_iff_exists'.mp hc
    intro hcounted
    have hheld := h.counted.held a (hp ▸ .here a)
    have hfree := hcounted.freed a (by intro hr; cases hr)
    rw [show (b.step .accept).heap = b.heap from rfl,hheld] at hfree
    cases hfree
  | recv p rest ok =>
    -- pbuf_chain counts the new head a second time
    simp only [Consumed,Classical.not_imp] at hc
    obtain ⟨hd,rfl,hs,hp⟩ := hc
    obtain ⟨x,hp⟩ := Option.ne_none_iff_exists'.mp hp
    have htwo : ((b.step (.recv p rest true)).heap p).ref = 2 := by
      simp only [step,hd,if_true,serverRecvCallback,hs,hp,pbufChain,pbufRef,share,setRef_self,
        pbufCat_ref,deliver_ref,List.mem_cons,true_or]
      rfl
    intro hcounted
    by_cases hr : Reach (b.step (.recv p rest true)).heap (b.step (.recv p rest true)).pin p
    · have hone := hcounted.held p hr
      rw [htwo] at hone
      cases hone
    · have hzero := hcounted.freed p hr
      rw [htwo] at hzero
      cases hzero
  | close => exact absurd trivial hc
  | clear => exact absurd trivial hc

end Buffers

/-- The counts are right all along exactly when new data and new connections always
find es.pin consumed. -/
theorem pbufs_counted_iff (n : Nat) (es : List (BufferEvent n)) :
    Runs.Throughout Buffers.step Buffers.Counted Buffers.boot es ↔
      Runs.Along Buffers.step Buffers.Consumed Buffers.boot es := by
  apply Runs.throughout_iff_along Buffers.step (I := fun b => ∃ l, b.Holds l)
  · rintro b ⟨l,h⟩
    exact h.counted
  · rintro b e ⟨l,h⟩ hc
    exact Buffers.holds_step h hc
  · rintro b e ⟨l,h⟩ hc
    exact Buffers.counted_lost h hc
  · exact ⟨[],rfl,List.nodup_nil,by simp [Buffers.boot],fun _ => rfl⟩

/-- Two segments before the first is consumed: the second one is counted twice. -/
theorem second_segment_counted_twice :
    ¬ Runs.Throughout Buffers.step Buffers.Counted (Buffers.boot (n := 2))
      [.accept,.recv 0 [] true,.recv 1 [] true] := by
  intro h
  have hcounted := h _ (List.prefix_refl _)
  have hreach := hcounted.held 1 (.next (.here 1))
  cases hreach

end Stm32Dds.Ethernet
