import Stm32Dds.PacketBuffers

set_option autoImplicit false

namespace Stm32Dds.Ethernet
open Chains

/-- The buffers with what is in them. The consumer is busy with the pbuf at es.pin, or
waits in the loop of ethernet_next_packet. -/
structure Session (n : Nat) (α : Type) where
  buffers : Buffers n
  payload : Fin n → α
  busy : Bool
  delivered : List α
  presented : List α

/-- `next` is the call of ethernet_clear_packet, `test` the condition `es.pin == NULL` of
the loop behind it. With `fin` the client has closed the connection. -/
inductive SessionEvent (n : Nat) (α : Type)
  | recv (head : Fin n × α) (rest : List (Fin n × α)) (ok : Bool)
  | fin (sending : Bool)
  | next
  | test

def fill {n : Nat} {α : Type} : List (Fin n × α) → (Fin n → α) → Fin n → α
  | [], payload => payload
  | (a,x) :: ps, payload => Function.update (fill ps payload) a x

namespace Session
variable {n : Nat} {α : Type}

/-- Right after server_accept_callback, which is called from the loop that waits. The
pool can be in any state. -/
def accepted (heap : Heap (Fin n)) (payload : Fin n → α) : Session n α :=
  ⟨⟨.accepted,none,heap⟩,payload,false,[],[]⟩

/-- lwIP hands over pbufs that were free; with an error it hands over no data. -/
def recv (ps : List (Fin n × α)) (e : BufferEvent n) (ok : Bool) (s : Session n α) : Session n α :=
  if s.buffers.Deliverable (ps.map Prod.fst) then
    { s with
      buffers := s.buffers.step e
      payload := fill ps s.payload
      delivered := if ok then s.delivered ++ ps.map Prod.snd else s.delivered }
  else s

def step (s : Session n α) : SessionEvent n α → Session n α
  | .recv p rest ok => s.recv (p :: rest) (.recv p.1 (rest.map Prod.fst) ok) ok
  | .fin sending =>
    { s with buffers := { s.buffers with state := if sending then .closing else .none } }
  | .next => if s.busy then { s with buffers := s.buffers.ethernetClearPacket, busy := false } else s
  | .test =>
    if s.busy then s
    else match s.buffers.pin with
      | none => s
      -- ethernet_loop and ethernet_copy_data go on with es.pin->payload
      | some a => { s with busy := true, presented := s.presented ++ [s.payload a] }

end Session

section Fill
variable {n : Nat} {α : Type} {ps : List (Fin n × α)} {payload : Fin n → α}

theorem fill_of_not_mem {a : Fin n} (ha : a ∉ ps.map Prod.fst) : fill ps payload a = payload a := by
  induction ps with
  | nil => rfl
  | cons p ps ih =>
    obtain ⟨hap,hps⟩ := List.ne_and_not_mem_of_not_mem_cons ha
    rw [fill,Function.update_of_ne hap,ih hps]

theorem map_fill (hn : (ps.map Prod.fst).Nodup) :
    (ps.map Prod.fst).map (fill ps payload) = ps.map Prod.snd := by
  induction ps with
  | nil => rfl
  | cons p ps ih =>
    obtain ⟨hp,hn⟩ := List.nodup_cons.mp hn
    have hrest : (ps.map Prod.fst).map (fill (p :: ps) payload) =
        (ps.map Prod.fst).map (fill ps payload) := by
      apply List.map_congr_left
      intro a ha
      have hap : a ≠ p.1 := fun he => hp (he ▸ ha)
      rw [fill,Function.update_of_ne hap]
    rw [List.map_cons,List.map_cons,hrest,ih hn,fill,Function.update_self,List.map_cons]

theorem map_fill_of_disjoint {l : List (Fin n)} (h : ∀ a ∈ l, a ∉ ps.map Prod.fst) :
    l.map (fill ps payload) = l.map payload :=
  List.map_congr_left fun a ha => fill_of_not_mem (h a ha)

end Fill

section Chained
variable {n : Nat} {heap : Heap (Fin n)}

theorem lastPbuf_chain {a b : Fin n} {as : List (Fin n)} {fuel : Nat} (hfuel : as.length ≤ fuel)
    (hc : Chain heap (some b) (as ++ [a])) : lastPbuf heap fuel b = a := by
  induction as generalizing b fuel with
  | nil =>
    obtain ⟨hb,hnext⟩ := hc
    cases hb
    have hnone : (heap a).next = none := hnext
    cases fuel with
    | zero => rfl
    | succ fuel => rw [lastPbuf,hnone]
  | cons c cs ih =>
    obtain ⟨hb,hrest⟩ := hc
    cases hb
    cases fuel with
    | zero => simp at hfuel
    | succ fuel =>
      have hsome : ∃ d, (heap c).next = some d := by
        cases cs with
        | nil => exact ⟨_,hrest.1⟩
        | cons d ds => exact ⟨_,hrest.1⟩
      obtain ⟨d,hd⟩ := hsome
      rw [lastPbuf,hd]
      rw [hd] at hrest
      exact ih (by simpa using hfuel) hrest

theorem chain_pbufChain {x p : Fin n} {l ms : List (Fin n)} (hc : Chain heap (some x) l)
    (hn : l.Nodup) (hp : Chain heap (some p) ms) (hdisjoint : ∀ a ∈ l, a ∉ ms) :
    Chain (pbufChain x p heap) (some x) (l ++ ms) := by
  have hne : l ≠ [] := by
    rintro rfl
    cases hc
  obtain ⟨as,a,rfl⟩ := (List.eq_nil_or_concat' l).resolve_left hne
  have hlen : as.length ≤ n := by
    have hle := hn.length_le_card
    simp at hle
    omega
  rw [List.append_assoc,List.singleton_append]
  refine (Chain.join hc hp hn (hdisjoint a (by simp))).congr fun b _ => ?_
  simp [pbufChain,pbufRef,pbufCat,lastPbuf_chain hlen hc]

end Chained

/-- es.pin is the chain l. A pbuf that was linked behind another one is counted twice, and
the count of the first one may also keep the pointer it got when es.pin moved to it. -/
structure Buffers.Linked {n : Nat} (b : Buffers n) (l : List (Fin n)) : Prop where
  chain : Chain b.heap b.pin l
  nodup : l.Nodup
  used : ∀ a ∈ l, 1 ≤ (b.heap a).ref.toNat ∧ (b.heap a).ref.toNat ≤ 3
  behind : ∀ a ∈ l.tail, (b.heap a).ref.toNat ≤ 2
  fresh : b.state = .accepted → b.pin = none

namespace Buffers.Linked
variable {n : Nat} {b : Buffers n} {l : List (Fin n)}

theorem nil (h : b.Linked l) (hp : b.pin = none) : l = [] := by
  have hc := h.chain
  rw [hp] at hc
  exact hc.nil

theorem not_mem (h : b.Linked l) {ids : List (Fin n)} (hd : b.Deliverable ids) {a : Fin n}
    (ha : a ∈ l) : a ∉ ids := by
  intro hm
  have hused := (h.used a ha).1
  rw [hd.2 a hm] at hused
  simp at hused

theorem state (h : b.Linked l) {state : EsState} (hs : state ≠ .accepted) :
    Linked { b with state := state } l :=
  ⟨h.chain,h.nodup,h.used,h.behind,fun he => absurd he hs⟩

theorem take (h : b.Linked l) (hp : b.pin = none) {p : Fin n} {rest : List (Fin n)}
    (hd : b.Deliverable (p :: rest)) :
    Linked ⟨.receiving,some p,deliver (p :: rest) b.heap⟩ (l ++ p :: rest) := by
  have hone : ∀ a ∈ p :: rest, (deliver (p :: rest) b.heap a).ref = 1 := by
    intro a ha
    rw [deliver_ref,if_pos ha]
  rw [h.nil hp,List.nil_append]
  refine ⟨deliver_chain hd.1,hd.1,?_,?_,by simp⟩
  · intro a ha
    simp [hone a ha]
  · intro a ha
    simp [hone a (List.mem_of_mem_tail ha)]

theorem append (h : b.Linked l) {x : Fin n} (hx : b.pin = some x) {p : Fin n}
    {rest : List (Fin n)} (hd : b.Deliverable (p :: rest)) :
    Linked ⟨.receiving,some x,pbufChain x p (deliver (p :: rest) b.heap)⟩ (l ++ p :: rest) := by
  have hkept : ∀ a ∈ l, deliver (p :: rest) b.heap a = b.heap a :=
    fun a ha => deliver_of_not_mem (h.not_mem hd ha)
  have hold : ∀ a ∈ l, (pbufChain x p (deliver (p :: rest) b.heap) a).ref = (b.heap a).ref := by
    intro a ha
    have hap : a ≠ p := fun he => h.not_mem hd ha (by simp [he])
    rw [pbufChain,pbufRef,share,setRef_ne _ hap,pbufCat_ref,hkept a ha]
  have hnew : ∀ a ∈ p :: rest,
      1 ≤ (pbufChain x p (deliver (p :: rest) b.heap) a).ref.toNat ∧
        (pbufChain x p (deliver (p :: rest) b.heap) a).ref.toNat ≤ 2 := by
    intro a ha
    have hone : (pbufCat x p (deliver (p :: rest) b.heap) a).ref = 1 := by
      rw [pbufCat_ref,deliver_ref,if_pos ha]
    by_cases hap : a = p
    · subst hap
      rw [pbufChain,pbufRef,share,setRef_self,hone]
      decide
    · rw [pbufChain,pbufRef,share,setRef_ne _ hap,hone]
      decide
  have hchain : Chain (deliver (p :: rest) b.heap) (some x) l := by
    rw [← hx]
    exact h.chain.congr fun a ha => by rw [hkept a ha]
  refine ⟨chain_pbufChain hchain h.nodup (deliver_chain hd.1) fun a ha => h.not_mem hd ha,?_,?_,?_,
    by simp⟩
  · exact List.nodup_append.mpr ⟨h.nodup,hd.1,fun a ha c hc he => h.not_mem hd ha (he ▸ hc)⟩
  · intro a ha
    obtain ha | ha := List.mem_append.mp ha
    · rw [hold a ha]
      exact h.used a ha
    · exact ⟨(hnew a ha).1,(hnew a ha).2.trans (by decide)⟩
  · intro a ha
    have hl : l ≠ [] := by
      rintro rfl
      have hc := h.chain
      rw [hx] at hc
      cases hc
    rw [List.tail_append_of_ne_nil hl] at ha
    obtain ha | ha := List.mem_append.mp ha
    · rw [hold a (List.mem_of_mem_tail ha)]
      exact h.behind a ha
    · exact (hnew a ha).2

theorem refuse (h : b.Linked l) {p : Fin n} {rest : List (Fin n)}
    (hd : b.Deliverable (p :: rest)) :
    Linked { b with heap := pbufFree p (deliver (p :: rest) b.heap) } l := by
  refine ⟨h.chain.congr ?_,h.nodup,?_,?_,h.fresh⟩
  · intro a ha
    rw [pbufFree,release_next,deliver_of_not_mem (h.not_mem hd ha)]
  · intro a ha
    rw [hd.refused_ref]
    exact h.used a ha
  · intro a ha
    rw [hd.refused_ref]
    exact h.behind a ha

theorem recv (h : b.Linked l) {p : Fin n} {rest : List (Fin n)} (hd : b.Deliverable (p :: rest))
    (ok : Bool) :
    (ok = true ∧ (b.state = .accepted ∨ b.state = .receiving) ∧
      (b.step (.recv p rest ok)).Linked (l ++ p :: rest)) ∨
    ((ok = false ∨ b.state = .none ∨ b.state = .closing) ∧
      (b.step (.recv p rest ok)).state = b.state ∧ (b.step (.recv p rest ok)).Linked l) := by
  have hrefuse := h.refuse hd
  simp only [Buffers.step,if_pos hd]
  cases ok with
  | false => exact .inr ⟨.inl rfl,rfl,hrefuse⟩
  | true =>
    unfold serverRecvCallback
    cases hs : b.state with
    | none => exact .inr ⟨.inr (.inl rfl),rfl,by simpa [hs] using hrefuse⟩
    | closing => exact .inr ⟨.inr (.inr rfl),rfl,by simpa [hs] using hrefuse⟩
    | accepted => exact .inl ⟨rfl,.inl rfl,h.take (h.fresh hs) hd⟩
    | receiving =>
      cases hp : b.pin with
      | none => exact .inl ⟨rfl,.inr rfl,by simpa [hs,hp] using h.take hp hd⟩
      | some x => exact .inl ⟨rfl,.inr rfl,by simpa [hs,hp] using h.append hp hd⟩

/-- Only the pbuf that es.pin moves to gets another count. -/
theorem clear_counts {a : Fin n} {as : List (Fin n)} (h : b.Linked (a :: as)) {x : Fin n}
    (hx : x ∈ as) :
    (pbufFree a (pbufRef (b.heap a).next b.heap) x).ref.toNat = (b.heap x).ref.toNat ∨
      as.head? = some x ∧
        (pbufFree a (pbufRef (b.heap a).next b.heap) x).ref.toNat = (b.heap x).ref.toNat+1 := by
  have hlen : (a :: as).length ≤ n := by simpa using h.nodup.length_le_card
  have hzero : ∀ c ∈ as, (b.heap c).ref ≠ 0 := by
    intro c hmem he
    have hused := (h.used c (by simp [hmem])).1
    rw [he] at hused
    simp at hused
  have hhigh : (b.heap x).ref.toNat ≤ 2 := h.behind x hx
  have hc := h.chain
  rw [hc.1] at hc
  refine (release_front n hlen hc h.nodup hzero hx).imp (congrArg BitVec.toNat) ?_
  rintro ⟨hhead,hmore⟩
  refine ⟨hhead,(congrArg BitVec.toNat hmore).trans ?_⟩
  simp only [BitVec.toNat_add,BitVec.ofNat_eq_ofNat,BitVec.toNat_ofNat]
  omega

theorem clear (h : b.Linked l) : b.ethernetClearPacket.Linked l.tail := by
  unfold ethernetClearPacket
  split
  · rename_i hp
    have hl := h.nil hp
    subst hl
    exact h
  · rename_i a hp
    have hc := h.chain
    rw [hp] at hc
    cases l with
    | nil => cases hc
    | cons c as =>
      cases hc.1
      have hn := (List.nodup_cons.mp h.nodup).2
      refine ⟨hc.2.congr fun x _ => by simp [pbufFree,pbufRef],hn,?_,?_,?_⟩
      · intro x hx
        have hlow := (h.used x (List.mem_of_mem_tail hx)).1
        have hhigh := h.behind x hx
        have hcount := h.clear_counts hx
        constructor <;> dsimp only <;> omega
      · intro x hx
        have hhigh := h.behind x (List.mem_of_mem_tail hx)
        obtain hsame | ⟨hhead,_⟩ := h.clear_counts (List.mem_of_mem_tail hx)
        · exact hsame.trans_le hhigh
        · obtain ⟨cs,rfl⟩ := List.head?_eq_some_iff.mp hhead
          exact absurd hx (List.nodup_cons.mp hn).1
      · intro hs
        rw [h.fresh hs] at hp
        cases hp

end Buffers.Linked

namespace Session
variable {n : Nat} {α : Type} {s : Session n α} {l : List (Fin n)}

def unseen (busy : Bool) (l : List (Fin n)) : List (Fin n) := if busy then l.tail else l

def Open (s : Session n α) : Prop := s.buffers.state = .accepted ∨ s.buffers.state = .receiving

/-- All that was delivered has been presented or waits in the chain, but for what came
after the end of the connection. -/
structure Ordered (s : Session n α) (l : List (Fin n)) : Prop where
  linked : s.buffers.Linked l
  order : ∃ lost, s.delivered = s.presented ++ (unseen s.busy l).map s.payload ++ lost ∧
    (s.Open → lost = [])
  current : s.busy = true → ∃ a as, l = a :: as ∧ s.presented.getLast? = some (s.payload a)

theorem mem_of_mem_unseen {busy : Bool} {a : Fin n} (ha : a ∈ unseen busy l) : a ∈ l := by
  cases busy with
  | false => exact ha
  | true => exact List.mem_of_mem_tail ha

theorem Ordered.unseen_append (h : s.Ordered l) (ids : List (Fin n)) :
    unseen s.busy (l ++ ids) = unseen s.busy l ++ ids := by
  cases hbusy : s.busy with
  | false => rfl
  | true =>
    obtain ⟨a,as,rfl,_⟩ := h.current hbusy
    rfl

theorem Ordered.recv (h : s.Ordered l) (p : Fin n × α) (rest : List (Fin n × α)) (ok : Bool) :
    ∃ l', (s.step (.recv p rest ok)).Ordered l' := by
  obtain ⟨lost,horder,hopen⟩ := h.order
  simp only [step,Session.recv]
  split
  · rename_i hd
    have hkept : ∀ a ∈ l, a ∉ (p :: rest).map Prod.fst := fun a ha => h.linked.not_mem hd ha
    have hunseen : (unseen s.busy l).map (fill (p :: rest) s.payload) =
        (unseen s.busy l).map s.payload :=
      map_fill_of_disjoint fun a ha => hkept a (mem_of_mem_unseen ha)
    have hcurrent (ids : List (Fin n)) : s.busy = true → ∃ a as, l ++ ids = a :: as ∧
        s.presented.getLast? = some (fill (p :: rest) s.payload a) := by
      intro hbusy
      obtain ⟨a,as,rfl,hlast⟩ := h.current hbusy
      refine ⟨a,as ++ ids,rfl,?_⟩
      rw [fill_of_not_mem (hkept a (by simp)),hlast]
    rw [← hunseen] at horder
    obtain ⟨rfl,hstate,hlinked⟩ | ⟨hrefused,hstate,hlinked⟩ := h.linked.recv hd ok
    · -- behind the chain, and behind all that was delivered
      rw [hopen hstate,List.append_nil] at horder
      have hnext : s.delivered ++ (p :: rest).map Prod.snd = s.presented ++
          (unseen s.busy (l ++ (p :: rest).map Prod.fst)).map (fill (p :: rest) s.payload) ++ [] := by
        rw [h.unseen_append,List.map_append,map_fill hd.1,horder]
        simp
      exact ⟨_,hlinked,⟨[],hnext,fun _ => rfl⟩,hcurrent _⟩
    · have hcurrent := hcurrent []
      rw [List.append_nil] at hcurrent
      cases ok with
      | false =>
        refine ⟨l,hlinked,⟨lost,horder,?_⟩,hcurrent⟩
        rw [Open,hstate]
        exact hopen
      | true =>
        have hnext : s.delivered ++ (p :: rest).map Prod.snd = s.presented ++
            (unseen s.busy l).map (fill (p :: rest) s.payload) ++
              (lost ++ (p :: rest).map Prod.snd) := by
          rw [horder,List.append_assoc]
        refine ⟨l,hlinked,⟨_,hnext,?_⟩,hcurrent⟩
        rw [Open,hstate]
        rintro (ho | ho) <;> simp [ho] at hrefused
  · exact ⟨l,h⟩

theorem Ordered.next (h : s.Ordered l) : ∃ l', (s.step .next).Ordered l' := by
  simp only [step]
  split
  · rename_i hbusy
    obtain ⟨lost,horder,hopen⟩ := h.order
    rw [hbusy] at horder
    have hstate : s.buffers.ethernetClearPacket.state = s.buffers.state := by
      unfold Buffers.ethernetClearPacket
      split <;> rfl
    refine ⟨l.tail,h.linked.clear,⟨lost,horder,?_⟩,fun he => by cases he⟩
    rw [Open,hstate]
    exact hopen
  · exact ⟨l,h⟩

theorem Ordered.test (h : s.Ordered l) : ∃ l', (s.step .test).Ordered l' := by
  simp only [step]
  split
  · exact ⟨l,h⟩
  · rename_i hbusy
    split
    · exact ⟨l,h⟩
    · rename_i a hp
      have hc := h.linked.chain
      rw [hp] at hc
      cases l with
      | nil => cases hc
      | cons c as =>
        cases hc.1
        obtain ⟨lost,horder,hopen⟩ := h.order
        rw [Bool.eq_false_iff.mpr hbusy] at horder
        have hnext : s.delivered = (s.presented ++ [s.payload a]) ++
            (unseen true (a :: as)).map s.payload ++ lost := by
          rw [horder]
          simp [unseen]
        refine ⟨a :: as,h.linked,⟨lost,hnext,hopen⟩,fun _ => ⟨a,as,rfl,?_⟩⟩
        exact List.getLast?_concat

theorem Ordered.fin (h : s.Ordered l) (sending : Bool) : (s.step (.fin sending)).Ordered l := by
  obtain ⟨lost,horder,_⟩ := h.order
  have hstate : (if sending then EsState.closing else EsState.none) ≠ .accepted ∧
      (if sending then EsState.closing else EsState.none) ≠ .receiving := by
    cases sending <;> decide
  refine ⟨h.linked.state hstate.1,⟨lost,horder,?_⟩,h.current⟩
  rintro (ho | ho)
  · exact absurd ho hstate.1
  · exact absurd ho hstate.2

theorem Ordered.step (h : s.Ordered l) (e : SessionEvent n α) : ∃ l', (s.step e).Ordered l' := by
  cases e with
  | recv p rest ok => exact h.recv p rest ok
  | fin sending => exact ⟨l,h.fin sending⟩
  | next => exact h.next
  | test => exact h.test

theorem accepted_ordered (heap : Heap (Fin n)) (payload : Fin n → α) :
    (accepted heap payload).Ordered [] :=
  ⟨⟨rfl,List.nodup_nil,by simp,by simp,fun _ => rfl⟩,⟨[],rfl,fun _ => rfl⟩,fun h => by cases h⟩

theorem run_ordered (h : s.Ordered l) (es : List (SessionEvent n α)) :
    ∃ l', (Runs.run Session.step s es).Ordered l' := by
  induction es generalizing s l with
  | nil => exact ⟨l,h⟩
  | cons e es ih =>
    obtain ⟨l',h'⟩ := h.step e
    exact ih h'

end Session

/-- While the consumer is busy es.pin points at the pbuf that was presented last. -/
theorem packets_presented_in_order {n : Nat} {α : Type} (heap : Heap (Fin n)) (payload : Fin n → α)
    (es : List (SessionEvent n α)) :
    let s := Runs.run Session.step (Session.accepted heap payload) es
    s.presented <+: s.delivered ∧
      (s.Open → ∃ l, Chain s.buffers.heap s.buffers.pin l ∧
        s.delivered = s.presented ++ (Session.unseen s.busy l).map s.payload) ∧
      (s.busy = true → ∃ a, s.buffers.pin = some a ∧ s.presented.getLast? = some (s.payload a)) := by
  intro s
  obtain ⟨l,h⟩ := Session.run_ordered (Session.accepted_ordered heap payload) es
  obtain ⟨lost,horder,hopen⟩ := h.order
  refine ⟨⟨_,by rw [horder,List.append_assoc]⟩,?_,?_⟩
  · intro ho
    rw [hopen ho,List.append_nil] at horder
    exact ⟨l,h.linked.chain,horder⟩
  · intro hbusy
    obtain ⟨a,as,rfl,hlast⟩ := h.current hbusy
    exact ⟨a,h.linked.chain.1,hlast⟩

/-- Two chains, the second of which comes while the first is looked at. -/
example : (Runs.run Session.step (Session.accepted (fun _ : Fin 3 => ⟨0,none⟩) fun _ => 'x')
    [.recv (0,'a') [(1,'b')] true,.test,.next,.recv (2,'c') [] true,.test,.next,.test]).presented =
      ['a','b','c'] := by decide

end Stm32Dds.Ethernet
