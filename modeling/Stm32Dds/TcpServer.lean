import Stm32Dds.Runs

/-! The TCP server of ethernet.c under lwIP. A new pcb copies the accept callback of
the listening pcb when its SYN arrives, and the copy is called when the handshake is
complete; the server takes its own callback out of the listening pcb only then. -/

set_option autoImplicit false

namespace Stm32Dds.Ethernet

abbrev PcbId := Nat

inductive EsState
  | none | accepted | receiving | closing
  deriving DecidableEq, Repr

/-- A pcb of lwIP. `served` says that arg, recv, err and poll are the server's. -/
inductive Pcb
  | synRcvd (accept : Bool)
  | established (served sent : Bool)
  | closed
  deriving DecidableEq, Repr

/-- struct server_state. For every pbuf of `pin` there is the connection it came from,
for every pbuf of `pout` its length. -/
structure ServerState where
  state : EsState
  pcb : Option PcbId
  pin : List PcbId
  pout : List Nat
  deriving DecidableEq, Repr

structure Host where
  es : ServerState
  acceptRegistered : Bool
  pcbs : PcbId → Option Pcb

def Host.boot : Host := ⟨⟨.none,none,[],[]⟩,true,fun _ => none⟩

def Host.served (h : Host) (c : PcbId) : Bool :=
  match h.pcbs c with
  | some (.established served _) => served
  | _ => false

def Host.setPcb (h : Host) (c : PcbId) (p : Option Pcb) : Host :=
  { h with pcbs := Function.update h.pcbs c p }

def serverAcceptCallback (newpcb : PcbId) (h : Host) : Host :=
  { h.setPcb newpcb (some (.established true false)) with
    es := ⟨.accepted,some newpcb,[],[]⟩
    acceptRegistered := false }

def serverConnectionClose (pcb : PcbId) (h : Host) : Host :=
  { h.setPcb pcb (some .closed) with
    es := { h.es with pcb := none, state := .none }
    acceptRegistered := true }

def installSent (pcb : PcbId) (h : Host) : Host :=
  match h.pcbs pcb with
  | some (.established served _) => h.setPcb pcb (some (.established served true))
  | _ => h

/-- The loop of server_send: for each round the room in the send buffer and whether
tcp_write succeeds. -/
def serverSend : List (Nat × Bool) → List Nat → List Nat
  | _, [] => []
  | [], pout => pout
  | (room,ok) :: rounds, len :: pout =>
    if len ≤ room ∧ ok then serverSend rounds pout else len :: pout

def Host.send (rounds : List (Nat × Bool)) (h : Host) : Host :=
  { h with es := { h.es with pout := serverSend rounds h.es.pout } }

/-- `p` is the number of pbufs in the chain, or NULL at the end of the stream. -/
def serverRecvCallback (pcb : PcbId) (p : Option Nat) (ok : Bool) (rounds : List (Nat × Bool))
    (h : Host) : Host :=
  match p with
  | none =>
    let h := { h with es := { h.es with state := .closing } }
    if h.es.pout = [] then serverConnectionClose pcb h else (installSent pcb h).send rounds
  | some n =>
    let chain := List.replicate n pcb
    if ok then
      match h.es.state with
      | .accepted => { installSent pcb h with
          es := { h.es with state := .receiving, pin := chain } }
      | .receiving => { h with
          es := { h.es with pin := if h.es.pin ≠ [] then h.es.pin ++ chain else chain } }
      | _ => h
    else h

/-- mem_free(arg) on &es, which is outside of the heap of lwIP: nothing happens. -/
def serverErrCallback (h : Host) : Host := h

-- server_poll_callback and server_sent_callback have the same body
def serverPollCallback (pcb : PcbId) (rounds : List (Nat × Bool)) (h : Host) : Host :=
  if h.es.pout ≠ [] then h.send rounds
  else if h.es.state = .closing then serverConnectionClose pcb h
  else h

def serverSentCallback (pcb : PcbId) (rounds : List (Nat × Bool)) (h : Host) : Host :=
  serverPollCallback pcb rounds h

/-- `ended` is a reset, an abort or a timeout. `next` is ethernet_clear_packet. -/
inductive Event
  | syn (c : PcbId)
  | handshake (c : PcbId)
  | data (c : PcbId) (n : Nat)
  | fin (c : PcbId) (rounds : List (Nat × Bool))
  | ended (c : PcbId)
  | poll (c : PcbId) (rounds : List (Nat × Bool))
  | sent (c : PcbId) (rounds : List (Nat × Bool))
  | next

def Host.step (h : Host) : Event → Host
  | .syn c =>
    match h.pcbs c with
    | none => h.setPcb c (some (.synRcvd h.acceptRegistered))
    | some _ => h
  | .handshake c =>
    match h.pcbs c with
    | some (.synRcvd true) => serverAcceptCallback c h
    | some (.synRcvd false) => h.setPcb c none
    | _ => h
  | .data c n => if h.served c then serverRecvCallback c (some n) true [] h else h
  | .fin c rounds => if h.served c then serverRecvCallback c none true rounds h else h
  | .ended c =>
    if h.served c then serverErrCallback (h.setPcb c none) else h.setPcb c none
  | .poll c rounds => if h.served c then serverPollCallback c rounds h else h
  | .sent c rounds =>
    match h.pcbs c with
    | some (.established _ true) => serverSentCallback c rounds h
    | _ => h
  | .next => { h with es := { h.es with pin := h.es.pin.tail } }

section
variable {h : Host} {c d : PcbId} {p : Option Pcb}

@[simp] theorem setPcb_accept : (h.setPcb c p).acceptRegistered = h.acceptRegistered := rfl

theorem served_setPcb_self : (h.setPcb c p).served c =
    match p with
    | some (.established served _) => served
    | _ => false := by
  simp [Host.served,Host.setPcb]

theorem served_setPcb_ne (hd : d ≠ c) : (h.setPcb c p).served d = h.served d := by
  simp [Host.served,Host.setPcb,hd]

theorem served_accept : (serverAcceptCallback c h).served d = if d = c then true else h.served d := by
  by_cases hd : d = c
  · simp [Host.served,serverAcceptCallback,Host.setPcb,hd]
  · simp [Host.served,serverAcceptCallback,Host.setPcb,hd]

theorem served_close :
    (serverConnectionClose c h).served d = if d = c then false else h.served d := by
  by_cases hd : d = c
  · simp [Host.served,serverConnectionClose,Host.setPcb,hd]
  · simp [Host.served,serverConnectionClose,Host.setPcb,hd]

theorem served_installSent : (installSent c h).served d = h.served d := by
  unfold installSent
  split
  · rename_i served sent hc
    by_cases hd : d = c
    · subst hd
      simp [Host.served,Host.setPcb,hc]
    · exact served_setPcb_ne hd
  · rfl

theorem served_setPcb_of_not {q : Option Pcb} (hc : h.served c = false)
    (hq : ∀ served sent, q = some (.established served sent) → served = false) :
    (h.setPcb c q).served d = h.served d := by
  by_cases hd : d = c
  · subst hd
    rw [served_setPcb_self,hc]
    split
    · exact hq _ _ rfl
    · rfl
  · exact served_setPcb_ne hd

@[simp] theorem installSent_accept : (installSent c h).acceptRegistered = h.acceptRegistered := by
  unfold installSent
  split <;> rfl

end

/-- Nothing is waiting to be sent. Nobody ever puts anything into es.pout. -/
def Host.Idle (h : Host) : Prop := h.es.pout = [] ∧ h.es.state ≠ .closing

/-- What the steps that neither accept nor end a connection of the server can do. -/
structure Frame (h next : Host) : Prop where
  served : ∀ d, next.served d = h.served d
  accept : next.acceptRegistered = h.acceptRegistered
  pcb : next.es.pcb = h.es.pcb
  pin : ∀ d ∈ next.es.pin, d ∈ h.es.pin ∨ h.served d = true
  state : next.es.state = h.es.state ∨ ∃ d, h.served d = true

theorem Frame.of_es {h next : Host} (hserved : ∀ d, next.served d = h.served d)
    (haccept : next.acceptRegistered = h.acceptRegistered) (hes : next.es = h.es) :
    Frame h next :=
  ⟨hserved,haccept,by rw [hes],fun d hd => Or.inl (hes ▸ hd),Or.inl (by rw [hes])⟩

theorem Frame.refl (h : Host) : Frame h h := Frame.of_es (fun _ => rfl) rfl rfl

theorem recv_frame {h : Host} {c : PcbId} (hc : h.served c = true) (n : Nat)
    (rounds : List (Nat × Bool)) : Frame h (serverRecvCallback c (some n) true rounds h) := by
  have hpin : ∀ d ∈ List.replicate n c, h.served d = true := by
    intro d hd
    rw [List.eq_of_mem_replicate hd]
    exact hc
  simp only [serverRecvCallback,if_true]
  split
  · exact ⟨fun d => served_installSent,installSent_accept,rfl,fun d hd => Or.inr (hpin d hd),
      Or.inr ⟨c,hc⟩⟩
  · refine ⟨fun _ => rfl,rfl,rfl,?_,Or.inl rfl⟩
    intro d hd
    dsimp only at hd
    split at hd
    · exact (List.mem_append.mp hd).imp id (hpin d)
    · exact Or.inr (hpin d hd)
  · exact Frame.refl h

theorem Host.Idle.poll {h : Host} (hi : h.Idle) (c : PcbId) (rounds : List (Nat × Bool)) :
    serverPollCallback c rounds h = h := by
  simp [serverPollCallback,hi.1,hi.2]

theorem Host.Idle.fin {h : Host} (hi : h.Idle) (c : PcbId) (rounds : List (Nat × Bool)) :
    serverRecvCallback c none true rounds h = serverConnectionClose c h := by
  simp [serverRecvCallback,hi.1,serverConnectionClose,Host.setPcb]

theorem step_cases {h : Host} (hi : h.Idle) (e : Event) :
    (∃ c, e = .handshake c ∧ h.pcbs c = some (.synRcvd true) ∧
      h.step e = serverAcceptCallback c h) ∨
    (∃ c rounds, e = .fin c rounds ∧ h.served c = true ∧
      h.step e = serverConnectionClose c h) ∨
    (∃ c, e = .ended c ∧ h.served c = true ∧ h.step e = h.setPcb c none) ∨
    Frame h (h.step e) := by
  cases e with
  | syn c =>
    refine Or.inr (Or.inr (Or.inr ?_))
    simp only [Host.step]
    split
    · rename_i hc
      have hs : h.served c = false := by simp [Host.served,hc]
      exact Frame.of_es (fun d => served_setPcb_of_not hs (by simp)) rfl rfl
    · exact Frame.refl h
  | handshake c =>
    simp only [Host.step]
    split
    · rename_i hc
      exact Or.inl ⟨c,rfl,hc,rfl⟩
    · rename_i hc
      have hs : h.served c = false := by simp [Host.served,hc]
      exact Or.inr (Or.inr (Or.inr
        (Frame.of_es (fun d => served_setPcb_of_not hs (by simp)) rfl rfl)))
    · exact Or.inr (Or.inr (Or.inr (Frame.refl h)))
  | data c n =>
    refine Or.inr (Or.inr (Or.inr ?_))
    simp only [Host.step]
    split
    · rename_i hc
      exact recv_frame hc n []
    · exact Frame.refl h
  | fin c rounds =>
    simp only [Host.step]
    split
    · rename_i hc
      exact Or.inr (Or.inl ⟨c,rounds,rfl,hc,hi.fin c rounds⟩)
    · exact Or.inr (Or.inr (Or.inr (Frame.refl h)))
  | ended c =>
    simp only [Host.step]
    split
    · rename_i hc
      exact Or.inr (Or.inr (Or.inl ⟨c,rfl,hc,rfl⟩))
    · rename_i hc
      exact Or.inr (Or.inr (Or.inr
        (Frame.of_es (fun d => served_setPcb_of_not (by simpa using hc) (by simp)) rfl rfl)))
  | poll c rounds =>
    refine Or.inr (Or.inr (Or.inr ?_))
    simp only [Host.step,hi.poll,ite_self]
    exact Frame.refl h
  | sent c rounds =>
    refine Or.inr (Or.inr (Or.inr ?_))
    simp only [Host.step,serverSentCallback,hi.poll]
    split <;> exact Frame.refl h
  | next =>
    exact Or.inr (Or.inr (Or.inr
      ⟨fun _ => rfl,rfl,rfl,fun d hd => Or.inl (List.mem_of_mem_tail hd),Or.inl rfl⟩))

theorem step_idle {h : Host} (hi : h.Idle) (e : Event) : (h.step e).Idle := by
  cases e with
  | syn c =>
    simp only [Host.step]
    split <;> exact hi
  | handshake c =>
    simp only [Host.step]
    split
    · exact ⟨rfl,by simp [serverAcceptCallback]⟩
    · exact hi
    · exact hi
  | data c n =>
    simp only [Host.step,serverRecvCallback,if_true]
    split
    · split
      · exact ⟨hi.1,by simp⟩
      · exact hi
      · exact hi
    · exact hi
  | fin c rounds =>
    simp only [Host.step,hi.fin]
    split
    · exact ⟨hi.1,by simp [serverConnectionClose]⟩
    · exact hi
  | ended c =>
    simp only [Host.step,serverErrCallback,ite_self]
    exact hi
  | poll c rounds =>
    simp only [Host.step,hi.poll,ite_self]
    exact hi
  | sent c rounds =>
    simp only [Host.step,serverSentCallback,hi.poll]
    split <;> exact hi
  | next => exact hi

/-- One client at most owns the session, and what is in es.pin is its data. -/
structure Host.Exclusive (h : Host) : Prop where
  owner : ∀ c, h.served c = true → h.es.pcb = some c
  data : ∀ c, h.es.pcb = some c → ∀ d ∈ h.es.pin, d = c

/-- A handshake that calls server_accept_callback is completed while the server has
no other connection. -/
def AcceptsAlone (h : Host) : Event → Prop
  | .handshake c => h.pcbs c = some (.synRcvd true) → ∀ d, h.served d = false
  | _ => True

theorem accept_exclusive {h : Host} (c : PcbId) (hnone : ∀ d, h.served d = false) :
    (serverAcceptCallback c h).Exclusive := by
  constructor
  · intro d hd
    rw [served_accept,hnone d] at hd
    by_cases hdc : d = c
    · rw [hdc]
      rfl
    · simp [hdc] at hd
  · intro d _ a hpin
    cases hpin

theorem close_exclusive {h : Host} (hx : h.Exclusive) {c : PcbId} (hc : h.served c = true) :
    (serverConnectionClose c h).Exclusive := by
  constructor
  · intro d hd
    rw [served_close] at hd
    by_cases hdc : d = c
    · simp [hdc] at hd
    · have hd' : h.served d = true := by simpa [hdc] using hd
      exact absurd (Option.some.inj ((hx.owner d hd').symm.trans (hx.owner c hc))) hdc
  · intro d hd
    cases hd

theorem ended_exclusive {h : Host} (hx : h.Exclusive) (c : PcbId) :
    (h.setPcb c none).Exclusive := by
  refine ⟨?_,hx.data⟩
  intro d hd
  by_cases hdc : d = c
  · rw [hdc,served_setPcb_self] at hd
    cases hd
  · exact hx.owner d (by rwa [served_setPcb_ne hdc] at hd)

theorem Frame.exclusive {h next : Host} (hf : Frame h next) (hx : h.Exclusive) :
    next.Exclusive := by
  constructor
  · intro d hd
    rw [hf.served] at hd
    rw [hf.pcb]
    exact hx.owner d hd
  · intro d hd a hpin
    rw [hf.pcb] at hd
    cases hf.pin a hpin with
    | inl hold => exact hx.data d hd a hold
    | inr hserved => exact Option.some.inj ((hx.owner a hserved).symm.trans hd)

theorem exclusive_step {h : Host} (hi : h.Idle) (hx : h.Exclusive) {e : Event}
    (ha : AcceptsAlone h e) : (h.step e).Exclusive := by
  obtain ⟨c,rfl,hc,hs⟩ | ⟨c,rounds,rfl,hc,hs⟩ | ⟨c,rfl,hc,hs⟩ | hf := step_cases hi e
  · rw [hs]
    exact accept_exclusive c (ha hc)
  · rw [hs]
    exact close_exclusive hx hc
  · rw [hs]
    exact ended_exclusive hx c
  · exact hf.exclusive hx

theorem exclusive_lost {h : Host} {e : Event} (ha : ¬ AcceptsAlone h e) :
    ¬ (h.step e).Exclusive := by
  cases e with
  | handshake c =>
    simp only [AcceptsAlone,not_forall] at ha
    obtain ⟨hc,d,hd⟩ := ha
    have hd' : h.served d = true := by simpa using hd
    have hdc : d ≠ c := by
      intro he
      subst he
      simp [Host.served,hc] at hd'
    intro hx
    have hs : h.step (.handshake c) = serverAcceptCallback c h := by simp [Host.step,hc]
    rw [hs] at hx
    have howner := hx.owner d (by rw [served_accept]; simp [hdc,hd'])
    exact hdc (Option.some.inj howner).symm
  | _ => exact absurd trivial ha

theorem boot_idle : Host.boot.Idle := ⟨rfl,by simp [Host.boot]⟩

/-- The session is exclusive all along exactly when no two handshakes that were begun
under the accept callback overlap with a connection. -/
theorem session_exclusive_iff (es : List Event) :
    Runs.Throughout Host.step Host.Exclusive Host.boot es ↔
      Runs.Along Host.step AcceptsAlone Host.boot es := by
  apply Runs.throughout_iff_along Host.step (I := fun h => h.Idle ∧ h.Exclusive)
  · intro h hi
    exact hi.2
  · intro h e hi ha
    exact ⟨step_idle hi.1 e,exclusive_step hi.1 hi.2 ha⟩
  · intro h e _ ha
    exact exclusive_lost ha
  · exact ⟨boot_idle,by simp [Host.boot,Host.served],by simp [Host.boot]⟩

/-- Two SYNs before the first handshake is complete: the second client takes over. -/
theorem second_handshake_takes_over :
    ¬ Runs.Throughout Host.step Host.Exclusive Host.boot
      [.syn 1,.syn 2,.handshake 1,.handshake 2] := by
  intro h
  have howner := (h _ (List.prefix_refl _)).owner 1 rfl
  cases howner

/-- The server accepts exactly when it has no connection, and then it is as at the start. -/
structure Host.Available (h : Host) : Prop where
  accepts : h.acceptRegistered = true ↔ ∀ c, h.served c = false
  clean : (∀ c, h.served c = false) → h.es.pcb = none ∧ h.es.state = .none

/-- The last connection ends by a FIN, and only the last one does. -/
def EndsInOrder (h : Host) : Event → Prop
  | .fin c _ => h.served c = true → ∀ d, d ≠ c → h.served d = false
  | .ended c => h.served c = true → ∃ d, d ≠ c ∧ h.served d = true
  | _ => True

theorem accept_available (h : Host) (c : PcbId) : (serverAcceptCallback c h).Available := by
  have hserved : ¬ ∀ d, (serverAcceptCallback c h).served d = false := by
    intro hnone
    have hc := hnone c
    simp [served_accept] at hc
  exact ⟨⟨fun ha => Bool.noConfusion ha,fun hnone => absurd hnone hserved⟩,
    fun hnone => absurd hnone hserved⟩

theorem close_available_iff (h : Host) (c : PcbId) :
    (serverConnectionClose c h).Available ↔ ∀ d, d ≠ c → h.served d = false := by
  have hserved : (∀ d, (serverConnectionClose c h).served d = false) ↔
      ∀ d, d ≠ c → h.served d = false := by
    constructor
    · intro hnone d hd
      simpa [served_close,hd] using hnone d
    · intro hnone d
      by_cases hd : d = c
      · simp [served_close,hd]
      · simp [served_close,hd,hnone d hd]
  constructor
  · intro ha
    exact hserved.mp (ha.accepts.mp rfl)
  · intro hnone
    exact ⟨⟨fun _ => hserved.mpr hnone,fun _ => rfl⟩,fun _ => ⟨rfl,rfl⟩⟩

theorem ended_available_iff {h : Host} (ha : h.Available) {c : PcbId} (hc : h.served c = true) :
    (h.setPcb c none).Available ↔ ∃ d, d ≠ c ∧ h.served d = true := by
  have hreg : h.acceptRegistered = false := by
    cases hr : h.acceptRegistered with
    | false => rfl
    | true =>
      rw [ha.accepts.mp hr c] at hc
      cases hc
  constructor
  · intro hnext
    by_contra hno
    have hnone : ∀ d, (h.setPcb c none).served d = false := by
      intro d
      by_cases hd : d = c
      · rw [hd,served_setPcb_self]
      · rw [served_setPcb_ne hd]
        by_contra hs
        exact hno ⟨d,hd,by simpa using hs⟩
    have hon := hnext.accepts.mpr hnone
    rw [setPcb_accept,hreg] at hon
    cases hon
  · rintro ⟨d,hd,hs⟩
    have hsome : ¬ ∀ d, (h.setPcb c none).served d = false := by
      intro hnone
      have hdn := hnone d
      rw [served_setPcb_ne hd,hs] at hdn
      cases hdn
    refine ⟨⟨fun hon => ?_,fun hnone => absurd hnone hsome⟩,fun hnone => absurd hnone hsome⟩
    rw [setPcb_accept,hreg] at hon
    cases hon

theorem Frame.available {h next : Host} (hf : Frame h next) (ha : h.Available) :
    next.Available := by
  have hserved : (∀ c, next.served c = false) ↔ ∀ c, h.served c = false := by
    simp only [hf.served]
  refine ⟨by rw [hf.accept,ha.accepts,hserved],fun hnone => ?_⟩
  have hold := hserved.mp hnone
  obtain ⟨hpcb,hstate⟩ := ha.clean hold
  refine ⟨hf.pcb.trans hpcb,?_⟩
  cases hf.state with
  | inl hsame => exact hsame.trans hstate
  | inr hsome =>
    obtain ⟨d,hd⟩ := hsome
    rw [hold d] at hd
    cases hd

theorem available_step {h : Host} (hi : h.Idle) (ha : h.Available) {e : Event}
    (ho : EndsInOrder h e) : (h.step e).Available := by
  obtain ⟨c,rfl,hc,hs⟩ | ⟨c,rounds,rfl,hc,hs⟩ | ⟨c,rfl,hc,hs⟩ | hf := step_cases hi e
  · rw [hs]
    exact accept_available h c
  · rw [hs,close_available_iff]
    exact ho hc
  · rw [hs,ended_available_iff ha hc]
    exact ho hc
  · exact hf.available ha

theorem available_lost {h : Host} (hi : h.Idle) (ha : h.Available) {e : Event}
    (ho : ¬ EndsInOrder h e) : ¬ (h.step e).Available := by
  cases e with
  | fin c rounds =>
    obtain ⟨hc,hother⟩ := Classical.not_imp.mp ho
    have hs : h.step (.fin c rounds) = serverConnectionClose c h := by
      simp only [Host.step,hc,if_true,hi.fin]
    rw [hs,close_available_iff]
    exact hother
  | ended c =>
    obtain ⟨hc,hother⟩ := Classical.not_imp.mp ho
    have hs : h.step (.ended c) = h.setPcb c none := by
      simp only [Host.step,hc,if_true,serverErrCallback]
    rw [hs,ended_available_iff ha hc]
    exact hother
  | _ => exact absurd trivial ho

/-- The server is available all along exactly when its last connection always ends
by a FIN, and a connection ends by a FIN only as the last one. -/
theorem server_available_iff (es : List Event) :
    Runs.Throughout Host.step Host.Available Host.boot es ↔
      Runs.Along Host.step EndsInOrder Host.boot es := by
  apply Runs.throughout_iff_along Host.step (I := fun h => h.Idle ∧ h.Available)
  · intro h hi
    exact hi.2
  · intro h e hi ho
    exact ⟨step_idle hi.1 e,available_step hi.1 hi.2 ho⟩
  · intro h e hi ho
    exact available_lost hi.1 hi.2 ho
  · exact ⟨boot_idle,by simp [Host.boot,Host.served],by simp [Host.boot]⟩

/-- After a reset nobody can connect any more. -/
theorem reset_leaves_deaf :
    ¬ Runs.Throughout Host.step Host.Available Host.boot [.syn 1,.handshake 1,.ended 1] := by
  intro h
  have hclean := (h _ (List.prefix_refl _)).clean
  have hnone : ∀ c, (Runs.run Host.step Host.boot
      [.syn 1,.handshake 1,.ended 1]).served c = false := by
    intro c
    simp [Runs.run,Host.step,Host.boot,Host.served,Host.setPcb,serverAcceptCallback,
      serverErrCallback]
  cases (hclean hnone).1

end Stm32Dds.Ethernet
