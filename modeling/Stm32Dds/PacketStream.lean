import Stm32Dds.BlockUnits
import Stm32Dds.ScpiParser

/-! ethernet_loop on the bytes of one connection. The loop parses the pbuf at the head
of es.pin; the callback of PARallel:DATa takes the bytes of its block from there and
from the pbufs that follow, and leaves es.pin where the block ends. -/

set_option autoImplicit false

namespace Stm32Dds.Stream
open Bytes Lexer

abbrev Pbuf := List Byte

def bytes (ps : List Pbuf) : Nat := (ps.map List.length).sum

/-- A unit that SCPI_Parse has looked up, or reported as invalid; the place in the stream
where it starts, and the pattern of the command table that its header has selected. -/
structure Handled where
  position : Nat
  unit : Message
  command : Option String
  deriving DecidableEq, Repr

/-- es.pin, what the coming polls of the network bring to server_recv_callback, and the
sample buffer. The counters are for the bytes that lwIP has delivered, those of the
pbufs that were released, and those reported to tcp_recved; the only call of
tcp_recved is in ethernet_get_data, which nothing calls. -/
structure Conn where
  pin : List Pbuf
  arrivals : List (List Pbuf)
  received : Nat
  consumed : Nat
  credited : Nat
  handled : List Handled
  parallel : Scpi.Parallel

def tcpWnd : Nat := 2*(1500-40)

/-- rcv_wnd: a segment lowers it, tcp_recved raises it. -/
def Conn.window (c : Conn) : Int := tcpWnd - c.received + c.credited

def Conn.queue (c : Conn) : List Pbuf := c.pin ++ c.arrivals.flatten

def Conn.accepted (arrivals : List (List Pbuf)) : Conn :=
  ⟨[],arrivals,0,0,0,[],⟨fun _ => 0,0,0⟩⟩

/-- In ES_ACCEPTED es.pin is NULL, and the same is done as in ES_RECEIVING. -/
def serverRecvCallback (p : List Pbuf) (c : Conn) : Conn :=
  { c with
    pin := if c.pin ≠ [] then c.pin ++ p else p
    received := c.received + bytes p }

def ethernetClearPacket (c : Conn) : Conn :=
  match c.pin with
  | [] => c
  | ptr :: pin => { c with pin := pin, consumed := c.consumed+ptr.length }

/-- The loop of ethernet_next_packet. An error is the state in which it still waits
when nothing more arrives. -/
def poll : List (List Pbuf) → Conn → Except Conn Conn
  | [], c => if c.pin = [] then .error c else .ok c
  | p :: arrivals, c =>
    let c := { serverRecvCallback p c with arrivals := arrivals }
    if c.pin = [] then poll arrivals c else .ok c

def ethernetNextPacket (c : Conn) : Except Conn Conn :=
  let c := ethernetClearPacket c
  poll c.arrivals c

/-- How a run ends: in ethernet_loop or in ethernet_copy_data, waiting for a packet; or
with a NULL pointer or a length that wraps. -/
inductive Stop
  | loop (c : Conn)
  | copy (c : Conn)
  | fault
  | outOfFuel

def Conn.memcpy (i : Nat) (data : List Byte) (c : Conn) : Conn :=
  { c with parallel := { c.parallel with
    buffer := fun j => if i ≤ j then data.getD (j-i) (c.parallel.buffer j)
      else c.parallel.buffer j } }

def Conn.setLength (len : Nat) (c : Conn) : Conn :=
  { c with parallel := { c.parallel with length := BitVec.ofNat 32 len } }

def copyLoop (len : Nat) : Nat → Nat → Nat → Conn → Except Stop (Nat × Conn)
  | 0, _, _, _ => .error .outOfFuel
  | fuel+1, i, offset, c =>
    if i < len then
      match c.pin with
      | [] => .error .fault
      | p :: _ =>
        if p.length < offset then .error .fault
        else
          let copyLen := min (p.length-offset) (len-i)
          let c := c.memcpy i ((p.drop offset).take copyLen)
          let i := i+copyLen
          if i < len then
            match ethernetNextPacket c with
            | .error c => .error (.copy c)
            | .ok c => copyLoop len fuel i 0 c
          else .ok (i,c)
    else .ok (i,c)

def ethernetCopyData (len offset : Nat) (c : Conn) : Except Stop (Nat × Conn) :=
  copyLoop len (c.queue.length+1) 0 offset c

/-- The memmove of composeCompoundCommand in the pbuf at hand. -/
def Conn.memmove (i : Nat) (path : List Char) (c : Conn) : Conn :=
  { c with pin := c.pin.modifyHead fun p =>
      p.mapIdx fun j b => if i ≤ j then (path.map chr).getD (j-i) b else b }

/-- `shift` is how far composeCompoundCommand has moved the header to the front. -/
def scpiCallbackParallelData (m : Message) (shift : Nat) (c : Conn) : Except Stop Conn :=
  let param := scpiParserParseProgramData m.data
  if param.type ≠ .arbitraryBlockProgramData ∨ param.len > Scpi.parallelBufSize then .ok c
  else
    -- lex_state.pos - cmd_raw.data - len
    let offset := m.dataAt+param.skip + shift - m.headerAt - param.len
    (ethernetCopyData param.len offset (c.setLength param.len)).map Prod.snd

def chars (text : List Byte) : List Char := text.map fun b => Char.ofNat b.toNat

def findPattern (header : List Char) : Option String :=
  (Scpi.scpiCommands.find? fun e => Scpi.matchCommand e.1.toList header).map Prod.fst

def parallelData : String := "PARallel:DATa"

def unitHeader (m : Message) : Scpi.UnitHeader :=
  ⟨m.invalid,chars m.header,m.headerAt,m.size⟩

/-- The command a unit is looked up as behind other units. -/
def foundCommand (prev : Scpi.Previous) (m : Message) : Option String :=
  if m.invalid then none
  else findPattern (Scpi.composeCompoundCommand prev.header (chars m.header))

/-- cmd_prev, and the place of the data pointer in the stream. -/
structure Parse where
  prev : Scpi.Previous
  position : Nat
  conn : Conn

/-- No callback moves es.pin while a unit is still to be parsed, so that the unit is in the
pbuf at hand. -/
def handle (m : Message) (p : Parse) : Except Stop Parse :=
  let conn := { p.conn with handled := p.conn.handled ++ [⟨p.position,m,foundCommand p.prev m⟩] }
  let prev := p.prev.behind (unitHeader m)
  let position := p.position+m.size
  if m.invalid then .ok ⟨prev,position,conn⟩
  else if m.header = [] then .ok ⟨prev,position,p.conn⟩
  else
    let shift := p.prev.shift (chars m.header)
    let conn := conn.memmove (p.position-conn.consumed + m.headerAt - shift)
      (p.prev.header.take shift)
    match findPattern (Scpi.composeCompoundCommand p.prev.header (chars m.header)) with
    | none => .ok ⟨prev,position,conn⟩
    | some pattern =>
      -- no other callback touches es.pin
      if pattern = parallelData then
        (scpiCallbackParallelData m shift conn).map fun conn => ⟨prev,position,conn⟩
      else .ok ⟨prev,position,conn⟩

def scpiParse : Nat → List Byte → Parse → Except Stop Parse
  | 0, _, _ => .error .outOfFuel
  | fuel+1, data, p => do
    let m := scpiParserDetectProgramMessageUnit data
    let p ← handle m p
    if m.size < data.length then scpiParse fuel (data.drop m.size) p else .ok p

def scpiProcess (c : Conn) : Except Stop Conn :=
  match c.pin with
  | [] => .error .fault
  | p :: _ => (scpiParse (p.length+1) p ⟨.none,c.consumed,c⟩).map Parse.conn

/-- A playback between the two steps leaves the connection alone. -/
def ethernetLoop : Nat → Conn → Stop
  | 0, _ => .outOfFuel
  | fuel+1, c =>
    match ethernetNextPacket c with
    | .error c => .loop c
    | .ok c =>
      match scpiProcess c with
      | .error stop => stop
      | .ok c => ethernetLoop fuel c

def serve (arrivals : List (List Pbuf)) : Stop :=
  ethernetLoop (arrivals.flatten.length+1) (.accepted arrivals)

@[simp] theorem bytes_nil : bytes [] = 0 := rfl

@[simp] theorem bytes_cons (p : Pbuf) (ps : List Pbuf) : bytes (p :: ps) = p.length + bytes ps := by
  simp [bytes]

@[simp] theorem bytes_append (ps qs : List Pbuf) : bytes (ps ++ qs) = bytes ps + bytes qs := by
  simp [bytes]

theorem bytes_eq_zero {ps : List Pbuf} : bytes ps = 0 ↔ ps.flatten = [] := by
  rw [bytes,← List.length_flatten,List.length_eq_zero_iff]

/-- The lengths of the pbufs. Their bytes can be overwritten by the parser. -/
def Conn.lengths (c : Conn) : List Nat := c.queue.map List.length

@[simp] theorem lengths_memmove (i : Nat) (path : List Char) (c : Conn) :
    (c.memmove i path).lengths = c.lengths := by
  cases hpin : c.pin <;> simp [Conn.lengths,Conn.queue,Conn.memmove,hpin]

theorem memmove_pin {i : Nat} {path : List Char} {c : Conn} (h : c.pin ≠ []) :
    (c.memmove i path).pin ≠ [] := by
  simpa [Conn.memmove] using h

/-- d comes later than c: pbufs of the lengths `gone` have been released in between. -/
structure Later (gone : List Nat) (c d : Conn) : Prop where
  lengths : c.lengths = gone ++ d.lengths
  consumed : d.consumed = c.consumed + gone.sum
  credited : d.credited = c.credited
  supply : d.received + bytes d.arrivals.flatten = c.received + bytes c.arrivals.flatten

namespace Later
variable {c d e : Conn} {gone gone' : List Nat}

theorem refl (c : Conn) : Later [] c c := ⟨rfl,rfl,rfl,rfl⟩

theorem trans (h : Later gone c d) (h' : Later gone' d e) : Later (gone ++ gone') c e where
  lengths := by rw [h.lengths,h'.lengths,List.append_assoc]
  consumed := by rw [h'.consumed,h.consumed,List.sum_append,Nat.add_assoc]
  credited := h'.credited.trans h.credited
  supply := h'.supply.trans h.supply

theorem length (h : Later gone c d) : c.queue.length = gone.length + d.queue.length := by
  simpa [Conn.lengths] using congrArg List.length h.lengths

end Later

theorem later_memmove (i : Nat) (path : List Char) (c : Conn) : Later [] c (c.memmove i path) :=
  ⟨(lengths_memmove i path c).symm,rfl,rfl,rfl⟩

/-- What stays when the pbufs `gone` are released and others come. -/
structure Kept (gone : List Pbuf) (c d : Conn) : Prop where
  queue : c.queue = gone ++ d.queue
  handled : d.handled = c.handled
  parallel : d.parallel = c.parallel

theorem Kept.trans {c d e : Conn} {gone gone' : List Pbuf} (h : Kept gone c d)
    (h' : Kept gone' d e) : Kept (gone ++ gone') c e :=
  ⟨by rw [h.queue,h'.queue,List.append_assoc],h'.handled.trans h.handled,
    h'.parallel.trans h.parallel⟩

theorem Kept.lengths {c d : Conn} {gone : List Pbuf} (h : Kept gone c d) :
    c.lengths = gone.map List.length ++ d.lengths := by
  rw [Conn.lengths,h.queue,List.map_append,Conn.lengths]

theorem kept_clear (c : Conn) : Kept (c.pin.take 1) c (ethernetClearPacket c) := by
  cases hpin : c.pin <;> constructor <;> simp [ethernetClearPacket,Conn.queue,hpin]

theorem later_clear (c : Conn) :
    Later ((c.pin.take 1).map List.length) c (ethernetClearPacket c) := by
  refine ⟨(kept_clear c).lengths,?_,?_,?_⟩ <;>
    cases hpin : c.pin <;> simp [ethernetClearPacket,hpin]

theorem kept_recv (p : List Pbuf) (arrivals : List (List Pbuf)) (c : Conn)
    (h : c.arrivals = p :: arrivals) :
    Kept [] c { serverRecvCallback p c with arrivals := arrivals } := by
  refine ⟨?_,rfl,rfl⟩
  simp only [Conn.queue,serverRecvCallback,h,List.flatten_cons,List.nil_append]
  split
  · rw [List.append_assoc]
  next hp => simp_all

theorem later_recv (p : List Pbuf) (arrivals : List (List Pbuf)) (c : Conn)
    (h : c.arrivals = p :: arrivals) :
    Later [] c { serverRecvCallback p c with arrivals := arrivals } := by
  refine ⟨(kept_recv p arrivals c h).lengths,rfl,rfl,?_⟩
  simp only [serverRecvCallback,h,List.flatten_cons,bytes_append]
  omega

theorem poll_spec (arrivals : List (List Pbuf)) (c : Conn) (h : c.arrivals = arrivals) :
    (∃ d, poll arrivals c = .ok d ∧ Later [] c d ∧ Kept [] c d ∧ d.pin ≠ []) ∨
      (∃ d, poll arrivals c = .error d ∧ Later [] c d ∧ Kept [] c d ∧ d.queue = []) := by
  induction arrivals generalizing c with
  | nil =>
    by_cases hp : c.pin = []
    · exact .inr ⟨c,by rw [poll,if_pos hp],.refl c,⟨rfl,rfl,rfl⟩,by simp [Conn.queue,hp,h]⟩
    · exact .inl ⟨c,by rw [poll,if_neg hp],.refl c,⟨rfl,rfl,rfl⟩,hp⟩
  | cons p arrivals ih =>
    have hlater := later_recv p arrivals c h
    have hkept := kept_recv p arrivals c h
    rw [poll]
    generalize hd : { serverRecvCallback p c with arrivals := arrivals } = d at *
    by_cases hp : d.pin = []
    · rw [if_pos hp]
      have hnext := ih d (by subst hd; rfl)
      obtain ⟨e,hpoll,hl,hk,hpin⟩ | ⟨e,hpoll,hl,hk,hq⟩ := hnext
      · exact .inl ⟨e,hpoll,hlater.trans hl,hkept.trans hk,hpin⟩
      · exact .inr ⟨e,hpoll,hlater.trans hl,hkept.trans hk,hq⟩
    · rw [if_neg hp]
      exact .inl ⟨d,rfl,hlater,hkept,hp⟩

theorem nextPacket_spec (c : Conn) :
    (∃ d, ethernetNextPacket c = .ok d ∧ Later ((c.pin.take 1).map List.length) c d ∧
        Kept (c.pin.take 1) c d ∧ d.pin ≠ []) ∨
      (∃ d, ethernetNextPacket c = .error d ∧ Later ((c.pin.take 1).map List.length) c d ∧
        Kept (c.pin.take 1) c d ∧ d.queue = []) := by
  have hlater := later_clear c
  have hkept := kept_clear c
  have hpoll := poll_spec (ethernetClearPacket c).arrivals (ethernetClearPacket c) rfl
  obtain ⟨d,hd,hl,hk,hpin⟩ | ⟨d,hd,hl,hk,hq⟩ := hpoll
  · refine .inl ⟨d,hd,?_,?_,hpin⟩
    · simpa using hlater.trans hl
    · simpa using hkept.trans hk
  · refine .inr ⟨d,hd,?_,?_,hq⟩
    · simpa using hlater.trans hl
    · simpa using hkept.trans hk

/-- A run that stops does so when everything is released. -/
def Stop.After (c : Conn) : Stop → Prop
  | .loop d | .copy d => ∃ gone, Later gone c d ∧ d.queue = []
  | .fault => True
  | .outOfFuel => False

structure Sound {α : Type} (view : α → Conn) (c : Conn) (r : Except Stop α) : Prop where
  ok : ∀ a, r = .ok a → ∃ gone, Later gone c (view a) ∧ (view a).pin ≠ []
  error : ∀ stop, r = .error stop → stop.After c

theorem Sound.of_ok {α : Type} {view : α → Conn} {c : Conn} {a : α} {gone : List Nat}
    (h : Later gone c (view a)) (hp : (view a).pin ≠ []) : Sound view c (.ok a) := by
  refine ⟨?_,nofun⟩
  rintro b ⟨⟩
  exact ⟨gone,h,hp⟩

theorem Sound.of_error {α : Type} {view : α → Conn} {c : Conn} {stop : Stop} (h : stop.After c) :
    Sound view c (.error stop) := by
  refine ⟨nofun,?_⟩
  rintro stop' ⟨⟩
  exact h

theorem Stop.After.of_later {c d : Conn} {gone : List Nat} (h : Later gone c d) {stop : Stop}
    (hs : stop.After d) : stop.After c := by
  cases stop with
  | loop e | copy e =>
    obtain ⟨gone',hl,hq⟩ := hs
    exact ⟨gone ++ gone',h.trans hl,hq⟩
  | fault => trivial
  | outOfFuel => exact hs

theorem Sound.of_later {α : Type} {view : α → Conn} {c d : Conn} {gone : List Nat}
    (h : Later gone c d) {r : Except Stop α} (hr : Sound view d r) : Sound view c r := by
  constructor
  · intro a ha
    obtain ⟨gone',hl,hp⟩ := hr.ok a ha
    exact ⟨gone ++ gone',h.trans hl,hp⟩
  · intro stop hs
    exact .of_later h (hr.error stop hs)

theorem Sound.map {α β : Type} {view : α → Conn} {view' : β → Conn} {c : Conn} {f : α → β}
    (hf : ∀ a, view' (f a) = view a) {r : Except Stop α} (hr : Sound view c r) :
    Sound view' c (r.map f) := by
  cases r with
  | ok a =>
    obtain ⟨gone,hl,hp⟩ := hr.ok a rfl
    rw [← hf] at hl hp
    exact .of_ok hl hp
  | error stop => exact .of_error (hr.error stop rfl)

theorem sound_copyLoop (len : Nat) (fuel i offset : Nat) (c : Conn) (hf : c.queue.length < fuel)
    (hp : c.pin ≠ []) : Sound Prod.snd c (copyLoop len fuel i offset c) := by
  induction fuel generalizing i offset c with
  | zero => omega
  | succ fuel ih =>
    rw [copyLoop]
    split
    next =>
      split
      next h => exact absurd h hp
      next p pin hpin =>
        split
        next => exact .of_error trivial
        next =>
          have hcopied : ∀ data, Later [] c (c.memcpy i data) :=
            fun data => ⟨rfl,rfl,rfl,rfl⟩
          dsimp only
          split
          next =>
            generalize hd : c.memcpy i _ = d
            have hl : Later [] c d := hd ▸ hcopied _
            have hdp : d.pin = p :: pin := by
              rw [← hd]
              exact hpin
            obtain ⟨e,he,hle,-,hep⟩ | ⟨e,he,hle,-,heq⟩ := nextPacket_spec d
            · rw [he]
              refine .of_later (hl.trans hle) (ih _ _ e ?_ hep)
              have hlen := (hl.trans hle).length
              simp only [List.nil_append,hdp,List.take_succ_cons,List.map_cons,
                List.length_cons] at hlen
              omega
            · rw [he]
              exact .of_error ⟨_,hl.trans hle,heq⟩
          next => exact .of_ok (hcopied _) hp
    next => exact .of_ok (.refl c) hp

theorem sound_callback (m : Message) (shift : Nat) (c : Conn) (hp : c.pin ≠ []) :
    Sound id c (scpiCallbackParallelData m shift c) := by
  rw [scpiCallbackParallelData]
  dsimp only
  split
  next => exact .of_ok (.refl c) hp
  next =>
    have hlater : ∀ len, Later [] c (c.setLength len) := fun len => ⟨rfl,rfl,rfl,rfl⟩
    have hcopy : ∀ len offset,
        Sound Prod.snd (c.setLength len) (ethernetCopyData len offset (c.setLength len)) :=
      fun len offset => sound_copyLoop len _ 0 offset _ (Nat.lt_succ_self _) hp
    exact .of_later (hlater _) (.map (fun _ => rfl) (hcopy _ _))

theorem sound_handle (m : Message) (p : Parse) (hp : p.conn.pin ≠ []) :
    Sound Parse.conn p.conn (handle m p) := by
  have hnoted (hs : List Handled) : Later [] p.conn { p.conn with handled := hs } :=
    ⟨rfl,rfl,rfl,rfl⟩
  rw [handle]
  dsimp only
  split
  next => exact .of_ok (hnoted _) hp
  next =>
    split
    next => exact .of_ok (.refl _) hp
    next =>
      generalize hd : Conn.memmove _ _ _ = d
      have hmoved : Later [] p.conn d := hd ▸ (hnoted _).trans (later_memmove ..)
      have hdp : d.pin ≠ [] := hd ▸ memmove_pin hp
      split
      next => exact .of_ok hmoved hdp
      next =>
        split
        next => exact .of_later hmoved (.map (fun _ => rfl) (sound_callback m _ _ hdp))
        next => exact .of_ok hmoved hdp

theorem sound_scpiParse (fuel : Nat) (data : List Byte) (p : Parse) (hf : data.length < fuel)
    (hp : p.conn.pin ≠ []) : Sound Parse.conn p.conn (scpiParse fuel data p) := by
  induction fuel generalizing data p with
  | zero => omega
  | succ fuel ih =>
    have hunit := sound_handle (scpiParserDetectProgramMessageUnit data) p hp
    rw [scpiParse]
    cases hh : handle (scpiParserDetectProgramMessageUnit data) p with
    | error stop => exact .of_error (hunit.error stop hh)
    | ok q =>
      obtain ⟨gone,hl,hq⟩ := hunit.ok q hh
      dsimp only [bind,Except.bind]
      split
      next hmore =>
        have hpos := size_pos (s := data) (by rintro rfl; simp at hmore)
        exact .of_later hl (ih _ q (by rw [List.length_drop]; omega) hq)
      next => exact .of_ok hl hq

theorem sound_scpiProcess (c : Conn) (hp : c.pin ≠ []) : Sound id c (scpiProcess c) := by
  rw [scpiProcess]
  split
  next h => exact absurd h hp
  next p pin hpin =>
    have hparse := sound_scpiParse (p.length+1) p ⟨.none,c.consumed,c⟩ (Nat.lt_succ_self _) hp
    exact .map (fun _ => rfl) hparse

/-- Every run that does not fault ends with everything received being released. -/
theorem after_ethernetLoop (fuel : Nat) (c : Conn)
    (hf : c.queue.length < fuel + (c.pin.take 1).length) : (ethernetLoop fuel c).After c := by
  induction fuel generalizing c with
  | zero =>
    simp only [Conn.queue,List.length_append,List.length_take] at hf
    omega
  | succ fuel ih =>
    rw [ethernetLoop]
    obtain ⟨d,hd,hl,-,hdp⟩ | ⟨d,hd,hl,-,hq⟩ := nextPacket_spec c
    · rw [hd]
      dsimp only
      have hprocess := sound_scpiProcess d hdp
      cases hs : scpiProcess d with
      | error stop => exact .of_later hl (hprocess.error stop hs)
      | ok e =>
        obtain ⟨gone,hle,hep⟩ := hprocess.ok e hs
        refine .of_later (hl.trans hle) (ih e ?_)
        have hlen := (hl.trans hle).length
        have hpos : 0 < e.pin.length := List.length_pos_iff.mpr hep
        simp only [id,List.length_append,List.length_map,List.length_take] at hlen hf ⊢
        omega
    · rw [hd]
      exact ⟨_,hl,hq⟩

theorem after_serve (arrivals : List (List Pbuf)) : (serve arrivals).After (.accepted arrivals) :=
  after_ethernetLoop _ _ (by simp [Conn.queue,Conn.accepted])

def Conn.Restored (c : Conn) : Prop := c.credited = c.consumed ∧ c.window = tcpWnd

/-- The arrivals are those up to the moment at which ethernet_loop starts to wait. -/
theorem window_restored_iff (arrivals : List (List Pbuf)) (c : Conn)
    (h : serve arrivals = .loop c) :
    c.pin = [] ∧ (c.Restored ↔ arrivals.flatten.flatten = []) := by
  have hafter := after_serve arrivals
  rw [h] at hafter
  obtain ⟨gone,hl,hq⟩ := hafter
  obtain ⟨hpin,harr⟩ := List.append_eq_nil_iff.mp hq
  refine ⟨hpin,?_⟩
  have hgone : gone = arrivals.flatten.map List.length := by
    have hlengths := hl.lengths
    rw [Conn.lengths,Conn.lengths,hq,List.map_nil,List.append_nil] at hlengths
    exact hlengths.symm
  have hconsumed : c.consumed = bytes arrivals.flatten := by
    rw [hl.consumed,hgone]
    exact Nat.zero_add _
  have hcredited : c.credited = 0 := hl.credited
  have hreceived : c.received = bytes arrivals.flatten := by
    have hsupply := hl.supply
    rw [harr] at hsupply
    simpa [Conn.accepted] using hsupply
  rw [← bytes_eq_zero,Conn.Restored,Conn.window,hconsumed,hcredited,hreceived]
  constructor
  · intro hr
    exact hr.1.symm
  · intro hz
    rw [hz]
    exact ⟨rfl,by simp⟩

theorem window_restored_only_idle :
    (∃ c, serve [[],[[]]] = .loop c ∧ c.pin = [] ∧ c.Restored) ∧
      ∃ c, serve [[text "*IDN?\n"]] = .loop c ∧ c.pin = [] ∧ ¬ c.Restored := by
  refine ⟨⟨_,rfl,?_⟩,_,rfl,?_⟩
  · obtain ⟨hpin,hiff⟩ := window_restored_iff [[],[[]]] _ rfl
    exact ⟨hpin,hiff.mpr rfl⟩
  · obtain ⟨hpin,hiff⟩ := window_restored_iff [[text "*IDN?\n"]] _ rfl
    exact ⟨hpin,fun h => nomatch hiff.mp h⟩

theorem query_not_credited :
    ∃ c, serve [[text "*IDN?\n"]] = .loop c ∧ c.pin = [] ∧ c.consumed = 6 ∧ c.credited = 0 ∧
      c.window = 2914 ∧ ¬ c.Restored :=
  ⟨_,rfl,rfl,rfl,rfl,rfl,fun h => nomatch h.1⟩

end Stm32Dds.Stream
