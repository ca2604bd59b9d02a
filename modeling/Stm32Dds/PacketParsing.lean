import Stm32Dds.StreamCopy

set_option autoImplicit false

namespace Stm32Dds.Stream
open Bytes Lexer

def counts (m : Message) : Bool := m.invalid || m.header ≠ []

def events : Scpi.Previous → Nat → List Message → List Handled
  | _, _, [] => []
  | prev, position, m :: ms =>
    (if counts m then [⟨position,m,foundCommand prev m⟩] else []) ++
      events (prev.behind (unitHeader m)) (position+m.size) ms

def sizes (ms : List Message) : Nat := (ms.map Message.size).sum

def previousBehind (prev : Scpi.Previous) (ms : List Message) : Scpi.Previous :=
  ms.foldl (fun prev m => prev.behind (unitHeader m)) prev

theorem previousBehind_eq (prev : Scpi.Previous) (ms : List Message) :
    (ms.map unitHeader).foldl Scpi.Previous.behind prev = previousBehind prev ms :=
  List.foldl_map

theorem events_append (prev : Scpi.Previous) (position : Nat) (ms ns : List Message) :
    events prev position (ms ++ ns) = events prev position ms ++
      events (previousBehind prev ms) (position + sizes ms) ns := by
  induction ms generalizing prev position with
  | nil => rfl
  | cons m ms ih =>
    rw [List.cons_append,events,events,ih,List.append_assoc,sizes,sizes,List.map_cons,
      List.sum_cons,Nat.add_assoc]
    rfl

theorem events_cons (prev : Scpi.Previous) (position : Nat) (m : Message) (ms : List Message) :
    events prev position (m :: ms) = events prev position [m] ++
      events (prev.behind (unitHeader m)) (position+m.size) ms := by
  simp [events]

theorem sizes_cons (m : Message) (ms : List Message) : sizes (m :: ms) = m.size + sizes ms := by
  rw [sizes,List.map_cons,List.sum_cons,sizes]

theorem position_of_mem_events {prev : Scpi.Previous} {position : Nat} {ms : List Message}
    (hms : ∀ m ∈ ms, 0 < m.size) {h : Handled} (hh : h ∈ events prev position ms) :
    position ≤ h.position ∧ h.position < position + sizes ms := by
  induction ms generalizing prev position with
  | nil => cases hh
  | cons m ms ih =>
    have hm := hms m (by simp)
    rw [sizes_cons]
    rw [events,List.mem_append] at hh
    obtain hfirst | hrest := hh
    · have heq : h = ⟨position,m,foundCommand prev m⟩ := by
        split at hfirst
        next => exact List.mem_singleton.mp hfirst
        next => cases hfirst
      rw [heq]
      dsimp only
      omega
    · obtain ⟨hle,hlt⟩ := ih (fun m' hm' => hms m' (by simp [hm'])) hrest
      omega

theorem events_eq_nil {prev : Scpi.Previous} {position : Nat} {ms : List Message} :
    events prev position ms = [] ↔ ∀ m ∈ ms, counts m = false := by
  induction ms generalizing prev position with
  | nil => simp [events]
  | cons m ms ih => simp [events,ih]

theorem forall_units {P : Message → Prop}
    (h : ∀ s, s ≠ [] → P (scpiParserDetectProgramMessageUnit s)) {s : List Byte} :
    ∀ m ∈ units s, P m := by
  induction hn : s.length using Nat.strong_induction_on generalizing s with
  | _ n ih =>
    by_cases hs : s = []
    · simp [hs]
    · have hpos := size_pos hs
      have hlen := List.length_pos_iff.mpr hs
      intro m hm
      rw [units_of_ne hs,List.mem_cons] at hm
      obtain hfirst | hrest := hm
      · rw [hfirst]
        exact h s hs
      · exact ih _ (by rw [List.length_drop]; omega) rfl m hrest

theorem units_size_pos {s : List Byte} : ∀ m ∈ units s, 0 < m.size := by
  refine forall_units (P := fun m => 0 < m.size) ?_
  intro s hs
  exact size_pos hs

def handledFrom (place : Nat) (hs : List Handled) : List Handled :=
  hs.filter fun h => place ≤ h.position

theorem handledFrom_append (place : Nat) (hs hs' : List Handled) :
    handledFrom place (hs ++ hs') = handledFrom place hs ++ handledFrom place hs' :=
  List.filter_append ..

section
variable {prev : Scpi.Previous} {place position : Nat} {s : List Byte}

theorem handledFrom_behind (h : place ≤ position) :
    handledFrom place (events prev position (units s)) = events prev position (units s) := by
  refine List.filter_eq_self.mpr fun e he => ?_
  obtain ⟨hle,-⟩ := position_of_mem_events units_size_pos he
  exact decide_eq_true (h.trans hle)

theorem handledFrom_in_front (hs : Complete s) (h : position + s.length ≤ place) :
    handledFrom place (events prev position (units s)) = [] := by
  have hsize : sizes (units s) = s.length := hs.size
  refine List.filter_eq_nil_iff.mpr fun e he => ?_
  obtain ⟨-,hlt⟩ := position_of_mem_events units_size_pos he
  rw [hsize] at hlt
  simp only [decide_eq_true_eq]
  omega

end

def packetEvents : Nat → List Pbuf → List Handled
  | _, [] => []
  | position, q :: qs =>
    events .none position (units q) ++ packetEvents (position+q.length) qs

theorem packetEvents_append (position : Nat) (qs rs : List Pbuf) :
    packetEvents position (qs ++ rs) =
      packetEvents position qs ++ packetEvents (position + bytes qs) rs := by
  induction qs generalizing position with
  | nil => rfl
  | cons q qs ih =>
    rw [List.cons_append,packetEvents,packetEvents,ih,bytes_cons,List.append_assoc,Nat.add_assoc]

theorem packetEvents_eq_nil {position : Nat} {qs : List Pbuf} :
    packetEvents position qs = [] ↔ ∀ q ∈ qs, ∀ m ∈ units q, counts m = false := by
  induction qs generalizing position with
  | nil => simp [packetEvents]
  | cons q qs ih => simp [packetEvents,ih,events_eq_nil]

theorem handledFrom_packets_behind {place position : Nat} (h : place ≤ position) (qs : List Pbuf) :
    handledFrom place (packetEvents position qs) = packetEvents position qs := by
  induction qs generalizing position with
  | nil => rfl
  | cons q qs ih =>
    rw [packetEvents,handledFrom_append,handledFrom_behind h,ih (h.trans (Nat.le_add_right _ _))]

theorem handledFrom_packets_in_front {place position : Nat} {qs : List Pbuf}
    (hqs : ∀ q ∈ qs, Complete q) (h : position + bytes qs ≤ place) :
    handledFrom place (packetEvents position qs) = [] := by
  induction qs generalizing position with
  | nil => rfl
  | cons q qs ih =>
    rw [bytes_cons] at h
    rw [packetEvents,handledFrom_append,handledFrom_in_front (hqs q (by simp)) (by omega),
      ih (fun q' hq' => hqs q' (by simp [hq'])) (by omega),List.append_nil]

/-- A conn that has handled more. The sample buffer may be filled, and bytes of the pbuf at
hand may be overwritten. -/
structure Conn.Notes (c : Conn) (hs : List Handled) (d : Conn) : Prop where
  pin : ∀ {p pin}, c.pin = p :: pin → ∃ q : Pbuf, d.pin = q :: pin ∧ q.length = p.length
  arrivals : d.arrivals = c.arrivals
  consumed : d.consumed = c.consumed
  handled : d.handled = c.handled ++ hs

theorem notes_parallel (c : Conn) (parallel : Scpi.Parallel) :
    c.Notes [] { c with parallel := parallel } :=
  ⟨fun hpin => ⟨_,hpin,rfl⟩,rfl,rfl,by simp⟩

theorem notes_refl (c : Conn) : c.Notes [] c := notes_parallel c c.parallel

theorem block_len_le {s : List Byte}
    (h : (scpiParserParseProgramData s).type = .arbitraryBlockProgramData) :
    (scpiParserParseProgramData s).len ≤ (scpiParserParseProgramData s).skip := by
  obtain ⟨blanks,b,t,hblanks,rfl⟩ := parseProgramData_block h
  rw [parseProgramData_text hblanks]
  dsimp only
  omega

theorem headerPath_length (header : List Char) :
    (Scpi.headerPath header).length ≤ header.length := by
  have hle := (List.dropWhile_suffix (fun c => c != ':') (l := header.reverse)).length_le
  simpa [Scpi.headerPath] using hle

theorem compose_length (prev current : List Char) :
    (Scpi.composeCompoundCommand prev current).length ≤ prev.length + current.length := by
  have hpath := headerPath_length prev
  rw [Scpi.composeCompoundCommand]
  split
  · omega
  · rw [List.length_append]
    omega

theorem shift_le (prev : Scpi.Previous) (header : List Char) :
    prev.shift header ≤ prev.header.length := by
  have hcompose := compose_length prev.header header
  rw [Scpi.Previous.shift]
  omega

theorem behind_length (prev : Scpi.Previous) (u : Scpi.UnitHeader) :
    (prev.behind u).header.length ≤ prev.header.length + u.header.length := by
  have hcompose := compose_length prev.header u.header
  rw [Scpi.Previous.behind]
  split
  next => exact Nat.le_add_right _ _
  next =>
    dsimp only
    split
    next => exact hcompose
    next =>
      simp only [List.length_append,List.length_take]
      omega

theorem unitHeader_length (m : Message) : (unitHeader m).header.length = m.header.length := by
  simp [unitHeader,chars]

theorem header_le_size (s : List Byte) :
    (scpiParserDetectProgramMessageUnit s).header.length ≤
      (scpiParserDetectProgramMessageUnit s).size := by
  simp only [scpiParserDetectProgramMessageUnit]
  split
  · simp only [List.length_take]
    omega
  · simp only [List.length_take,Parts.pos,Parts.dataAt]
    omega

theorem headerAt_le_size (s : List Byte) :
    (scpiParserDetectProgramMessageUnit s).headerAt ≤
      (scpiParserDetectProgramMessageUnit s).size := by
  simp only [scpiParserDetectProgramMessageUnit]
  split
  all_goals
    simp only [Parts.pos,Parts.dataAt]
    omega

theorem units_header_le {s : List Byte} :
    ∀ m ∈ units s, m.headerAt ≤ m.size ∧ m.header.length ≤ m.size := by
  refine forall_units (P := fun m => m.headerAt ≤ m.size ∧ m.header.length ≤ m.size) ?_
  intro s _
  exact ⟨headerAt_le_size s,header_le_size s⟩

def Inside (done : Nat) (data : List Byte) (c : Conn) : Prop :=
  ∃ p pin, c.pin = p :: pin ∧ p.length = done + data.length

theorem Inside.notes {done : Nat} {data : List Byte} {c d : Conn} {hs : List Handled}
    (h : Inside done data c) (hd : c.Notes hs d) : Inside done data d := by
  obtain ⟨p,pin,hpin,hlen⟩ := h
  obtain ⟨q,hq,hsame⟩ := hd.pin hpin
  exact ⟨q,pin,hq,hsame.trans hlen⟩

theorem Inside.drop {done n : Nat} {data : List Byte} {c : Conn} (h : Inside done data c)
    (hn : n ≤ data.length) : Inside (done+n) (data.drop n) c := by
  obtain ⟨p,pin,hpin,hlen⟩ := h
  refine ⟨p,pin,hpin,?_⟩
  rw [List.length_drop]
  omega

/-- What handling a unit makes of a byte of its packet, in which the unit starts at `done`:
the path that the header is completed with is written in front of the header. -/
def overwrite (u : Scpi.UnitHeader) (prev : Scpi.Previous) (done j : Nat) (b : Byte) : Byte :=
  if u.invalid ∨ u.header = [] then b
  else
    let shift := prev.shift u.header
    let i := done + u.headerAt - shift
    if i ≤ j then ((prev.header.take shift).map chr).getD (j-i) b else b

theorem overwrite_behind {u : Scpi.UnitHeader} {prev : Scpi.Previous} {done j : Nat} (b : Byte)
    (hprev : prev.header.length ≤ done) (hj : done + u.headerAt ≤ j) :
    overwrite u prev done j b = b := by
  have hshift := shift_le prev u.header
  rw [overwrite]
  split
  next => rfl
  next =>
    dsimp only
    rw [if_pos (by omega)]
    refine List.getD_eq_default _ _ ?_
    rw [List.length_map,List.length_take]
    omega

theorem previousBehind_length {ms : List Message} (hms : ∀ m ∈ ms, m.header.length ≤ m.size)
    (prev : Scpi.Previous) :
    (previousBehind prev ms).header.length ≤ prev.header.length + sizes ms := by
  induction ms generalizing prev with
  | nil => exact le_rfl
  | cons m ms ih =>
    have hm := hms m (by simp)
    have hfirst := behind_length prev (unitHeader m)
    have hrest := ih (fun k hk => hms k (List.mem_cons_of_mem m hk)) (prev.behind (unitHeader m))
    rw [unitHeader_length] at hfirst
    rw [sizes_cons,previousBehind,List.foldl_cons]
    rw [previousBehind] at hrest
    omega

theorem previousBehind_le {front : List Byte} (hsizes : sizes (units front) = front.length) :
    (previousBehind .none (units front)).header.length ≤ front.length := by
  have hprev := previousBehind_length (fun m hm => (units_header_le (s := front) m hm).2) .none
  rwa [hsizes,show Scpi.Previous.none.header = [] from rfl,List.length_nil,Nat.zero_add] at hprev

def overwrites : Scpi.Previous → Nat → List Message → Nat → Byte → Byte
  | _, _, [], _, b => b
  | prev, done, m :: ms, j, b =>
    overwrites (prev.behind (unitHeader m)) (done+m.size) ms j (overwrite (unitHeader m) prev done j b)

theorem overwrites_behind {ms : List Message}
    (hms : ∀ m ∈ ms, m.headerAt ≤ m.size ∧ m.header.length ≤ m.size) {prev : Scpi.Previous}
    {done j : Nat} (b : Byte) (hprev : prev.header.length ≤ done) (hj : done + sizes ms ≤ j) :
    overwrites prev done ms j b = b := by
  induction ms generalizing prev done b with
  | nil => rfl
  | cons m ms ih =>
    obtain ⟨hat,hlen⟩ := hms m (by simp)
    have hbehind := behind_length prev (unitHeader m)
    rw [unitHeader_length] at hbehind
    rw [sizes_cons] at hj
    rw [overwrites,overwrite_behind b hprev (show done+m.headerAt ≤ j by omega)]
    exact ih (fun k hk => hms k (List.mem_cons_of_mem m hk)) b (by omega) (by omega)

def Conn.after (c : Conn) (g : Nat → Byte → Byte) (hs : List Handled)
    (parallel : Scpi.Parallel) : Conn :=
  { c with
    pin := c.pin.modifyHead (List.mapIdx g)
    handled := c.handled ++ hs
    parallel := parallel }

theorem mapIdx_same (p : Pbuf) : p.mapIdx (fun _ b => b) = p := by
  refine List.ext_getElem (by simp) fun i _ _ => ?_
  rw [List.getElem_mapIdx]

theorem notes_after (c : Conn) (g : Nat → Byte → Byte) (hs : List Handled)
    (parallel : Scpi.Parallel) : c.Notes hs (c.after g hs parallel) where
  pin hpin := by simp [Conn.after,hpin]
  arrivals := rfl
  consumed := rfl
  handled := rfl

theorem after_after (c : Conn) (g g' : Nat → Byte → Byte) (hs hs' : List Handled)
    (parallel parallel' : Scpi.Parallel) : (c.after g hs parallel).after g' hs' parallel' =
      c.after (fun j b => g' j (g j b)) (hs ++ hs') parallel' := by
  cases hpin : c.pin <;> simp [Conn.after,hpin,List.mapIdx_mapIdx,Function.comp_def]

theorem after_same (c : Conn) (hs : List Handled) :
    c.after (fun _ b => b) hs c.parallel = { c with handled := c.handled ++ hs } := by
  cases hpin : c.pin <;> simp [Conn.after,hpin,mapIdx_same]

/-- SCPI_Parse has come to `data`, behind `done` bytes of the pbuf at hand. -/
structure Parse.At (done : Nat) (data : List Byte) (p : Parse) : Prop where
  inside : Inside done data p.conn
  position : p.position = p.conn.consumed+done
  prev : p.prev.header.length ≤ done

theorem at_start {c : Conn} {p : Pbuf} {pin : List Pbuf} (hpin : c.pin = p :: pin) :
    Parse.At 0 p ⟨.none,c.consumed,c⟩ :=
  ⟨⟨p,pin,hpin,(Nat.zero_add _).symm⟩,rfl,Nat.zero_le _⟩

theorem memmove_overwrite {m : Message} (hvalid : m.invalid = false) (hheader : m.header ≠ [])
    {done : Nat} {p : Parse} (hposition : p.position = p.conn.consumed+done) :
    Conn.memmove (p.position-p.conn.consumed + m.headerAt - p.prev.shift (chars m.header))
        (p.prev.header.take (p.prev.shift (chars m.header)))
        { p.conn with handled := p.conn.handled ++ [⟨p.position,m,foundCommand p.prev m⟩] } =
      p.conn.after (overwrite (unitHeader m) p.prev done) [⟨p.position,m,foundCommand p.prev m⟩]
        p.conn.parallel := by
  have hdone : p.position-p.conn.consumed = done := by
    rw [hposition]
    omega
  have hg : overwrite (unitHeader m) p.prev done = fun j b =>
      if done + m.headerAt - p.prev.shift (chars m.header) ≤ j then
        ((p.prev.header.take (p.prev.shift (chars m.header))).map chr).getD
          (j - (done + m.headerAt - p.prev.shift (chars m.header))) b else b := by
    funext j b
    rw [overwrite,if_neg (by simp [unitHeader,chars,hvalid,hheader])]
    rfl
  rw [hg,hdone]
  rfl

section
variable {done : Nat} {data : List Byte}
  (hsize : (scpiParserDetectProgramMessageUnit data).size ≤ data.length)
include hsize

theorem callback_inside {shift : Nat} (hshift : shift ≤ done) {c : Conn} (h : Inside done data c) :
    ∃ parallel, scpiCallbackParallelData (scpiParserDetectProgramMessageUnit data) shift c =
      .ok { c with parallel := parallel } := by
  obtain ⟨p,pin,hpin,hlen⟩ := h
  rw [scpiCallbackParallelData]
  dsimp only
  split
  next => exact ⟨c.parallel,rfl⟩
  next hcopied =>
    have hblock := not_not.mp fun hne => hcopied (.inl hne)
    have hinside := block_inside hsize hblock
    have hle := block_len_le hblock
    generalize scpiParserDetectProgramMessageUnit data = m at *
    generalize scpiParserParseProgramData m.data = param at *
    have hoffset : m.dataAt+param.skip + shift - m.headerAt - param.len + param.len ≤ p.length := by
      omega
    generalize m.dataAt+param.skip + shift - m.headerAt - param.len = offset at *
    have hpin' : (c.setLength param.len).pin = p :: pin := hpin
    rw [ethernetCopyData,copyLoop_last param.len 0 offset hpin' (by omega) (Nat.zero_le _) (by omega)]
    exact ⟨_,rfl⟩

theorem handle_inside {p : Parse} (h : p.At done data) :
    ∃ parallel, handle (scpiParserDetectProgramMessageUnit data) p =
      .ok ⟨p.prev.behind (unitHeader (scpiParserDetectProgramMessageUnit data)),
        p.position + (scpiParserDetectProgramMessageUnit data).size,
        p.conn.after (overwrite (unitHeader (scpiParserDetectProgramMessageUnit data)) p.prev done)
          (events p.prev p.position [scpiParserDetectProgramMessageUnit data]) parallel⟩ := by
  have hcall : ∀ shift, shift ≤ done → ∀ c, Inside done data c → ∃ parallel,
      scpiCallbackParallelData (scpiParserDetectProgramMessageUnit data) shift c =
        .ok { c with parallel := parallel } :=
    fun _ hshift _ h => callback_inside hsize hshift h
  generalize scpiParserDetectProgramMessageUnit data = m at *
  have hshift := (shift_le p.prev (chars m.header)).trans h.prev
  rw [handle]
  dsimp only
  split
  next hinv =>
    have hg : overwrite (unitHeader m) p.prev done = fun _ b => b := by
      funext j b
      rw [overwrite,if_pos (.inl hinv)]
    refine ⟨p.conn.parallel,?_⟩
    rw [hg,after_same]
    simp [events,counts,hinv]
  next hinv =>
    split
    next hnone =>
      have hg : overwrite (unitHeader m) p.prev done = fun _ b => b := by
        funext j b
        rw [overwrite,if_pos (.inr (by rw [unitHeader,hnone]; rfl))]
      refine ⟨p.conn.parallel,?_⟩
      rw [hg,after_same]
      simp [events,counts,hinv,hnone]
    next hsome =>
      have hevents : events p.prev p.position [m] = [⟨p.position,m,foundCommand p.prev m⟩] := by
        simp [events,counts,hsome]
      rw [hevents,memmove_overwrite (by simpa using hinv) hsome h.position]
      split
      next => exact ⟨_,rfl⟩
      next =>
        split
        next =>
          obtain ⟨parallel,hd⟩ := hcall _ hshift _ (h.inside.notes (notes_after p.conn _ _ _))
          rw [hd]
          exact ⟨parallel,rfl⟩
        next => exact ⟨_,rfl⟩

end

def handleAll (ms : List Message) (p : Parse) : Except Stop Parse :=
  ms.foldlM (fun p m => handle m p) p

theorem handleAll_concat {ms : List Message} {p q : Parse} (h : handleAll ms p = .ok q)
    (m : Message) : handleAll (ms ++ [m]) p = handle m q := by
  rw [handleAll] at h
  rw [handleAll,List.foldlM_append,h]
  exact bind_pure (handle m q)

theorem scpiParse_units {fuel : Nat} {data : List Byte} {p : Parse} (hd : data ≠ [])
    (hf : data.length < fuel) : scpiParse fuel data p = handleAll (units data) p := by
  induction fuel generalizing data p with
  | zero => omega
  | succ fuel ih =>
    have hpos := size_pos hd
    rw [scpiParse,units_of_ne hd,handleAll,List.foldlM_cons]
    refine bind_congr fun q => ?_
    by_cases hmore : (scpiParserDetectProgramMessageUnit data).size < data.length
    · have hrest : data.drop (scpiParserDetectProgramMessageUnit data).size ≠ [] := by
        rw [← List.length_pos_iff,List.length_drop]
        omega
      rw [if_pos hmore,ih hrest (by rw [List.length_drop]; omega),handleAll]
    · rw [if_neg hmore,List.drop_eq_nil_of_le (Nat.le_of_not_lt hmore),units_nil]
      rfl

theorem scpiProcess_units {c : Conn} {p : Pbuf} {pin : List Pbuf} (hpin : c.pin = p :: pin)
    (hp : p ≠ []) :
    scpiProcess c = (handleAll (units p) ⟨.none,c.consumed,c⟩).map Parse.conn := by
  simp only [scpiProcess,hpin]
  rw [scpiParse_units hp (Nat.lt_succ_self _)]

theorem handleAll_inside {ms ns : List Message} {done : Nat} {data : List Byte} {p : Parse}
    (hunits : units data = ms ++ ns) (hsizes : sizes ms ≤ data.length) (h : p.At done data) :
    ∃ q, handleAll ms p = .ok q ∧ q.At (done + sizes ms) (data.drop (sizes ms)) ∧
      q.prev = previousBehind p.prev ms ∧ q.position = p.position + sizes ms ∧
      ∃ parallel, q.conn =
        p.conn.after (overwrites p.prev done ms) (events p.prev p.position ms) parallel := by
  induction ms generalizing done data p with
  | nil =>
    have hsame := after_same p.conn []
    rw [List.append_nil] at hsame
    exact ⟨p,rfl,h,rfl,rfl,p.conn.parallel,hsame.symm⟩
  | cons m ms ih =>
    have hd : data ≠ [] := by
      rintro rfl
      cases hunits
    rw [units_of_ne hd,List.cons_append,List.cons.injEq] at hunits
    obtain ⟨hm,hunits⟩ := hunits
    rw [sizes_cons,← hm] at hsizes
    have hheader := header_le_size data
    have hlength := behind_length p.prev (unitHeader (scpiParserDetectProgramMessageUnit data))
    rw [unitHeader_length] at hlength
    obtain ⟨parallel,hturn⟩ := handle_inside (by omega) h
    rw [hm] at hheader hlength hturn hsizes hunits
    have hprev := h.prev
    have hposition := h.position
    have hat : Parse.At (done+m.size) (data.drop m.size)
        ⟨p.prev.behind (unitHeader m),p.position+m.size,
          p.conn.after (overwrite (unitHeader m) p.prev done) (events p.prev p.position [m])
            parallel⟩ := by
      refine ⟨(h.inside.notes (notes_after _ _ _ _)).drop (by omega),?_,?_⟩
      · change p.position+m.size = p.conn.consumed + (done+m.size)
        omega
      · dsimp only
        omega
    obtain ⟨q,hq,hqat,hqprev,hqpos,parallel',hconn⟩ := ih hunits (by rw [List.length_drop]; omega) hat
    rw [sizes_cons,← Nat.add_assoc,← Nat.add_assoc]
    refine ⟨q,?_,?_,hqprev,hqpos,parallel',?_⟩
    · rw [handleAll,List.foldlM_cons,hturn]
      exact hq
    · rw [List.drop_drop] at hqat
      exact hqat
    · rw [hconn,after_after,← events_cons]
      rfl

theorem scpiProcess_complete {c : Conn} {p : Pbuf} {pin : List Pbuf} (hpin : c.pin = p :: pin)
    (hp : Complete p) :
    ∃ d, scpiProcess c = .ok d ∧ c.Notes (events .none c.consumed (units p)) d := by
  by_cases hempty : p = []
  · refine ⟨c,?_,?_⟩
    · subst hempty
      simp only [scpiProcess,hpin]
      rfl
    · rw [hempty,units_nil]
      exact notes_refl c
  · obtain ⟨q,hq,-,-,-,parallel,hconn⟩ := handleAll_inside (List.append_nil (units p)).symm
      hp.size.le (at_start hpin)
    refine ⟨q.conn,?_,?_⟩
    · rw [scpiProcess_units hpin hempty,hq]
      rfl
    · rw [hconn]
      exact notes_after c _ _ _

/-- The loop is about to go on to the pbufs `ps`, the first of which stands at a place in
the stream. -/
structure Next (ps : List Pbuf) (position : Nat) (hs : List Handled) (c : Conn) : Prop where
  queue : c.queue = c.pin.take 1 ++ ps
  position : c.consumed + bytes (c.pin.take 1) = position
  handled : c.handled = hs

theorem next_accepted (arrivals : List (List Pbuf)) :
    Next arrivals.flatten 0 [] (.accepted arrivals) := ⟨rfl,rfl,rfl⟩

structure AtHand (len : Nat) (ps : List Pbuf) (position : Nat) (hs : List Handled) (c : Conn) :
    Prop where
  pin : ∃ p pin, c.pin = p :: pin ∧ p.length = len ∧ pin ++ c.arrivals.flatten = ps
  position : c.consumed = position
  handled : c.handled = hs

section
variable {len : Nat} {p : Pbuf} {ps : List Pbuf} {position : Nat} {hs : List Handled} {c : Conn}

theorem Next.atHand (h : Next (p :: ps) position hs c) :
    ∃ d pin, ethernetNextPacket c = .ok d ∧ d.pin = p :: pin ∧ AtHand p.length ps position hs d := by
  obtain ⟨d,hd,hl,hk,hpin⟩ | ⟨d,hd,hl,hk,hq⟩ := nextPacket_spec c
  · have hqueue := hk.queue
    obtain ⟨q,pin,hq⟩ := List.exists_cons_of_ne_nil hpin
    rw [h.queue,Conn.queue,hq,List.cons_append] at hqueue
    cases List.append_cancel_left hqueue
    exact ⟨d,pin,hd,hq,⟨_,pin,hq,rfl,rfl⟩,hl.consumed.trans h.position,hk.handled.trans h.handled⟩
  · have hqueue := hk.queue
    rw [h.queue,hq] at hqueue
    cases List.append_cancel_left hqueue

theorem Next.waits (h : Next [] position hs c) :
    ∃ d, ethernetNextPacket c = .error d ∧ d.handled = hs := by
  obtain ⟨d,hd,hl,hk,hpin⟩ | ⟨d,hd,hl,hk,hq⟩ := nextPacket_spec c
  · have hqueue := hk.queue
    rw [h.queue] at hqueue
    have hnil : d.queue = [] := (List.append_cancel_left hqueue).symm
    exact absurd (List.append_eq_nil_iff.mp hnil).1 hpin
  · exact ⟨d,hd,hk.handled.trans h.handled⟩

theorem AtHand.notes {hs' : List Handled} {d : Conn} (h : AtHand len ps position hs c)
    (hd : c.Notes hs' d) : AtHand len ps position (hs ++ hs') d := by
  obtain ⟨p,pin,hpin,hlen,hps⟩ := h.pin
  obtain ⟨q,hq,hsame⟩ := hd.pin hpin
  refine ⟨⟨q,pin,hq,hsame.trans hlen,?_⟩,hd.consumed.trans h.position,?_⟩
  · rw [hd.arrivals,hps]
  · rw [hd.handled,h.handled]

theorem AtHand.next (h : AtHand len ps position hs c) : Next ps (position+len) hs c := by
  obtain ⟨p,pin,hpin,hlen,hps⟩ := h.pin
  refine ⟨?_,?_,h.handled⟩
  · rw [Conn.queue,hpin,List.cons_append,hps]
    rfl
  · simp [hpin,h.position,hlen]

theorem Next.loop_complete (h : Next (p :: ps) position hs c) (hp : Complete p) (fuel : Nat) :
    ∃ d, ethernetLoop (fuel+1) c = ethernetLoop fuel d ∧
      Next ps (position+p.length) (hs ++ events .none position (units p)) d := by
  obtain ⟨d,pin,hd,hpin,hhand⟩ := h.atHand
  obtain ⟨e,he,hnotes⟩ := scpiProcess_complete hpin hp
  rw [hhand.position] at hnotes
  refine ⟨e,?_,(hhand.notes hnotes).next⟩
  rw [ethernetLoop,hd]
  dsimp only
  rw [he]

end

/-- However complete commands are spread over pbufs, each is handled in its turn. -/
theorem Next.loop_completes {qs ps : List Pbuf} {position : Nat} {hs : List Handled} {c : Conn}
    (h : Next (qs ++ ps) position hs c) (hqs : ∀ q ∈ qs, Complete q) (fuel : Nat) :
    ∃ d, ethernetLoop (fuel+qs.length) c = ethernetLoop fuel d ∧
      Next ps (position+bytes qs) (hs ++ packetEvents position qs) d := by
  induction qs generalizing position hs c with
  | nil => exact ⟨c,rfl,by simpa [packetEvents] using h⟩
  | cons q qs ih =>
    obtain ⟨d,hd,hnext⟩ := h.loop_complete (hqs q (by simp)) (fuel+qs.length)
    obtain ⟨e,he,hrest⟩ := ih hnext fun q' hq' => hqs q' (by simp [hq'])
    refine ⟨e,?_,?_⟩
    · rw [List.length_cons,← Nat.add_assoc,hd,he]
    · rw [packetEvents,bytes_cons,← Nat.add_assoc,← List.append_assoc]
      exact hrest

end Stm32Dds.Stream
