import Stm32Dds.HeaderCarry
import Stm32Dds.PacketParsing

/-! What is parsed behind a block. When a block is cut, its callback moves es.pin to the
packet in which the copy ends, and ethernet_loop releases that packet without looking at
the rest of it. The copy starts at the place of the block in the command, whatever is in
front of the command in its packet. -/

set_option autoImplicit false

namespace Stm32Dds.Stream
open Bytes Lexer

theorem copyData_spans {q : Pbuf} {mids ps : List Pbuf} {hs : List Handled} (len offset : Nat)
    {n position : Nat} {c : Conn} (h : AtHand n (mids ++ q :: ps) position hs c) (ho : offset ≤ n)
    (hmore : n + bytes mids < offset+len) (hlen : offset+len ≤ n + (bytes mids + q.length)) :
    ∃ d, ethernetCopyData len offset c = .ok (len,d) ∧
      AtHand q.length ps (position + (n + bytes mids)) hs d := by
  obtain ⟨p,pin,hpin,rfl,hps⟩ := h.pin
  have hqueue : c.queue = p :: (mids ++ q :: ps) := by
    rw [Conn.queue,hpin,List.cons_append,hps]
  obtain ⟨d,gone,r,rest,hcopy,hends,hmoved,-⟩ := copyData_copies len offset hpin ho
    (by rw [hqueue,bytes_cons,bytes_append,bytes_cons]; omega)
  have hplace : EndsIn c.queue (offset+len) (p :: mids) q ps :=
    ⟨hqueue,fun _ => by rw [bytes_cons]; omega,by rw [bytes_cons]; omega⟩
  obtain ⟨rfl,rfl,rfl⟩ := hends.unique hplace
  obtain ⟨pin',hpin'⟩ := pin_of_queue hmoved.pin hmoved.queue
  refine ⟨d,hcopy,⟨_,pin',hpin',rfl,?_⟩,?_,hmoved.handled.trans h.handled⟩
  · have hrest := hmoved.queue
    rw [Conn.queue,hpin',List.cons_append] at hrest
    exact (List.cons.inj hrest).2
  · rw [hmoved.consumed,h.position,bytes_cons]

section
variable {o : Opening} (b : Placed o) (hfits : o.block.size ≤ Scpi.parallelBufSize)
include hfits

/-- The copy starts where the block would be if the packet started with the header, and no
blanks followed the block. -/
theorem callback_block (shift : Nat) (c : Conn) :
    scpiCallbackParallelData b.unit shift c =
      (ethernetCopyData o.block.size (o.text.length + b.trailing.length + shift)
        (c.setLength o.block.size)).map Prod.snd := by
  let alone : Placed o := { b with
    rest := []
    ends := fun hlt => by rw [(List.append_eq_nil_iff.mp (b.ends hlt)).1,List.append_nil]
    stop := .inr rfl }
  have hbody : alone.body = b.data ++ b.trailing := by simp [alone,Placed.body]
  have hparse := parseProgramData_first o.block alone.body
  rw [alone.body_blanks,hbody] at hparse
  have hoffset : b.blanks.length + (o.header.length+o.gap.length) +
      (o.block.text.length + o.block.size + b.trailing.length) + shift - b.blanks.length -
        o.block.size = o.text.length + b.trailing.length + shift := by
    rw [o.text_length]
    omega
  rw [scpiCallbackParallelData,Placed.unit]
  simp only [hparse]
  rw [if_neg (by simp; omega),hoffset]

theorem handle_block {done : Nat} {p : Parse} (hposition : p.position = p.conn.consumed+done)
    (hcommand : findPattern (Scpi.composeCompoundCommand p.prev.header (chars o.header)) =
      some parallelData) :
    handle b.unit p =
      (ethernetCopyData o.block.size
        (o.text.length + b.trailing.length + p.prev.shift (chars o.header))
        (p.conn.after (overwrite (unitHeader b.unit) p.prev done)
          [⟨p.position,b.unit,foundCommand p.prev b.unit⟩]
          { p.conn.parallel with length := BitVec.ofNat 32 o.block.size })).map fun r =>
        ⟨p.prev.behind (unitHeader b.unit),p.position+b.unit.size,r.2⟩ := by
  have hcall := callback_block b hfits (p.prev.shift (chars o.header))
  have hvalid : b.unit.invalid = false := rfl
  have hheader : b.unit.header = o.header := rfl
  have hmoved := memmove_overwrite hvalid o.header_ne hposition
  generalize b.unit = m at *
  rw [hheader] at hmoved
  have hlength (hs : List Handled) :
      (p.conn.after (overwrite (unitHeader m) p.prev done) hs p.conn.parallel).setLength o.block.size =
        p.conn.after (overwrite (unitHeader m) p.prev done) hs
          { p.conn.parallel with length := BitVec.ofNat 32 o.block.size } := rfl
  simp only [handle,hvalid,hheader,o.header_ne,hcommand,hmoved,hcall,hlength]
  generalize ethernetCopyData _ _ _ = copied
  cases copied <;> rfl

section
variable {front : List Byte} (hsizes : sizes (units front) = front.length) {prev : Scpi.Previous}
  (hprev : prev = previousBehind .none (units front))
  (hcommand : findPattern (Scpi.composeCompoundCommand prev.header (chars o.header)) =
    some parallelData)
include hsizes hprev hcommand

theorem handleAll_block (hreads : units (front ++ b.text) = units front ++ units b.text)
    {c : Conn} {pin : List Pbuf} (hpin : c.pin = (front ++ b.text) :: pin) :
    ∃ parallel : Scpi.Parallel, parallel.length = BitVec.ofNat 32 o.block.size ∧
      handleAll (units front ++ [b.unit]) ⟨.none,c.consumed,c⟩ =
        (ethernetCopyData o.block.size
          (o.text.length + b.trailing.length + prev.shift (chars o.header))
          (c.after (fun j x => overwrite (unitHeader b.unit) prev front.length j
              (overwrites .none 0 (units front) j x))
            (events .none c.consumed (units front) ++
              [⟨c.consumed+front.length,b.unit,foundCommand prev b.unit⟩])
            parallel)).map fun r =>
          ⟨prev.behind (unitHeader b.unit),c.consumed+front.length+b.unit.size,r.2⟩ := by
  have hwhole : (front ++ b.text).length = front.length + b.text.length := List.length_append
  obtain ⟨r,hr,hat,hrprev,hrpos,parallel,hrconn⟩ :=
    handleAll_inside hreads (by omega) (at_start hpin)
  replace hrprev : r.prev = prev := hrprev.trans hprev.symm
  rw [hsizes,Nat.zero_add] at hat
  rw [hsizes] at hrpos
  have hhandle := handle_block b hfits hat.position (by rw [hrprev]; exact hcommand)
  rw [hrprev,hrpos,hrconn,after_after] at hhandle
  refine ⟨_,?_,(handleAll_concat hr b.unit).trans hhandle⟩
  rfl

theorem scpiProcess_cut (hcut : b.trailing ++ b.rest = [])
    (hreads : units (front ++ b.text) = units front ++ units b.text) {mids ps : List Pbuf}
    {q : Pbuf} {early : Nat}
    (hearly : early = front.length + b.blanks.length - prev.shift (chars o.header))
    (hmore : early + (b.data.length + bytes mids) < o.block.size)
    (hlen : o.block.size ≤ b.data.length + (bytes mids + q.length)) {position : Nat}
    {hs : List Handled} {c : Conn} {pin : List Pbuf} (hpin : c.pin = (front ++ b.text) :: pin)
    (h : AtHand (front ++ b.text).length (mids ++ q :: ps) position hs c) :
    ∃ d, scpiProcess c = .ok d ∧
      AtHand q.length ps (position + ((front ++ b.text).length + bytes mids))
        (hs ++ (events .none position (units front) ++
          [⟨position+front.length,b.unit,foundCommand prev b.unit⟩])) d := by
  obtain rfl := h.position
  obtain ⟨htrailing,hrest⟩ := List.append_eq_nil_iff.mp hcut
  have htext : b.text ≠ [] := by simp [Placed.text,Opening.text,o.header_ne]
  have hlength : b.text.length = b.blanks.length + (o.text.length + b.data.length) := by
    simp [Placed.text,Placed.body,htrailing,hrest]
  have hwhole : (front ++ b.text).length = front.length + b.text.length := List.length_append
  have hunits : units b.text = [b.unit] := by
    have hsize : b.text.length ≤ b.unit.size := by
      rw [hlength]
      dsimp only [Placed.unit]
      omega
    rw [units_of_ne htext,b.detect_text,List.drop_eq_nil_of_le hsize,units_nil]
  -- the path in front of the header comes from the units in front of it
  have hshift : prev.shift (chars o.header) ≤ front.length := by
    rw [hprev]
    exact (shift_le _ _).trans (previousBehind_le hsizes)
  obtain ⟨parallel,-,hall⟩ := handleAll_block b hfits hsizes hprev hcommand hreads hpin
  rw [htrailing,List.length_nil,Nat.add_zero] at hall
  have hhand := h.notes (notes_after c (fun j x => overwrite (unitHeader b.unit) prev front.length j
    (overwrites .none 0 (units front) j x))
    (events .none c.consumed (units front) ++
      [⟨c.consumed+front.length,b.unit,foundCommand prev b.unit⟩]) parallel)
  generalize c.after _ _ parallel = e at *
  obtain ⟨d,hd,hend⟩ := copyData_spans o.block.size (o.text.length + prev.shift (chars o.header))
    hhand (by omega) (by omega) (by omega)
  refine ⟨d,?_,hend⟩
  rw [scpiProcess_units hpin (List.append_ne_nil_of_right_ne_nil _ htext),hreads,hunits,hall,hd]
  rfl

end

end

structure Line where
  text : List Byte
  complete : Complete text

def packet (ls : List Line) : Pbuf := (ls.map Line.text).flatten

theorem complete_packet (ls : List Line) : Complete (packet ls) := by
  induction ls with
  | nil => exact complete_nil
  | cons l ls ih => exact l.complete.append ih

def Line.headers (l : Line) : List Scpi.UnitHeader := (units l.text).map unitHeader

def lineEvents (position : Nat) (ls : List Line) : List Handled :=
  packetEvents position (ls.map Line.text)

theorem events_congr {prev prev' : Scpi.Previous} {ms : List Message}
    (h : Scpi.SameHeaders prev prev' (ms.map unitHeader)) (position : Nat) :
    events prev position ms = events prev' position ms := by
  induction ms generalizing prev prev' position with
  | nil => rfl
  | cons m ms ih =>
    obtain ⟨hheader,hrest⟩ := h
    rw [events,events,ih hrest]
    by_cases hskip : (unitHeader m).Skipped
    · obtain hinvalid | hempty := hskip
      · have hnone (p : Scpi.Previous) : foundCommand p m = none := if_pos hinvalid
        rw [hnone,hnone]
      · have hheader : m.header = [] := List.map_eq_nil_iff.mp hempty
        cases hinvalid : m.invalid with
        | false => simp [counts,hinvalid,hheader]
        | true => simp [foundCommand,hinvalid]
    · have hsame : foundCommand prev m = foundCommand prev' m :=
        congrArg (fun header => if m.invalid then none else findPattern header) (hheader hskip)
      rw [hsame]

theorem events_lines {carried : Bool} {prev : Scpi.Previous}
    (hprev : carried = false → ':' ∉ prev.header) {ls : List Line}
    (h : Scpi.Apart carried (ls.map Line.headers)) (position : Nat) :
    events prev position (units (packet ls)) = lineEvents position ls := by
  induction ls generalizing carried prev position with
  | nil => rfl
  | cons l ls ih =>
    obtain ⟨hline,hrest⟩ := h
    have hsize : sizes (units l.text) = l.text.length := l.complete.size
    have hpacket : packet (l :: ls) = l.text ++ packet ls := rfl
    have hcarried := Scpi.foldl_carriesPath hprev l.headers
    rw [Line.headers,previousBehind_eq] at hcarried
    rw [hpacket,l.complete.reads,events_append,hsize,
      events_congr (Scpi.sameHeaders_alone hprev hline),ih hcarried hrest]
    rfl

theorem events_packet {ls : List Line} (h : Scpi.Apart false (ls.map Line.headers))
    (position : Nat) : events .none position (units (packet ls)) = lineEvents position ls :=
  events_lines (by simp [Scpi.Previous.none]) h position

theorem lineEvents_append (position : Nat) (ls ks : List Line) : lineEvents position (ls ++ ks) =
    lineEvents position ls ++ lineEvents (position + (packet ls).length) ks := by
  have hbytes : bytes (ls.map Line.text) = (packet ls).length := by
    rw [bytes,← List.length_flatten,packet]
  rw [lineEvents,List.map_append,packetEvents_append,hbytes]
  rfl

theorem lineEvents_eq_nil {position : Nat} {ls : List Line} :
    lineEvents position ls = [] ↔ ∀ l ∈ ls, ∀ m ∈ units l.text, counts m = false := by
  rw [lineEvents,packetEvents_eq_nil,List.forall_mem_map]

theorem packetEvents_packets {lss : List (List Line)}
    (h : ∀ ls ∈ lss, Scpi.Apart false (ls.map Line.headers)) (position : Nat) :
    packetEvents position (lss.map packet) = lineEvents position lss.flatten := by
  induction lss generalizing position with
  | nil => rfl
  | cons ls lss ih =>
    rw [List.map_cons,packetEvents,events_packet (h ls (by simp)),
      ih fun ks hks => h ks (by simp [hks]),List.flatten_cons,lineEvents_append]

/-- How the data of a block is spread over pbufs. The last part has a byte of it. -/
inductive Cut
  | whole (data : List Byte)
  | parts (first : List Byte) (mids : List Pbuf) (last : List Byte) (last_ne : last ≠ [])

def Cut.data : Cut → List Byte
  | .whole data => data
  | .parts first mids last _ => first ++ (mids.flatten ++ last)

/-- Command lines with a block, cut into pbufs. In front of the command with the block
there may be others in its pbuf, also on its own line; `closing` is the rest of its line.
Every cut is between lines or in the data of the block. -/
structure Delivery where
  before : List (List Line)
  front : List Byte
  blanks : List Byte
  opening : Opening
  block : Cut
  closing : List Byte
  shared : List Line
  after : List (List Line)
  front_complete : Complete front
  blanks_blank : ∀ b ∈ blanks, isws b = true
  block_size : block.data.length = opening.block.size
  line_complete : Complete (blanks ++ (opening.text ++ (block.data ++ closing)))
  command : findPattern (Scpi.composeCompoundCommand
    (previousBehind .none (units front)).header (chars opening.header)) = some parallelData

namespace Delivery
variable (d : Delivery)

def pbufs : List Pbuf :=
  d.before.map packet ++ (match d.block with
    | .whole data =>
      [d.front ++ (d.blanks ++ (d.opening.text ++ (data ++ d.closing))) ++ packet d.shared]
    | .parts first mids last _ =>
      (d.front ++ (d.blanks ++ (d.opening.text ++ first))) ::
        (mids ++ [last ++ (d.closing ++ packet d.shared)])) ++ d.after.map packet

def blockEnd : Nat :=
  bytes (d.before.map packet) + (d.front.length +
    (d.blanks ++ (d.opening.text ++ (d.block.data ++ d.closing))).length)

def following : List Line := d.shared ++ d.after.flatten

/-- Whether the line with the block leaves a path to the lines behind it in the pbuf. -/
def carried : Bool :=
  ((units (d.front ++ (d.blanks ++ (d.opening.text ++ (d.block.data ++ d.closing))))).map
    unitHeader).foldl Scpi.carriesPath false

/-- No header behind the block is completed with the path of another line. -/
structure Apart : Prop where
  shared : ∀ data, d.block = .whole data → Scpi.Apart d.carried (d.shared.map Line.headers)
  after : ∀ ls ∈ d.after, Scpi.Apart false (ls.map Line.headers)

/-- Whenever the pbufs arrive, the lines behind the block are handled, each once and in
their order, and as the commands that they are by themselves. -/
def Resumes : Prop := ∀ arrivals : List (List Pbuf), arrivals.flatten = d.pbufs →
  ∃ c, serve arrivals = .loop c ∧
    handledFrom d.blockEnd c.handled = lineEvents d.blockEnd d.following

def Fits : Prop := d.opening.block.size ≤ Scpi.parallelBufSize

/-- By how much the copy starts, and ends, too early: what is in front of the command in
its pbuf, less the path that its header is completed with. -/
def early : Nat :=
  d.front.length + d.blanks.length -
    (previousBehind .none (units d.front)).shift (chars d.opening.header)

def Reaches : Prop :=
  match d.block with
  | .whole _ => True
  | .parts _ _ last _ => d.early < last.length

/-- Nothing is to be done for the lines that share a pbuf with the end of the block. -/
def SharesNothing : Prop := ∀ l ∈ d.shared, ∀ m ∈ units l.text, counts m = false

def Safe : Prop :=
  (∃ data, d.block = .whole data) ∨ (d.Fits ∧ d.Reaches ∧ d.SharesNothing)

theorem complete_packets (lss : List (List Line)) : ∀ q ∈ lss.map packet, Complete q := by
  intro q hq
  obtain ⟨ls,-,rfl⟩ := List.mem_map.mp hq
  exact complete_packet ls

theorem complete_upTo : Complete (d.front ++
    (d.blanks ++ (d.opening.text ++ (d.block.data ++ d.closing)))) :=
  d.front_complete.append d.line_complete

section
variable {data : List Byte} (h : d.block = .whole data)
include h

theorem pbufs_whole : d.pbufs = d.before.map packet ++
    (d.front ++ (d.blanks ++ (d.opening.text ++ (d.block.data ++ d.closing))) ++
      packet d.shared) :: d.after.map packet := by
  simp only [pbufs,h,Cut.data,List.append_assoc,List.cons_append,List.nil_append]

theorem complete_whole : ∀ q ∈ d.pbufs, Complete q := by
  intro q hq
  rw [d.pbufs_whole h,List.mem_append,List.mem_cons] at hq
  obtain hbefore | rfl | hafter := hq
  · exact complete_packets _ q hbefore
  · exact d.complete_upTo.append (complete_packet _)
  · exact complete_packets _ q hafter

theorem handledFrom_whole (hapart : d.Apart) : handledFrom d.blockEnd (packetEvents 0 d.pbufs) =
    lineEvents d.blockEnd d.following := by
  have hprev : d.carried = false → ':' ∉ (previousBehind .none (units (d.front ++
      (d.blanks ++ (d.opening.text ++ (d.block.data ++ d.closing)))))).header := by
    rw [← previousBehind_eq]
    exact Scpi.foldl_carriesPath (by simp [Scpi.Previous.none]) _
  have hend : 0 + bytes (d.before.map packet) + (d.front ++
      (d.blanks ++ (d.opening.text ++ (d.block.data ++ d.closing)))).length = d.blockEnd := by
    rw [blockEnd,List.length_append,Nat.zero_add]
  have hsize := d.complete_upTo.size
  -- the pbuf with the block: its line, and the lines behind it in the pbuf
  rw [d.pbufs_whole h,packetEvents_append,packetEvents,d.complete_upTo.reads,
    events_append,show sizes _ = _ from hsize,hend,events_lines hprev (hapart.shared data h),
    packetEvents_packets hapart.after,following,lineEvents_append,List.length_append,
    ← Nat.add_assoc,hend]
  simp only [handledFrom_append]
  rw [handledFrom_packets_in_front (complete_packets _) (by omega),
    handledFrom_in_front d.complete_upTo hend.le,List.nil_append,List.nil_append,lineEvents,
    lineEvents,handledFrom_packets_behind le_rfl,
    handledFrom_packets_behind (Nat.le_add_right _ _)]

theorem resumes_whole (hapart : d.Apart) : d.Resumes := by
  intro arrivals harr
  have hstart : Next (d.pbufs ++ []) 0 [] (.accepted arrivals) := by
    rw [List.append_nil,← harr]
    exact next_accepted arrivals
  obtain ⟨c,hc,hnext⟩ := hstart.loop_completes (d.complete_whole h) 1
  obtain ⟨e,he,hhandled⟩ := hnext.waits
  refine ⟨e,?_,?_⟩
  · rw [serve,harr,Nat.add_comm,hc,ethernetLoop,he]
  · rw [hhandled,List.nil_append,d.handledFrom_whole h hapart]

end

section
variable {first last : List Byte} {mids : List Pbuf} {hne : last ≠ []}
  (h : d.block = .parts first mids last hne)
include h

theorem pbufs_cut : d.pbufs = d.before.map packet ++
    ((d.front ++ (d.blanks ++ (d.opening.text ++ first))) ::
      (mids ++ (last ++ (d.closing ++ packet d.shared)) :: (d.after.map packet ++ []))) := by
  simp [pbufs,h]

theorem blockEnd_cut : d.blockEnd = bytes (d.before.map packet) + (d.front.length +
    (d.blanks.length + (d.opening.text.length +
      (first.length + (bytes mids + (last.length + d.closing.length)))))) := by
  simp [blockEnd,h,Cut.data,bytes]

theorem size_cut : d.opening.block.size = first.length + (bytes mids + last.length) := by
  rw [← d.block_size,h]
  simp [Cut.data,bytes]

/-- A turn of the loop takes the packet with the command, and all pbufs up to the one with
the last byte of the block. -/
theorem loop_cut (hfits : d.Fits) (hreach : d.Reaches) {ps : List Pbuf} {position : Nat}
    {hs : List Handled} {c : Conn}
    (hnext : Next ((d.front ++ (d.blanks ++ (d.opening.text ++ first))) ::
      (mids ++ (last ++ (d.closing ++ packet d.shared)) :: ps)) position hs c) (fuel : Nat) :
    ∃ e m found, ethernetLoop (fuel+1) c = ethernetLoop fuel e ∧
      Next ps (position + ((d.front ++ (d.blanks ++ (d.opening.text ++ first))).length +
          bytes mids) + (last ++ (d.closing ++ packet d.shared)).length)
        (hs ++ (events .none position (units d.front) ++
          [⟨position+d.front.length,m,found⟩])) e := by
  have hsize := d.size_cut h
  have hearly : d.early < last.length := by
    rw [Reaches,h] at hreach
    exact hreach
  obtain ⟨e,pin,he,hpin,hhand⟩ := hnext.atHand
  let b : Placed d.opening := ⟨d.blanks,first,[],[],d.blanks_blank,by simp,by omega,fun _ => rfl,
    .inr rfl⟩
  have htext : d.blanks ++ (d.opening.text ++ first) = b.text := by
    simp [b,Placed.text,Placed.body]
  rw [htext] at hpin hhand ⊢
  obtain ⟨f,hf,hend⟩ := scpiProcess_cut b hfits d.front_complete.size rfl d.command rfl
    (d.front_complete.reads b.text) (show d.early = _ from rfl) (by dsimp only [b]; omega)
    (by dsimp only [b]; rw [List.length_append]; omega) hpin hhand
  refine ⟨f,b.unit,_,?_,hend.next⟩
  rw [ethernetLoop,he]
  dsimp only
  rw [hf]

/-- Of a cut block, only the pbufs behind its last one are parsed. -/
theorem serve_cut (hapart : d.Apart) (hfits : d.Fits) (hreach : d.Reaches)
    {arrivals : List (List Pbuf)} (harr : arrivals.flatten = d.pbufs) :
    ∃ c, serve arrivals = .loop c ∧ handledFrom d.blockEnd c.handled =
      lineEvents (d.blockEnd + (packet d.shared).length) d.after.flatten := by
  have hpbufs := d.pbufs_cut h
  have hend := d.blockEnd_cut h
  have htext : 0 < d.opening.text.length := List.length_pos_iff.mpr
    (List.append_ne_nil_of_left_ne_nil d.opening.header_ne _)
  have hfirst := next_accepted arrivals
  rw [harr,hpbufs] at hfirst
  have hfuel : arrivals.flatten.length+1 =
      mids.length+1+1+(d.after.map packet).length+1 + (d.before.map packet).length := by
    rw [harr,hpbufs]
    simp only [List.length_append,List.length_cons,List.length_nil]
    omega
  obtain ⟨c₁,hc₁,hnext₁⟩ := hfirst.loop_completes (complete_packets d.before)
    (mids.length+1+1+(d.after.map packet).length+1)
  obtain ⟨c₂,m,found,hc₂,hnext₂⟩ := d.loop_cut h hfits hreach hnext₁
    (mids.length+1+1+(d.after.map packet).length)
  obtain ⟨c₃,hc₃,hnext₃⟩ := hnext₂.loop_completes (complete_packets d.after) (mids.length+1+1)
  obtain ⟨c₄,hc₄,hhandled⟩ := hnext₃.waits
  refine ⟨c₄,?_,?_⟩
  · rw [serve,hfuel,hc₁,hc₂,hc₃,ethernetLoop,hc₄]
  · have hplace : 0 + bytes (d.before.map packet) +
        ((d.front ++ (d.blanks ++ (d.opening.text ++ first))).length + bytes mids) +
        (last ++ (d.closing ++ packet d.shared)).length = d.blockEnd + (packet d.shared).length := by
      simp only [List.length_append]
      omega
    have hunit : handledFrom d.blockEnd
        [⟨0 + bytes (d.before.map packet) + d.front.length,m,found⟩] = [] :=
      List.filter_eq_nil_iff.mpr (by simp; omega)
    rw [hhandled,hplace,packetEvents_packets hapart.after]
    simp only [handledFrom_append]
    rw [handledFrom_packets_in_front (complete_packets _) (by omega),
      handledFrom_in_front d.front_complete (by omega),hunit,lineEvents,
      handledFrom_packets_behind (by omega)]
    rfl

theorem resumes_cut_iff (hapart : d.Apart) (hfits : d.Fits) (hreach : d.Reaches) :
    d.Resumes ↔ d.SharesNothing := by
  have hfollowing : lineEvents d.blockEnd d.following = lineEvents d.blockEnd d.shared ++
      lineEvents (d.blockEnd + (packet d.shared).length) d.after.flatten := lineEvents_append ..
  constructor
  · intro hres
    have hflat : [d.pbufs].flatten = d.pbufs := by simp
    obtain ⟨c,hc,hexpected⟩ := hres [d.pbufs] hflat
    obtain ⟨c',hc',hhandled⟩ := d.serve_cut h hapart hfits hreach hflat
    cases hc.symm.trans hc'
    rw [hhandled,hfollowing] at hexpected
    exact lineEvents_eq_nil.mp (List.self_eq_append_left.mp hexpected)
  · intro hnothing arrivals harr
    obtain ⟨c,hc,hhandled⟩ := d.serve_cut h hapart hfits hreach harr
    refine ⟨c,hc,?_⟩
    rw [hhandled,hfollowing,lineEvents_eq_nil.mpr hnothing,List.nil_append]

end

end Delivery

/-- Parsing goes on right behind the block if the block is not cut, or if nothing else is
to be done in the pbuf in which it ends; and if the copy ends there, only then. -/
theorem resumes_behind_block_iff (d : Delivery) (hapart : d.Apart) :
    (d.Safe → d.Resumes) ∧ (d.Fits → d.Reaches → (d.Resumes ↔ d.Safe)) := by
  cases hcut : d.block with
  | whole data =>
    have hres := d.resumes_whole hcut hapart
    have hsafe : d.Safe := .inl ⟨data,hcut⟩
    exact ⟨fun _ => hres,fun _ _ => ⟨fun _ => hsafe,fun _ => hres⟩⟩
  | parts first mids last hne =>
    have hsafe : d.Safe ↔ d.Fits ∧ d.Reaches ∧ d.SharesNothing := by
      simp [Delivery.Safe,hcut]
    rw [hsafe]
    constructor
    · rintro ⟨hfits,hreach,hnothing⟩
      exact (d.resumes_cut_iff hcut hapart hfits hreach).mpr hnothing
    · intro hfits hreach
      rw [d.resumes_cut_iff hcut hapart hfits hreach]
      exact ⟨fun hnothing => ⟨hfits,hreach,hnothing⟩,fun h => h.2.2⟩

def upload : Opening where
  header := Lexer.text "PAR:DAT"
  gap := Lexer.text " "
  block := ⟨chr '1',[chr '4'],by decide,by decide,by decide⟩
  header_ne := by decide
  header_whole := by decide
  gap_ne := by decide
  gap_blank := by decide

def switchOn : Line where
  text := Lexer.text ":OUT:STAT ON" ++ [newLine]
  complete := complete_plain (by unfold Plain; decide)

def switchOnRelative : Line where
  text := Lexer.text "OUT:STAT ON" ++ [newLine]
  complete := complete_plain (by unfold Plain; decide)

theorem nothing_blank : ∀ b ∈ ([] : List Byte), isws b = true := by simp

theorem upload_command : findPattern (Scpi.composeCompoundCommand
    (previousBehind .none (units [])).header (chars upload.header)) = some parallelData := by
  decide +kernel

def uploadAnd (line : Line) (block : Cut) (h : block.data = Lexer.text "abcd") : Delivery where
  before := []
  front := []
  blanks := []
  opening := upload
  block := block
  closing := [newLine]
  shared := [line]
  after := []
  front_complete := complete_nil
  blanks_blank := nothing_blank
  block_size := by rw [h]; decide
  line_complete := upload.complete (by rw [h]; decide)
  command := upload_command

theorem uploadAnd_apart {line : Line} (hline : Scpi.Opens line.headers) (block : Cut)
    (h : block.data = Lexer.text "abcd") : (uploadAnd line block h).Apart where
  shared _ _ := ⟨.inr hline,trivial⟩
  after _ hls := nomatch hls

theorem switchOn_opens : Scpi.Opens switchOn.headers := by decide +kernel

/-- PAR:DAT #14abcd and :OUT:STAT ON in one pbuf. -/
def wholeUpload : Delivery := uploadAnd switchOn (.whole (Lexer.text "abcd")) rfl

theorem resumes_behind_whole_block : wholeUpload.Safe ∧ wholeUpload.Resumes :=
  ⟨.inl ⟨_,rfl⟩,(resumes_behind_block_iff wholeUpload
    (uploadAnd_apart switchOn_opens _ _)).1 (.inl ⟨_,rfl⟩)⟩

/-- PAR:DAT #14ab, and in the next pbuf cd and :OUT:STAT ON. -/
def cutUpload : Delivery :=
  uploadAnd switchOn (.parts (Lexer.text "ab") [] (Lexer.text "cd") (by decide)) rfl

/-- PAR:DAT #14abcd and OUT:STAT ON in one pbuf: looked up as PAR:OUT:STAT. -/
def relativeUpload : Delivery := uploadAnd switchOnRelative (.whole (Lexer.text "abcd")) rfl

theorem line_lost_behind_block :
    ((∃ c, serve [cutUpload.pbufs] = .loop c ∧ c.consumed = 29 ∧
      c.handled.map Handled.position = [0]) ∧ ¬ cutUpload.Resumes) ∧
    (∃ c, serve [relativeUpload.pbufs] = .loop c ∧ c.handled.map Handled.command =
      [some parallelData,none]) ∧ ¬ relativeUpload.Resumes := by
  refine ⟨⟨⟨_,rfl,rfl,rfl⟩,?_⟩,⟨_,rfl,rfl⟩,?_⟩
  · have hfits : cutUpload.Fits := show upload.block.size ≤ Scpi.parallelBufSize by decide
    have hreach : cutUpload.Reaches := show 0 < 2 by decide
    rw [cutUpload.resumes_cut_iff rfl (uploadAnd_apart switchOn_opens _ _) hfits hreach]
    intro hnothing
    have hblank : ∀ m ∈ units switchOn.text, counts m = false := hnothing switchOn (.head _)
    exact absurd hblank (by decide)
  · intro hres
    obtain ⟨c,hc,hhandled⟩ := hres [relativeUpload.pbufs] (by simp)
    cases hc
    exact absurd hhandled (by decide +kernel)

end Stm32Dds.Stream
