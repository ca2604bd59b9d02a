import Stm32Dds.CommandQueue

/-! What the queue holds after a series of calls, and what execute_commands reads
back. The writer looks for the last record with one table of lengths, the reader
steps over records with another; they agree as long as the writer does not lose
its way in the payload of a parallel command. -/

set_option autoImplicit false

namespace Stm32Dds.Commands
open Bytes Tagged

/-- What the handlers called by execute_command add to the length. -/
def executedPayload (type : Byte) : Nat :=
  if type = CommandType.register.code then 8
  else if type = CommandType.pin.code then 12
  else if type = CommandType.wait.code then 4
  else if type = CommandType.parallel.code then 12
  else if type = CommandType.parallelFrequency.code then 4
  else 0

/-- One pass of the inner loop of execute_commands: where the cursor ends, and
what the handlers have done. -/
def executePass {σ : Type} (handle : Rec → σ → σ) (q : CommandQueue) (s : σ) : Option (Int × σ) :=
  walk executedPayload handle q.mem q.endPtr q.endPtr.toNat 0 s

/-- `do pass while (i++ < repeat)` on a 32-bit counter. -/
def repeatLoop {σ : Type} (pass : σ → Option σ) (repeatCount : BitVec 32) :
    Nat → BitVec 32 → σ → Option σ
  | 0, _, _ => none
  | fuel+1, i, s =>
    (pass s).bind fun s => if i < repeatCount then repeatLoop pass repeatCount fuel (i+1) s else some s

def executeCommands {σ : Type} (ledOn : σ → σ) (handle : Rec → σ → σ) (ledOff : σ → σ)
    (q : CommandQueue) (s : σ) : Option σ :=
  (repeatLoop (fun s => (executePass handle q s).map Prod.snd) q.repeatCount
    (q.repeatCount.toNat+1) 0 (ledOn s)).map ledOff

theorem repeatLoop_from {σ : Type} (f : σ → σ) (repeatCount i : BitVec 32) (n : Nat) (s : σ)
    (h : i.toNat+n = repeatCount.toNat) :
    repeatLoop (fun s => some (f s)) repeatCount (n+1) i s = some (f^[n+1] s) := by
  induction n generalizing i s with
  | zero =>
    have hi : ¬ i < repeatCount := by
      rw [BitVec.lt_def]
      omega
    simp [repeatLoop,hi]
  | succ n ih =>
    have hi : i < repeatCount := by
      rw [BitVec.lt_def]
      omega
    have hlt := repeatCount.isLt
    have hnext : (i+1).toNat+n = repeatCount.toNat := by
      simp only [BitVec.toNat_add,BitVec.ofNat_eq_ofNat,BitVec.toNat_ofNat]
      omega
    rw [repeatLoop]
    simp only [Option.bind_some,hi,if_true]
    rw [ih (i+1) (f s) hnext]
    rfl

theorem executeCommands_eq {σ : Type} (ledOn ledOff : σ → σ) (handle : Rec → σ → σ)
    (q : CommandQueue) (f : σ → σ) (hpass : ∀ s, executePass handle q s = some (q.endPtr,f s))
    (s : σ) :
    executeCommands ledOn handle ledOff q s =
      some (ledOff (f^[q.repeatCount.toNat+1] (ledOn s))) := by
  have hp : (fun s => (executePass handle q s).map Prod.snd) = fun s => some (f s) := by
    funext s
    simp [hpass s]
  rw [executeCommands,hp,repeatLoop_from f q.repeatCount 0 q.repeatCount.toNat _ (by simp)]
  rfl

def Cmd.record (c : Cmd) : Rec := (c.type.code,c.payload)

def spiRecord : Rec := (CommandType.spiWrite.code,[])

def startsRegister (cs : List Cmd) : Bool := cs.head?.any Cmd.isRegister

def endsRegister (cs : List Cmd) : Bool := cs.getLast?.any Cmd.isRegister

/-- The commands with a spi_write behind every maximal run of register commands. -/
def closed : List Cmd → List Rec
  | [] => []
  | c :: cs =>
    if c.isRegister && !startsRegister cs then c.record :: spiRecord :: closed cs
    else c.record :: closed cs

/-- The queue decodes to the commands: every pass hands exactly these records to
the handlers and stops at the end pointer, and there are repeat + 1 passes. -/
def Decodes (q : CommandQueue) (cs : List Cmd) : Prop :=
  ∀ (σ : Type) (ledOn ledOff : σ → σ) (handle : Rec → σ → σ) (s : σ),
    executePass handle q s = some (q.endPtr,(closed cs).foldl (fun s r => handle r s) s) ∧
    executeCommands ledOn handle ledOff q s = some (ledOff
      ((fun s => (closed cs).foldl (fun s r => handle r s) s)^[q.repeatCount.toNat+1] (ledOn s)))

/-- The calls one after the other; nothing when one of them does not return 0. -/
def queueAll (q : CommandQueue) : List Cmd → Option CommandQueue
  | [] => some q
  | c :: cs => if (c.queue q).1 = 0 then queueAll (c.queue q).2 cs else none

/-- How a call changes the bytes in use, given whether it takes back a byte first. -/
def extend (takeBack : Bool) (bs : List Byte) (c : Cmd) : List Byte :=
  if c.isRegister then (if takeBack then bs.dropLast else bs) ++ encode [c.record,spiRecord]
  else bs ++ encode [c.record]

def append (bs : List Byte) (c : Cmd) : List Byte := extend (searchFinds bs) bs c

theorem content_commandQueue {q : CommandQueue} (hq : InBuffer q) (type : CommandType)
    (cmd : List Byte) (hlen : cmd.length ≤ 12) (h : (commandQueue type cmd q).1 = 0) :
    content (commandQueue type cmd q).2 = content q ++ type.code :: cmd := by
  rw [commandQueue_eq hq type cmd hlen] at h ⊢
  split at h
  · simp at h
  · rename_i hroom
    rw [if_neg hroom]
    exact content_push hq.1 type cmd

theorem content_commandQueueRegister {q : CommandQueue} (hq : InBuffer q) (reg value : BitVec 32)
    (h : (commandQueueRegister reg value q).1 = 0) :
    content (commandQueueRegister reg value q).2 =
      content (trim q) ++ encode [(Cmd.register reg value).record,spiRecord] := by
  have hlen : (wordBytes reg ++ wordBytes value).length ≤ 12 := by simp
  have hkept := commandQueue_kept (trim_inBuffer hq) .register _ hlen
  rw [commandQueueRegister_eq] at h ⊢
  -- a sum of results is 0 only when both records found room
  obtain ⟨h₁,h₂⟩ := Nat.add_eq_zero_iff.mp h
  have e₁ := content_commandQueue (trim_inBuffer hq) .register _ hlen h₁
  have e₂ := content_commandQueue hkept.inBuffer .spiWrite [] (by simp) h₂
  simp only [e₁] at e₂
  simp only [e₂,encode,Cmd.record,Cmd.type,Cmd.payload,spiRecord]
  simp

theorem Cmd.isRegister_iff (c : Cmd) :
    c.isRegister = true ↔ ∃ reg value, c = .register reg value := by
  cases c <;> simp [isRegister,type]

theorem Cmd.queue_content {q : CommandQueue} (hq : InBuffer q) (c : Cmd) (h : (c.queue q).1 = 0) :
    content (c.queue q).2 = append (content q) c := by
  cases hc : c.isRegister with
  | false =>
    rw [c.queue_eq hc] at h ⊢
    rw [content_commandQueue hq _ _ c.payload_length_le h]
    simp [append,extend,hc,encode,Cmd.record]
  | true =>
    obtain ⟨reg,value,rfl⟩ := c.isRegister_iff.mp hc
    have hcontent := content_commandQueueRegister hq reg value h
    rw [content_trim] at hcontent
    simp only [append,extend,hc,if_true]
    exact hcontent

theorem Cmd.queue_repeatCount (c : Cmd) (q : CommandQueue) :
    (c.queue q).2.repeatCount = q.repeatCount := by
  have hone : ∀ (type : CommandType) (cmd : List Byte) (q : CommandQueue),
      (commandQueue type cmd q).2.repeatCount = q.repeatCount := by
    intro type cmd q
    simp only [commandQueue]
    split <;> rfl
  cases hc : c.isRegister with
  | false => rw [c.queue_eq hc,hone]
  | true =>
    obtain ⟨reg,value,rfl⟩ := c.isRegister_iff.mp hc
    change (commandQueueRegister reg value q).2.repeatCount = q.repeatCount
    rw [commandQueueRegister_eq]
    simp only [hone,trim_repeatCount]

theorem queueAll_spec {q q' : CommandQueue} {cs : List Cmd} (hq : InBuffer q)
    (h : queueAll q cs = some q') :
    InBuffer q' ∧ content q' = cs.foldl append (content q) ∧ q'.repeatCount = q.repeatCount := by
  induction cs generalizing q with
  | nil =>
    cases h
    exact ⟨hq,rfl,rfl⟩
  | cons c cs ih =>
    simp only [queueAll] at h
    split at h
    · rename_i hc
      obtain ⟨h₁,h₂,h₃⟩ := ih (c.queue_kept hq).inBuffer h
      exact ⟨h₁,by rw [h₂,c.queue_content hq hc]; rfl,h₃.trans (c.queue_repeatCount q)⟩
    · cases h

/-! ### The bytes the calls should leave -/

theorem closed_ne_nil (c : Cmd) (cs : List Cmd) : closed (c :: cs) ≠ [] := by
  simp only [closed]
  split <;> simp

/-- One more command at the end: its record, and a spi_write that moves behind it when
it prolongs a run. -/
theorem closed_snoc (cs : List Cmd) (c : Cmd) :
    closed (cs ++ [c]) =
      if c.isRegister then
        (if endsRegister cs then (closed cs).dropLast else closed cs) ++ [c.record,spiRecord]
      else closed cs ++ [c.record] := by
  induction cs with
  | nil => cases hc : c.isRegister <;> simp [closed,endsRegister,startsRegister,hc]
  | cons d ds ih =>
    cases ds with
    | nil =>
      cases hc : c.isRegister <;> cases hd : d.isRegister <;>
        simp [closed,endsRegister,startsRegister,hc,hd]
    | cons e es =>
      have hne := closed_ne_nil e es
      have hs : startsRegister (e :: es ++ [c]) = startsRegister (e :: es) := rfl
      have he : endsRegister (d :: e :: es) = endsRegister (e :: es) := by
        simp [endsRegister,List.getLast?_cons_cons]
      have hcons : ∀ ds, closed (d :: ds) = if d.isRegister && !startsRegister ds then
          d.record :: spiRecord :: closed ds else d.record :: closed ds := fun _ => rfl
      rw [List.cons_append,hcons,hcons,hs,ih,he]
      cases c.isRegister <;> cases d.isRegister && !startsRegister (e :: es) <;>
        cases endsRegister (e :: es) <;> simp [List.dropLast_cons_of_ne_nil,hne]

theorem closed_endsRegister {cs : List Cmd} (h : endsRegister cs = true) :
    ∃ rs, closed cs = rs ++ [spiRecord] := by
  cases cs using List.reverseRec with
  | nil => simp [endsRegister] at h
  | append_singleton cs c =>
    have hc : c.isRegister = true := by simpa [endsRegister] using h
    refine ⟨(if endsRegister cs then (closed cs).dropLast else closed cs) ++ [c.record],?_⟩
    rw [closed_snoc,if_pos hc]
    simp

theorem encode_closed_snoc (cs : List Cmd) (c : Cmd) :
    encode (closed (cs ++ [c])) = extend (endsRegister cs) (encode (closed cs)) c := by
  rw [closed_snoc,extend]
  cases hc : c.isRegister with
  | false => simp
  | true =>
    cases he : endsRegister cs with
    | false => simp
    | true =>
      obtain ⟨rs,hrs⟩ := closed_endsRegister he
      have hd : encode [spiRecord] = [CommandType.spiWrite.code] := rfl
      simp [hrs,hd]

/-- At every register call the search tells whether the call before was one. -/
def SearchesRight (cs : List Cmd) : Prop :=
  ∀ pre c post, cs = pre ++ c :: post → c.isRegister = true →
    searchFinds (encode (closed pre)) = endsRegister pre

theorem searchesRight_snoc (cs : List Cmd) (c : Cmd) :
    SearchesRight (cs ++ [c]) ↔ SearchesRight cs ∧
      (c.isRegister = true → searchFinds (encode (closed cs)) = endsRegister cs) := by
  constructor
  · intro h
    refine ⟨?_,fun hc => h cs c [] rfl hc⟩
    intro pre d post he hd
    exact h pre d (post ++ [c]) (by simp [he]) hd
  · rintro ⟨h,hlast⟩ pre d post he hd
    cases post using List.reverseRec with
    | nil =>
      obtain ⟨rfl,hcd⟩ := List.append_inj' he rfl
      cases hcd
      exact hlast hd
    | append_singleton post e =>
      have he' : cs ++ [c] = (pre ++ d :: post) ++ [e] := by simpa using he
      obtain ⟨hcs,-⟩ := List.append_inj' he' rfl
      exact h pre d post hcs hd

/-- The strings differ, and not only in a byte that a later call can take back. -/
def Differ (as bs : List Byte) : Prop := ∃ j, j+1 < as.length ∧ j+1 < bs.length ∧ as[j]? ≠ bs[j]?

theorem Differ.symm {as bs : List Byte} (h : Differ as bs) : Differ bs as := by
  obtain ⟨j,ha,hb,hne⟩ := h
  exact ⟨j,hb,ha,hne.symm⟩

theorem Differ.ne {as bs : List Byte} (h : Differ as bs) : as ≠ bs := by
  obtain ⟨j,-,-,hne⟩ := h
  rintro rfl
  exact hne rfl

theorem extend_getElem (takeBack : Bool) (bs : List Byte) (c : Cmd) (j : Nat)
    (h : j+1 < bs.length) :
    j+1 < (extend takeBack bs c).length ∧ (extend takeBack bs c)[j]? = bs[j]? := by
  have hd : j < bs.dropLast.length := by simp; omega
  have hg : bs.dropLast[j]? = bs[j]? := by
    rw [List.getElem?_dropLast,if_pos (by omega)]
  unfold extend
  split
  · split
    · rw [List.getElem?_append_left hd,hg]
      refine ⟨?_,rfl⟩
      simp [encode]
      omega
    · rw [List.getElem?_append_left (by omega)]
      refine ⟨?_,rfl⟩
      simp
      omega
  · rw [List.getElem?_append_left (by omega)]
    refine ⟨?_,rfl⟩
    simp
    omega

theorem Differ.extend {as bs : List Byte} (h : Differ as bs) (x y : Bool) (c : Cmd) :
    Differ (extend x as c) (extend y bs c) := by
  obtain ⟨j,ha,hb,hne⟩ := h
  obtain ⟨ha',ea⟩ := extend_getElem x as c j ha
  obtain ⟨hb',eb⟩ := extend_getElem y bs c j hb
  exact ⟨j,ha',hb',by rw [ea,eb]; exact hne⟩

/-- Taking a byte back where none should be, or leaving one: the tag of the new register
record and the tag of the spi_write stand at the same place. -/
theorem differ_takeBack {bs : List Byte} {c : Cmd} (hc : c.isRegister = true)
    (hlast : bs.getLast? = some CommandType.spiWrite.code) :
    Differ (extend true bs c) (extend false bs c) := by
  obtain ⟨front,rfl⟩ := List.getLast?_eq_some_iff.mp hlast
  obtain ⟨reg,value,rfl⟩ := c.isRegister_iff.mp hc
  refine ⟨front.length,?_,?_,?_⟩
  · simp [extend,hc,encode]
  · simp [extend,hc,encode]
  · simp [Commands.extend,hc,encode,Cmd.record,Cmd.type,CommandType.code]

/-- Either every search was right and the bytes are the intended ones, or a search was
wrong and the bytes differ for good. -/
theorem written_dichotomy (cs : List Cmd) :
    (SearchesRight cs ∧ cs.foldl append [] = encode (closed cs)) ∨
    (¬ SearchesRight cs ∧ Differ (cs.foldl append []) (encode (closed cs))) := by
  induction cs using List.reverseRec with
  | nil => exact .inl ⟨fun pre c post h => by simp at h,rfl⟩
  | append_singleton cs c ih =>
    rw [List.foldl_append,encode_closed_snoc,List.foldl_cons,List.foldl_nil,append]
    rw [searchesRight_snoc]
    rcases ih with ⟨hright,hbytes⟩ | ⟨hwrong,hdiff⟩
    · rw [hbytes]
      cases hc : c.isRegister with
      | false => exact .inl ⟨⟨hright,by simp⟩,by simp [extend,hc]⟩
      | true =>
        cases hs : searchFinds (encode (closed cs)) <;> cases he : endsRegister cs
        · exact .inl ⟨⟨hright,by simp⟩,rfl⟩
        · obtain ⟨rs,hrs⟩ := closed_endsRegister he
          have hlast : (encode (closed cs)).getLast? = some CommandType.spiWrite.code := by
            simp [hrs,encode,spiRecord]
          exact .inr ⟨by simp,(differ_takeBack hc hlast).symm⟩
        · exact .inr ⟨by simp,differ_takeBack hc (searchFinds_getLast hs)⟩
        · exact .inl ⟨⟨hright,by simp⟩,rfl⟩
    · exact .inr ⟨fun h => hwrong h.1,hdiff.extend _ _ c⟩

theorem mem_closed {cs : List Cmd} {r : Rec} (hr : r ∈ closed cs) :
    r = spiRecord ∨ ∃ c ∈ cs, r = c.record := by
  induction cs with
  | nil => cases hr
  | cons c cs ih =>
    simp only [closed] at hr
    split at hr
    · simp only [List.mem_cons] at hr ⊢
      rcases hr with rfl | rfl | hr
      · exact Or.inr ⟨c,Or.inl rfl,rfl⟩
      · exact Or.inl rfl
      · exact (ih hr).imp id fun ⟨d,hd,he⟩ => ⟨d,Or.inr hd,he⟩
    · simp only [List.mem_cons] at hr ⊢
      rcases hr with rfl | hr
      · exact Or.inr ⟨c,Or.inl rfl,rfl⟩
      · exact (ih hr).imp id fun ⟨d,hd,he⟩ => ⟨d,Or.inr hd,he⟩

theorem sized_closed (cs : List Cmd) : Sized executedPayload (closed cs) := by
  intro r hr
  rcases mem_closed hr with rfl | ⟨c,-,rfl⟩
  · rfl
  · cases c <;> simp [Cmd.record,Cmd.payload,Cmd.type,CommandType.code,executedPayload]

theorem executePass_encode {q : CommandQueue} (hpos : 0 ≤ q.endPtr) {rs : List Rec}
    (hsized : Sized executedPayload rs) (hcontent : content q = encode rs) {σ : Type}
    (handle : Rec → σ → σ) (s : σ) :
    executePass handle q s = some (q.endPtr,rs.foldl (fun s r => handle r s) s) := by
  have hlen : (encode rs).length = q.endPtr.toNat := by simp [← hcontent,content]
  refine walk_encode handle rs _ 0 s hsized (by omega) ?_ ?_
  · rw [hlen]
    exact hcontent
  · rw [← hlen]
    exact length_le_encode rs

theorem decodes_iff_content {q : CommandQueue} (hq : InBuffer q) (cs : List Cmd) :
    Decodes q cs ↔ content q = encode (closed cs) := by
  have hend : ((q.endPtr.toNat : Nat) : Int) = q.endPtr := Int.toNat_of_nonneg hq.1
  constructor
  · intro h
    have hpass := (h (List Rec) id id (fun r rs => rs ++ [r]) []).1
    obtain ⟨rs,hout,-,hload⟩ := walk_sound _ _ _ _ hq.1 hpass
    have hfold : ∀ (rs acc : List Rec), rs.foldl (fun s r => s ++ [r]) acc = acc ++ rs := by
      intro rs
      induction rs with
      | nil => simp
      | cons r rs ih => simp [ih]
    rw [hfold] at hout
    simp only [List.nil_append] at hout
    rw [hout]
    simpa [content] using hload
  · intro h σ ledOn ledOff handle s
    have hpass : ∀ s : σ, executePass handle q s =
        some (q.endPtr,(closed cs).foldl (fun s r => handle r s) s) :=
      fun s => executePass_encode hq.1 (sized_closed cs) h handle s
    exact ⟨hpass s,executeCommands_eq ledOn ledOff handle q _ hpass s⟩

def Cmd.isParallel (c : Cmd) : Bool := c.type = .parallel || c.type = .parallelFrequency

theorem sized_known {cs : List Cmd} (h : ∀ c ∈ cs, c.isParallel = false) :
    Sized knownPayload (closed cs) := by
  intro r hr
  have htable : executedPayload r.1 = knownPayload r.1 := by
    rcases mem_closed hr with rfl | ⟨c,hc,rfl⟩
    · rfl
    · have hp := h c hc
      cases c <;> first
        | rfl
        | simp [Cmd.isParallel,Cmd.type] at hp
  rw [← htable]
  exact sized_closed cs r hr

theorem closed_getLast (cs : List Cmd) :
    (closed cs).getLast?.map Prod.fst = some CommandType.spiWrite.code ↔ endsRegister cs = true := by
  cases cs using List.reverseRec with
  | nil => simp [closed,endsRegister]
  | append_singleton cs c =>
    rw [closed_snoc]
    cases hc : c.isRegister with
    | true => simp [endsRegister,hc,spiRecord]
    | false =>
      have htype : c.type.code ≠ CommandType.spiWrite.code := by
        cases c <;> simp [Cmd.type,CommandType.code]
      simp [endsRegister,hc,Cmd.record,htype]

theorem searchesRight_of_no_parallel {cs : List Cmd} (h : ∀ c ∈ cs, c.isParallel = false) :
    SearchesRight cs := by
  intro pre c post he _
  have hpre : ∀ c ∈ pre, c.isParallel = false := fun d hd => h d (by simp [he,hd])
  rw [Bool.eq_iff_iff,searchFinds,decide_eq_true_iff,lastTag_encode _ _ (sized_known hpre)]
  exact closed_getLast pre

theorem content_length {q : CommandQueue} (hq : InBuffer q) :
    ((content q).length : Int) = q.endPtr := by
  simp [content,Int.toNat_of_nonneg hq.1]

theorem commandQueue_zero_iff {q : CommandQueue} (hq : InBuffer q) (type : CommandType)
    (cmd : List Byte) (hlen : cmd.length ≤ 12) :
    (commandQueue type cmd q).1 = 0 ↔ (content q).length+1+cmd.length ≤ commandQueueLength := by
  have hc := content_length hq
  rw [commandQueue_eq hq type cmd hlen]
  split <;> simp only [Nat.one_ne_zero,false_iff,true_iff] <;> omega

theorem Cmd.queue_zero_iff {q : CommandQueue} (hq : InBuffer q) (c : Cmd) :
    (c.queue q).1 = 0 ↔ (append (content q) c).length ≤ commandQueueLength := by
  cases hc : c.isRegister with
  | false =>
    rw [c.queue_eq hc,commandQueue_zero_iff hq _ _ c.payload_length_le]
    simp [append,extend,hc,encode,Cmd.record,Nat.add_assoc,Nat.add_comm 1]
  | true =>
    obtain ⟨reg,value,rfl⟩ := c.isRegister_iff.mp hc
    have ht := trim_inBuffer hq
    have hlen : (wordBytes reg ++ wordBytes value).length = 8 := by simp
    have hkept := commandQueue_kept ht .register (wordBytes reg ++ wordBytes value) (by simp)
    have hone := commandQueue_zero_iff ht .register (wordBytes reg ++ wordBytes value) (by simp)
    have htwo := commandQueue_zero_iff hkept.inBuffer .spiWrite [] (by simp)
    have hlong : (append (content q) (.register reg value)).length =
        (content (trim q)).length+10 := by
      simp [append,extend,hc,encode,Cmd.record,Cmd.payload,spiRecord,content_trim]
    change (commandQueueRegister reg value q).1 = 0 ↔ _
    rw [commandQueueRegister_eq,hlong]
    simp only [Nat.add_eq_zero_iff]
    rw [hlen] at hone
    constructor
    · rintro ⟨h₁,h₂⟩
      have hcontent := content_commandQueue ht .register _ (by simp) h₁
      rw [htwo,hcontent] at h₂
      simp only [List.length_append,List.length_cons,wordBytes_length,List.length_nil] at h₂
      omega
    · intro hroom
      have h₁ := hone.mpr (by omega)
      have hcontent := content_commandQueue ht .register _ (by simp) h₁
      refine ⟨h₁,htwo.mpr ?_⟩
      rw [hcontent]
      simp only [List.length_append,List.length_cons,wordBytes_length,List.length_nil]
      omega

theorem queueAll_snoc (q : CommandQueue) (cs : List Cmd) (c : Cmd) :
    queueAll q (cs ++ [c]) =
      (queueAll q cs).bind fun q => if (c.queue q).1 = 0 then some (c.queue q).2 else none := by
  induction cs generalizing q with
  | nil => rfl
  | cons d ds ih =>
    simp only [List.cons_append,queueAll,ih]
    split <;> rfl

theorem extend_length (takeBack : Bool) (bs : List Byte) (c : Cmd) :
    bs.length ≤ (extend takeBack bs c).length := by
  unfold extend
  split
  · split
    · simp [encode]
      omega
    · simp
  · simp

theorem queueAll_content {mem : Memory} {repeatCount : BitVec 32} {cs : List Cmd} {q : CommandQueue}
    (hright : SearchesRight cs) (h : queueAll ⟨mem,0,repeatCount⟩ cs = some q) :
    content q = encode (closed cs) := by
  obtain ⟨-,hcontent,-⟩ := queueAll_spec (inBuffer_empty _ _) h
  rcases written_dichotomy cs with ⟨-,hbytes⟩ | ⟨hwrong,-⟩
  · exact hcontent.trans hbytes
  · exact absurd hright hwrong

theorem queueAll_fits (mem : Memory) (repeatCount : BitVec 32) (cs : List Cmd)
    (hright : SearchesRight cs) (hfit : (encode (closed cs)).length ≤ commandQueueLength) :
    ∃ q, queueAll ⟨mem,0,repeatCount⟩ cs = some q := by
  induction cs using List.reverseRec with
  | nil => exact ⟨_,rfl⟩
  | append_singleton cs c ih =>
    obtain ⟨hcs,hc⟩ := (searchesRight_snoc cs c).mp hright
    rw [encode_closed_snoc] at hfit
    obtain ⟨q,hq⟩ := ih hcs ((extend_length _ _ _).trans hfit)
    obtain ⟨hin,-,-⟩ := queueAll_spec (inBuffer_empty _ _) hq
    have hbytes := queueAll_content hcs hq
    have hzero : (c.queue q).1 = 0 := by
      rw [c.queue_zero_iff hin,hbytes,append]
      cases hr : c.isRegister with
      | false => simpa [extend,hr] using hfit
      | true => rw [hc hr]; exact hfit
    exact ⟨_,by rw [queueAll_snoc,hq,Option.bind_some,if_pos hzero]⟩

/-- What was queued is what is played, exactly as long as the search of
command_queue_register is never misled. -/
theorem queue_decodes_iff (mem : Memory) (repeatCount : BitVec 32) (cs : List Cmd)
    (q : CommandQueue) (h : queueAll ⟨mem,0,repeatCount⟩ cs = some q) :
    Decodes q cs ↔ SearchesRight cs := by
  obtain ⟨hin,hcontent,-⟩ := queueAll_spec (inBuffer_empty _ _) h
  have hstart : content ⟨mem,0,repeatCount⟩ = [] := rfl
  rw [decodes_iff_content hin,hcontent,hstart]
  rcases written_dichotomy cs with ⟨hright,hbytes⟩ | ⟨hwrong,hdiff⟩
  · exact iff_of_true hbytes hright
  · exact iff_of_false hdiff.ne hwrong

theorem queue_decodes_three : ∃ q,
    queueAll ⟨fun _ => 0,0,2⟩ [.register 0x20000010 1,.register 0x20000020 7,.wait 5] = some q ∧
      Decodes q [.register 0x20000010 1,.register 0x20000020 7,.wait 5] := by
  have hsome : (queueAll ⟨fun _ => 0,0,2⟩
      [.register 0x20000010 1,.register 0x20000020 7,.wait 5]).isSome = true := by decide +kernel
  obtain ⟨q,hq⟩ := Option.isSome_iff_exists.mp hsome
  exact ⟨q,hq,(queue_decodes_iff _ _ _ q hq).mpr (searchesRight_of_no_parallel (by decide))⟩

/-- The highest byte of the repeat count of a parallel run is taken for a spi_write. -/
theorem parallel_payload_cut : ∃ q,
    queueAll ⟨fun _ => 0,0,0⟩ [.parallel 0x20001000 100 0x06000000,.register 0x20000010 1] = some q ∧
      ¬ Decodes q [.parallel 0x20001000 100 0x06000000,.register 0x20000010 1] := by
  have hsome : (queueAll ⟨fun _ => 0,0,0⟩
      [.parallel 0x20001000 100 0x06000000,.register 0x20000010 1]).isSome = true := by decide +kernel
  obtain ⟨q,hq⟩ := Option.isSome_iff_exists.mp hsome
  obtain ⟨hin,hcontent,-⟩ := queueAll_spec (inBuffer_empty _ _) hq
  refine ⟨q,hq,?_⟩
  rw [decodes_iff_content hin,hcontent]
  decide +kernel

end Stm32Dds.Commands
