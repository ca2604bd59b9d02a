import Stm32Dds.ScpiCallbacks

set_option autoImplicit false

namespace Stm32Dds.Scpi
open Bytes Tagged Ad9910 Commands

def readsSpiWrite (bs : List Byte) : Bool :=
  lastTag executedPayload bs = some CommandType.spiWrite.code

/-- The command is in the queue behind everything that was there. A register command
brings its spi_write along, and may put it in the place of the one that ended the queue. -/
def Appends (bs : List Byte) (c : Cmd) (bs' : List Byte) : Prop :=
  if c.isRegister then
    bs' = bs ++ encode [c.record,spiRecord] ∨
      (readsSpiWrite bs = true ∧ bs' = bs.dropLast ++ encode [c.record,spiRecord])
  else bs' = bs ++ encode [c.record]

/-- There is room, and a byte is taken back only if it is a spi_write. -/
def Accepts (bs : List Byte) (c : Cmd) : Prop :=
  (append bs c).length ≤ commandQueueLength ∧
    (c.isRegister = true → searchFinds bs = true → readsSpiWrite bs = true)

theorem readsSpiWrite_getLast {bs : List Byte} (h : readsSpiWrite bs = true) :
    bs.getLast? = some CommandType.spiWrite.code :=
  lastTag_getLast executedPayload _ _ (of_decide_eq_true h) rfl

theorem append_of_accepts {bs : List Byte} {c : Cmd} (h : Accepts bs c) :
    Appends bs c (append bs c) := by
  unfold Appends append extend
  split
  · rename_i hc
    cases hs : searchFinds bs with
    | false => exact .inl (by simp)
    | true => exact .inr ⟨h.2 hc hs,by simp⟩
  · rfl

theorem commandQueue_cases {q : CommandQueue} (hq : InBuffer q) (type : CommandType)
    (cmd : List Byte) (hlen : cmd.length ≤ 12) :
    ((commandQueue type cmd q).1 = 0 ∧
      content (commandQueue type cmd q).2 = content q ++ type.code :: cmd) ∨
    ((commandQueue type cmd q).1 ≠ 0 ∧ (commandQueue type cmd q).2 = q) := by
  by_cases h : (commandQueue type cmd q).1 = 0
  · exact .inl ⟨h,content_commandQueue hq type cmd hlen h⟩
  · refine .inr ⟨h,?_⟩
    rw [commandQueue_eq hq type cmd hlen] at h ⊢
    split at h
    · rename_i hfull
      rw [if_pos hfull]
    · exact absurd rfl h

theorem content_trim_length (q : CommandQueue) :
    (content (trim q)).length ≤ (content q).length ∧
      (searchFinds (content q) = true → (content (trim q)).length < (content q).length) := by
  rw [content_trim]
  split
  · rename_i hs
    have hne : content q ≠ [] := by
      intro hnil
      have hlast := searchFinds_getLast hs
      simp [hnil] at hlast
    have hpos := List.length_pos_iff.mpr hne
    simp only [List.length_dropLast]
    omega
  · rename_i hs
    exact ⟨le_refl _,fun h => absurd h hs⟩

/-- The outcomes of a register call, by the room that is left once a closing spi_write
has been taken back. -/
theorem register_outcome {q : CommandQueue} (hq : InBuffer q) (reg value : BitVec 32) :
    ((content (trim q)).length+10 ≤ commandQueueLength ∧
      (commandQueueRegister reg value q).1 = 0) ∨
    ((commandQueueRegister reg value q).1 ≠ 0 ∧
      (((content (trim q)).length+9 = commandQueueLength ∧
        content (commandQueueRegister reg value q).2 =
          content (trim q) ++ encode [(Cmd.register reg value).record]) ∨
      (commandQueueLength < (content (trim q)).length+9 ∧
        (content (trim q)).length < commandQueueLength ∧
        content (commandQueueRegister reg value q).2 = content (trim q) ++ encode [spiRecord]) ∨
      ((content (trim q)).length = commandQueueLength ∧
        content (commandQueueRegister reg value q).2 = content (trim q)))) := by
  have ht := trim_inBuffer hq
  have hk := commandQueue_kept ht .register (wordBytes reg ++ wordBytes value) (by simp)
  have hcap := content_length ht
  have hmax := ht.2
  have hroom := commandQueue_zero_iff ht .register (wordBytes reg ++ wordBytes value) (by simp)
  simp only [List.length_append,wordBytes_length] at hroom
  rw [commandQueueRegister_eq]
  rcases commandQueue_cases ht .register (wordBytes reg ++ wordBytes value) (by simp) with
    ⟨z₁,c₁⟩ | ⟨z₁,e₁⟩
  · have hroom₂ := commandQueue_zero_iff hk.inBuffer .spiWrite [] (by simp)
    rw [c₁] at hroom₂
    simp only [List.length_append,List.length_cons,wordBytes_length,List.length_nil] at hroom₂
    have hfits := hroom.mp z₁
    rcases commandQueue_cases hk.inBuffer .spiWrite [] (by simp) with ⟨z₂,-⟩ | ⟨z₂,e₂⟩
    · refine .inl ⟨?_,by simp [z₁,z₂]⟩
      have := hroom₂.mp z₂
      omega
    · refine .inr ⟨by simp [z₂],.inl ⟨?_,?_⟩⟩
      · rw [Ne,hroom₂] at z₂
        omega
      · simp only [e₂,c₁,encode,Cmd.record,Cmd.type,Cmd.payload,List.append_nil]
  · rw [Ne,hroom] at z₁
    have hfail : (commandQueue .register (wordBytes reg ++ wordBytes value) (trim q)).1 ≠ 0 := by
      rw [Ne,hroom]
      exact z₁
    have hroom₂ := commandQueue_zero_iff ht .spiWrite [] (by simp)
    rw [List.length_nil] at hroom₂
    simp only [e₁]
    rcases commandQueue_cases ht .spiWrite [] (by simp) with ⟨z₂,c₂⟩ | ⟨z₂,e₂⟩
    · refine .inr ⟨by omega,.inr (.inl ⟨by omega,?_,c₂⟩)⟩
      have := hroom₂.mp z₂
      omega
    · refine .inr ⟨by omega,.inr (.inr ⟨?_,by rw [e₂]⟩)⟩
      rw [Ne,hroom₂] at z₂
      omega

theorem content_register_full {q : CommandQueue} (hq : InBuffer q) (reg value : BitVec 32)
    (hfull : (commandQueueRegister reg value q).1 ≠ 0) :
    content (commandQueueRegister reg value q).2 =
        content (trim q) ++ encode [(Cmd.register reg value).record] ∨
      content (commandQueueRegister reg value q).2 = content (trim q) ++ encode [spiRecord] ∨
      content (commandQueueRegister reg value q).2 = content q := by
  rcases register_outcome hq reg value with ⟨-,hz⟩ | ⟨-,⟨-,h⟩ | ⟨-,-,h⟩ | ⟨hcap,h⟩⟩
  · exact absurd hz hfull
  · exact .inl h
  · exact .inr (.inl h)
  · -- not even one byte of room, so none was taken back
    obtain ⟨-,hlt⟩ := content_trim_length q
    have hlen := content_length hq
    have hmax := hq.2
    have hs : searchFinds (content q) = false := by
      by_contra hs
      have := hlt (by simpa using hs)
      omega
    rw [h,content_trim,hs]
    exact .inr (.inr rfl)

theorem encode_register_length (reg value : BitVec 32) :
    (encode [(Cmd.register reg value).record]).length = 9 ∧
      (encode [(Cmd.register reg value).record,spiRecord]).length = 10 := by
  simp [encode,Cmd.record,Cmd.payload,spiRecord]

theorem not_appends_full {q : CommandQueue} (hq : InBuffer q) (reg value : BitVec 32)
    (hfull : (commandQueueRegister reg value q).1 ≠ 0) :
    ¬ Appends (content q) (.register reg value) (content (commandQueueRegister reg value q).2) := by
  obtain ⟨ht,-⟩ := content_trim_length q
  obtain ⟨h₉,h₁₀⟩ := encode_register_length reg value
  have hspi : (encode [spiRecord]).length = 1 := rfl
  have hc : (Cmd.register reg value).isRegister = true := rfl
  rw [Appends,if_pos hc]
  rintro (h | ⟨hreads,h⟩)
  · have hlen := congrArg List.length h
    rcases content_register_full hq reg value hfull with e | e | e <;> rw [e] at hlen <;>
      simp only [List.length_append,h₉,h₁₀,hspi] at hlen <;> omega
  · obtain ⟨front,hfront⟩ := List.getLast?_eq_some_iff.mp (readsSpiWrite_getLast hreads)
    have hlen := congrArg List.length h
    have hlen' := congrArg List.length hfront
    simp only [List.length_append,List.length_dropLast,List.length_singleton,h₁₀] at hlen hlen'
    rcases content_register_full hq reg value hfull with e | e | e
    · -- the register record found room and its spi_write did not: the two can be told
      -- apart where the old spi_write was
      rw [e,List.length_append,h₉] at hlen
      have htrim : content (trim q) = content q := by
        rw [content_trim] at hlen ⊢
        split
        · rename_i hs
          rw [if_pos hs,List.length_dropLast] at hlen
          omega
        · rfl
      rw [e,htrim,hfront,List.dropLast_concat] at h
      simp [encode,Cmd.record,Cmd.type,CommandType.code] at h
    · rw [e,List.length_append,hspi] at hlen
      omega
    · rw [e] at hlen
      omega

theorem appends_iff_accepts {q : CommandQueue} (hq : InBuffer q) (c : Cmd) :
    Appends (content q) c (content (c.queue q).2) ↔ Accepts (content q) c := by
  by_cases hz : (c.queue q).1 = 0
  · have hcontent := c.queue_content hq hz
    have hroom := (c.queue_zero_iff hq).mp hz
    rw [hcontent]
    refine ⟨fun h => ⟨hroom,?_⟩,append_of_accepts⟩
    intro hc hs
    rw [Appends,if_pos hc,append,extend,if_pos hc,hs,if_pos rfl] at h
    rcases h with h | ⟨hreads,-⟩
    · have hlast := searchFinds_getLast hs
      obtain ⟨front,hfront⟩ := List.getLast?_eq_some_iff.mp hlast
      have hlen := congrArg List.length h
      have hlen' := congrArg List.length hfront
      simp only [List.length_append,List.length_dropLast,List.length_singleton] at hlen hlen'
      omega
    · exact hreads
  · have hroom : ¬ Accepts (content q) c := fun h => hz ((c.queue_zero_iff hq).mpr h.1)
    refine iff_of_false ?_ hroom
    cases hc : c.isRegister with
    | true =>
      obtain ⟨reg,value,rfl⟩ := c.isRegister_iff.mp hc
      exact not_appends_full hq reg value hz
    | false =>
      rw [c.queue_eq hc] at hz ⊢
      rcases commandQueue_cases hq c.type c.payload c.payload_length_le with ⟨h,-⟩ | ⟨-,h⟩
      · exact absurd h hz
      · rw [h,Appends,hc]
        simp [encode]

theorem appends_iff_extend {bs bs' : List Byte} {c : Cmd} (h : Appends bs c bs') :
    ∃ takeBack, bs' = extend takeBack bs c ∧
      (takeBack = true → bs.getLast? = some CommandType.spiWrite.code) := by
  unfold Appends at h
  split at h
  · rename_i hc
    rcases h with rfl | ⟨hreads,rfl⟩
    · exact ⟨false,by simp [extend,hc],by simp⟩
    · exact ⟨true,by simp [extend,hc],fun _ => readsSpiWrite_getLast hreads⟩
  · rename_i hc
    exact ⟨false,by simp [extend,hc,h],by simp⟩

theorem queue_getElem {q : CommandQueue} (hq : InBuffer q) (c : Cmd) (j : Nat)
    (hj : j+1 < (content q).length) :
    j+1 < (content (c.queue q).2).length ∧ (content (c.queue q).2)[j]? = (content q)[j]? := by
  by_cases hz : (c.queue q).1 = 0
  · rw [c.queue_content hq hz]
    exact extend_getElem _ _ c j hj
  · cases hc : c.isRegister with
    | false =>
      rw [c.queue_eq hc] at hz ⊢
      rcases commandQueue_cases hq c.type c.payload c.payload_length_le with ⟨h,-⟩ | ⟨-,h⟩
      · exact absurd h hz
      · rw [h]
        exact ⟨hj,rfl⟩
    | true =>
      obtain ⟨reg,value,rfl⟩ := c.isRegister_iff.mp hc
      have htrim : j < (content (trim q)).length ∧ (content (trim q))[j]? = (content q)[j]? := by
        rw [content_trim]
        split
        · rw [List.length_dropLast,List.getElem?_dropLast,if_pos (by omega)]
          exact ⟨by omega,rfl⟩
        · exact ⟨by omega,rfl⟩
      obtain ⟨h₉,-⟩ := encode_register_length reg value
      have hspi : (encode [spiRecord]).length = 1 := rfl
      change j+1 < (content (commandQueueRegister reg value q).2).length ∧
        (content (commandQueueRegister reg value q).2)[j]? = _
      rcases content_register_full hq reg value hz with e | e | e <;> rw [e]
      · rw [List.getElem?_append_left htrim.1,List.length_append,h₉]
        exact ⟨by omega,htrim.2⟩
      · rw [List.getElem?_append_left htrim.1,List.length_append,hspi]
        exact ⟨by omega,htrim.2⟩
      · exact ⟨hj,rfl⟩

def AppendsAll : List Byte → List Cmd → List Byte → Prop
  | bs, [], bs' => bs' = bs
  | bs, c :: cs, bs' => ∃ mid, Appends bs c mid ∧ AppendsAll mid cs bs'

def AcceptsAll (bs : List Byte) : List Cmd → Prop
  | [] => True
  | c :: cs => Accepts bs c ∧ AcceptsAll (append bs c) cs

def queueEach (q : CommandQueue) (cs : List Cmd) : CommandQueue :=
  cs.foldl (fun q c => (c.queue q).2) q

theorem appendsAll_getElem {bs bs' : List Byte} {cs : List Cmd} (h : AppendsAll bs cs bs')
    (j : Nat) (hj : j+1 < bs.length) : bs'[j]? = bs[j]? := by
  induction cs generalizing bs with
  | nil => rw [show bs' = bs from h]
  | cons c cs ih =>
    obtain ⟨mid,hmid,hrest⟩ := h
    obtain ⟨takeBack,rfl,-⟩ := appends_iff_extend hmid
    obtain ⟨hlen,hget⟩ := extend_getElem takeBack bs c j hj
    rw [ih hrest hlen,hget]

theorem queueEach_getElem {q : CommandQueue} (hq : InBuffer q) (cs : List Cmd) (j : Nat)
    (hj : j+1 < (content q).length) : (content (queueEach q cs))[j]? = (content q)[j]? := by
  induction cs generalizing q with
  | nil => rfl
  | cons c cs ih =>
    obtain ⟨hlen,hget⟩ := queue_getElem hq c j hj
    exact (ih (c.queue_kept hq).inBuffer hlen).trans hget

theorem queueEach_inBuffer {q : CommandQueue} (hq : InBuffer q) (cs : List Cmd) :
    InBuffer (queueEach q cs) := by
  induction cs generalizing q with
  | nil => exact hq
  | cons c cs ih => exact ih (c.queue_kept hq).inBuffer

theorem extend_length_bounds (x y : Bool) (bs : List Byte) (c : Cmd) :
    bs.length < (extend x bs c).length ∧ (extend x bs c).length ≤ (extend y bs c).length+1 := by
  cases hc : c.isRegister with
  | false => simp [extend,hc,encode]
  | true =>
    have htwo : 2 ≤ (encode [c.record,spiRecord]).length := by
      simp only [encode,List.length_cons,List.length_append]
      omega
    have hlen : ∀ z : Bool, (extend z bs c).length =
        (if z then bs.length-1 else bs.length)+(encode [c.record,spiRecord]).length := by
      intro z
      cases z <;> simp [extend,hc]
    rw [hlen x,hlen y]
    cases x <;> cases y <;> simp only [if_true,if_false,Bool.false_eq_true] <;> omega

theorem appendsAll_length {bs bs' : List Byte} {cs : List Cmd} (h : AppendsAll bs cs bs') :
    bs.length+cs.length ≤ bs'.length := by
  induction cs generalizing bs with
  | nil => simp [show bs' = bs from h]
  | cons c cs ih =>
    obtain ⟨mid,hmid,hrest⟩ := h
    obtain ⟨takeBack,rfl,-⟩ := appends_iff_extend hmid
    have hgrow := (extend_length_bounds takeBack takeBack bs c).1
    have htail := ih hrest
    rw [List.length_cons]
    omega

theorem extend_differ {bs : List Byte} {c : Cmd} {x y : Bool}
    (hx : x = true → bs.getLast? = some CommandType.spiWrite.code)
    (hy : y = true → bs.getLast? = some CommandType.spiWrite.code)
    (hne : extend x bs c ≠ extend y bs c) : Differ (extend x bs c) (extend y bs c) := by
  have hc : c.isRegister = true := by
    by_contra hc
    exact hne (by simp [extend,hc])
  cases x <;> cases y
  · exact absurd rfl hne
  · exact (differ_takeBack hc (hy rfl)).symm
  · exact differ_takeBack hc (hx rfl)
  · exact absurd rfl hne

/-- All commands of a callback are in the queue at its end exactly when the queue
accepts each in turn. -/
theorem appendsAll_iff_acceptsAll {q : CommandQueue} (hq : InBuffer q) (cs : List Cmd) :
    AppendsAll (content q) cs (content (queueEach q cs)) ↔ AcceptsAll (content q) cs := by
  induction cs generalizing q with
  | nil => exact iff_of_true rfl trivial
  | cons c cs ih =>
    have hnext := (c.queue_kept hq).inBuffer
    have hstep : queueEach q (c :: cs) = queueEach (c.queue q).2 cs := rfl
    constructor
    · rintro ⟨mid,hmid,hrest⟩
      rw [hstep] at hrest
      have hsame : mid = content (c.queue q).2 := by
        cases cs with
        | nil => exact hrest.symm
        | cons d ds =>
          obtain ⟨takeBack,rfl,hback⟩ := appends_iff_extend hmid
          -- the rest took at least one more byte, so this call had room
          have hlong := appendsAll_length hrest
          have hbound := (extend_length_bounds (searchFinds (content q)) takeBack (content q) c).2
          have hfin := queueEach_inBuffer hnext (d :: ds)
          have hcap := content_length hfin
          have hmax := hfin.2
          rw [List.length_cons] at hlong
          have hz : (c.queue q).1 = 0 := by
            rw [c.queue_zero_iff hq,append]
            omega
          rw [c.queue_content hq hz,append]
          by_contra hne
          obtain ⟨j,h₁,h₂,hj⟩ := extend_differ hback searchFinds_getLast hne
          apply hj
          rw [← appendsAll_getElem hrest j h₁]
          have hget := queueEach_getElem hnext (d :: ds) j (by rwa [c.queue_content hq hz])
          rw [hget,c.queue_content hq hz,append]
      subst hsame
      have hok := (appends_iff_accepts hq c).mp hmid
      have hz := (c.queue_zero_iff hq).mpr hok.1
      refine ⟨hok,?_⟩
      rw [← c.queue_content hq hz]
      exact (ih hnext).mp hrest
    · rintro ⟨hok,hrest⟩
      have hz := (c.queue_zero_iff hq).mpr hok.1
      rw [← c.queue_content hq hz] at hrest
      exact ⟨_,(appends_iff_accepts hq c).mpr hok,(ih hnext).mpr hrest⟩

/-- A callback in program mode reports success only for commands that are in the queue,
and otherwise an error, with the queue as it was. -/
def NoSilentDrop (lay : Layout) (k : Conversions) (cb : Callback) (dev : Device) : Prop :=
  ((cb.run lay k dev).1 = .ok → ∃ cs, cb.commands lay k dev.parallel = .ok cs ∧
    AppendsAll (content dev.queue) cs (content (cb.run lay k dev).2.queue)) ∧
  ((cb.run lay k dev).1 = .err → (∃ e, (cb.run lay k dev).2.errors = dev.errors ++ [e]) ∧
    content (cb.run lay k dev).2.queue = content dev.queue)

theorem no_silent_drop_iff (lay : Layout) (k : Conversions) (cb : Callback) (dev : Device)
    (hmode : dev.mode = .program) (hq : InBuffer dev.queue) :
    NoSilentDrop lay k cb dev ↔
      ∀ cs, cb.commands lay k dev.parallel = .ok cs → AcceptsAll (content dev.queue) cs := by
  cases hcs : cb.commands lay k dev.parallel with
  | error e =>
    have hrun : cb.run lay k dev = (.err,{ dev with errors := dev.errors ++ [e] }) := by
      simp [Callback.run,hcs]
    refine iff_of_true ?_ (by simp)
    simp [NoSilentDrop,hrun]
  | ok cs =>
    have hrun : cb.run lay k dev = (.ok,{ dev with queue := queueEach dev.queue cs }) := by
      simp [Callback.run,hcs,foldl_processCommand lay cs dev hmode,queueEach]
    have hiff := appendsAll_iff_acceptsAll hq cs
    simp only [NoSilentDrop,hrun,hcs]
    simp [hiff]

def Layout.plain : Layout :=
  ⟨⟨fun _ => Field.ftw,fun _ _ => 0,fun _ => true⟩,fun _ => 0x20000010,0x20001000⟩

def Conversions.plain : Conversions :=
  let round : ℚ → BitVec 32 := fun v => BitVec.ofInt 32 v.floor
  ⟨round,round,round,round,0,round⟩

def Device.programming (queue : CommandQueue) : Device :=
  { Device.reset fun _ => 0 with mode := .program, queue := queue }

/-- Two register commands behind others, the first of which takes a spi_write back. -/
theorem no_silent_drop_ramp_mode :
    NoSilentDrop Layout.plain Conversions.plain (.rampMode (some .oscillating)) (Device.programming
      (queueEach (startQueue fun _ => 0) [.update,.register 0x20000010 5])) := by
  refine (no_silent_drop_iff _ _ _ _ rfl (queueEach_inBuffer (inBuffer_empty _ 0) _)).mpr ?_
  intro cs hcs
  cases hcs
  exact ⟨⟨by decide +kernel,by decide +kernel⟩,⟨by decide +kernel,by decide +kernel⟩,trivial⟩

theorem queueEach_snoc (q : CommandQueue) (cs : List Cmd) (c : Cmd) :
    queueEach q (cs ++ [c]) = (c.queue (queueEach q cs)).2 := by
  simp [queueEach]

theorem append_update_length (bs : List Byte) : (append bs .update).length = bs.length+1 := by
  simp [append,extend,Cmd.isRegister,Cmd.type,encode,Cmd.record,Cmd.payload]

theorem updates_fill (mem : Memory) (n : Nat) (h : n ≤ commandQueueLength) :
    (content (queueEach (startQueue mem) (List.replicate n .update))).length = n := by
  induction n with
  | zero => rfl
  | succ n ih =>
    have hq : InBuffer (queueEach (startQueue mem) (List.replicate n .update)) :=
      queueEach_inBuffer (inBuffer_empty mem 0) _
    have hlen := ih (by omega)
    have hz := (Cmd.update.queue_zero_iff hq).mpr (by rw [append_update_length]; omega)
    rw [List.replicate_succ',queueEach_snoc,Cmd.queue_content hq _ hz,append_update_length,hlen]

theorem triggerSend_full {q : CommandQueue} (hq : InBuffer q)
    (h : (content q).length = commandQueueLength) :
    ¬ NoSilentDrop Layout.plain Conversions.plain .triggerSend (Device.programming q) := by
  intro hdrop
  obtain ⟨cs,hcs,happ⟩ := hdrop.1 rfl
  cases hcs
  have hroom := ((appendsAll_iff_acceptsAll hq [.update]).mp happ).1.1
  rw [append_update_length] at hroom
  omega

/-- Behind 1024 io-updates the next one is dropped, and reported as done. -/
theorem trigger_send_dropped :
    ¬ NoSilentDrop Layout.plain Conversions.plain .triggerSend (Device.programming
      (queueEach (startQueue fun _ => 0) (List.replicate commandQueueLength .update))) :=
  triggerSend_full (queueEach_inBuffer (inBuffer_empty _ 0) _) (updates_fill _ _ (le_refl _))

end Stm32Dds.Scpi
