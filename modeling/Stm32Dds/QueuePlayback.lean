import Stm32Dds.CommandExecution

/-! Playing the queue against executing the commands at once. A run of register
commands reaches the chip in one flush; which registers the flush sends is decided
by `mask & (i << i)`, where bit i of the mask should have been asked for. -/

set_option autoImplicit false

namespace Stm32Dds.Commands
open Bytes Tagged Ad9910

def hits (mask : BitVec 32) (i : Nat) : Bool := mask &&& (BitVec.ofNat 32 i <<< i) ≠ 0

def Effect.isSpi : Effect → Bool
  | .spi _ => true
  | _ => false

/-- Everything but the SPI traffic, with the chip at that moment. -/
def events (s : Dds) : List (Effect × Chip) := s.log.filter fun e => !Effect.isSpi e.1

theorem cfr1_plus (r : Reg) : Reg.cfr1.plus r.index = some r := by cases r <;> rfl

theorem index_inj {r r' : Reg} : r.index = r'.index ↔ r = r' := by
  refine ⟨fun h => ?_,fun h => h ▸ rfl⟩
  have hr := cfr1_plus r
  rw [h,cfr1_plus r'] at hr
  exact (Option.some.inj hr).symm

theorem cfr1_plus_none {i : Nat} : Reg.cfr1.plus i = none ↔ 20 ≤ i := by
  rw [Reg.plus,List.getElem?_eq_none_iff]
  simp [Reg.all,Reg.index]

theorem exists_index {i : Nat} (h : i < 20) : ∃ r : Reg, r.index = i := by
  have hall : ∀ i : Fin Reg.all.length, (Reg.all.get i).index = i.val := by decide
  exact ⟨Reg.all.get ⟨i,h⟩,hall ⟨i,h⟩⟩

structure Quiet (s s' : Dds) : Prop where
  regs : s'.regs = s.regs
  events : events s' = events s
  pins : s'.pins = s.pins

theorem Quiet.trans {s₁ s₂ s₃ : Dds} (h : Quiet s₁ s₂) (h' : Quiet s₂ s₃) : Quiet s₁ s₃ :=
  ⟨h'.regs.trans h.regs,h'.events.trans h.events,h'.pins.trans h.pins⟩

theorem updateReg_quiet (r : Reg) (s : Dds) : Quiet s (updateReg r s) :=
  ⟨rfl,by simp [events,updateReg,spiWrite,Dds.emit,Effect.isSpi],rfl⟩

theorem updateReg_chip (r : Reg) (s : Dds) (h : Fits s.regs) :
    (updateReg r s).chip = Function.update s.chip r ((s.regs r).setWidth (8*r.size)) :=
  Chip.receive_updateFrame s.chip r (s.regs r) (h r)

def flushOver (mask : BitVec 32) (is : List Nat) (s : Dds) : Option Dds :=
  is.foldlM (fun s i => if hits mask i then (Reg.cfr1.plus i).map fun r => updateReg r s
    else some s) s

theorem flushOver_quiet (mask : BitVec 32) (is : List Nat) {s s' : Dds}
    (h : flushOver mask is s = some s') : Quiet s s' := by
  induction is generalizing s with
  | nil =>
    cases h
    exact ⟨rfl,rfl,rfl⟩
  | cons i is ih =>
    simp only [flushOver,List.foldlM_cons] at h ih
    cases hh : hits mask i with
    | false => exact ih (by simpa [hh] using h)
    | true =>
      cases hr : Reg.cfr1.plus i with
      | none => simp [hh,hr] at h
      | some r => exact (updateReg_quiet r s).trans (ih (by simpa [hh,hr] using h))

theorem flushOver_some (mask : BitVec 32) (is : List Nat) (s : Dds) (hfits : Fits s.regs)
    (hin : ∀ i ∈ is, hits mask i = true → i < 20) :
    ∃ s', flushOver mask is s = some s' ∧
      ∀ r : Reg, s'.chip r = if r.index ∈ is ∧ hits mask r.index = true
        then (s.regs r).setWidth (8*r.size) else s.chip r := by
  induction is generalizing s with
  | nil => exact ⟨s,rfl,by simp⟩
  | cons i is ih =>
    have htail : ∀ j ∈ is, hits mask j = true → j < 20 := fun j hj => hin j (by simp [hj])
    cases hh : hits mask i with
    | false =>
      obtain ⟨s',hs',hchip⟩ := ih s hfits htail
      refine ⟨s',by simpa [flushOver,hh] using hs',?_⟩
      intro r
      have hmem : (r.index ∈ i :: is ∧ hits mask r.index = true) ↔
          (r.index ∈ is ∧ hits mask r.index = true) := by
        constructor
        · rintro ⟨hm,hr⟩
          rcases List.mem_cons.mp hm with he | hm
          · rw [he,hh] at hr
            cases hr
          · exact ⟨hm,hr⟩
        · rintro ⟨hm,hr⟩
          exact ⟨by simp [hm],hr⟩
      rw [hchip r]
      simp only [hmem]
    | true =>
      obtain ⟨r₀,rfl⟩ := exists_index (hin i (by simp) hh)
      obtain ⟨s',hs',hchip⟩ := ih (updateReg r₀ s) hfits htail
      refine ⟨s',by simpa [flushOver,hh,cfr1_plus] using hs',?_⟩
      intro r
      rw [hchip r,updateReg_chip r₀ s hfits]
      by_cases he : r = r₀
      · subst he
        simp [hh]
      · have hne : r.index ≠ r₀.index := fun h => he (index_inj.mp h)
        simp [he,hne]

theorem flushOver_none (mask : BitVec 32) (is : List Nat) (s : Dds)
    (hout : ∃ i ∈ is, hits mask i = true ∧ 20 ≤ i) : flushOver mask is s = none := by
  induction is generalizing s with
  | nil => simp at hout
  | cons i is ih =>
    by_cases hi : hits mask i = true ∧ 20 ≤ i
    · simp [flushOver,hi.1,cfr1_plus_none.mpr hi.2]
    · obtain ⟨j,hj,hbad⟩ := hout
      have htail : ∃ i ∈ is, hits mask i = true ∧ 20 ≤ i := by
        rcases List.mem_cons.mp hj with rfl | hj
        · exact absurd hbad hi
        · exact ⟨j,hj,hbad⟩
      have hnone := fun s => ih s htail
      simp only [flushOver,List.foldlM_cons] at hnone ⊢
      cases hits mask i with
      | false => simpa using hnone s
      | true =>
        cases Reg.cfr1.plus i with
        | none => rfl
        | some r => simpa using hnone (updateReg r s)

theorem updateMultipleRegs_eq (mask : BitVec 32) (s : Dds) :
    updateMultipleRegs mask s = flushOver mask (List.range 32) s := by
  simp only [updateMultipleRegs,flushOver,hits,decide_eq_true_eq]

theorem index_lt (r : Reg) : r.index < 32 := by cases r <;> decide

theorem executeCommandSpiWrite_quiet {s s' : Dds} (h : executeCommandSpiWrite s = some s') :
    Quiet s s' ∧ s'.updateRegisters = 0 := by
  rw [executeCommandSpiWrite,updateMultipleRegs_eq] at h
  obtain ⟨s₁,h₁,rfl⟩ := Option.map_eq_some_iff.mp h
  have hq := flushOver_quiet _ _ h₁
  exact ⟨⟨hq.regs,hq.events,hq.pins⟩,rfl⟩

theorem executeCommandSpiWrite_cases (s : Dds) (hfits : Fits s.regs) :
    (¬ (∀ i < 32, hits s.updateRegisters i = true → i < 20) ∧ executeCommandSpiWrite s = none) ∨
    ((∀ i < 32, hits s.updateRegisters i = true → i < 20) ∧
      ∃ s', executeCommandSpiWrite s = some s' ∧
        ∀ r : Reg, s'.chip r = if hits s.updateRegisters r.index = true
          then (s.regs r).setWidth (8*r.size) else s.chip r) := by
  by_cases hin : ∀ i < 32, hits s.updateRegisters i = true → i < 20
  · obtain ⟨s',hs',hchip⟩ := flushOver_some s.updateRegisters (List.range 32) s hfits
      (fun i hi => hin i (by simpa using hi))
    refine .inr ⟨hin,{ s' with updateRegisters := 0 },?_,?_⟩
    · simp [executeCommandSpiWrite,updateMultipleRegs_eq,hs']
    · intro r
      simpa [index_lt r] using hchip r
  · refine .inl ⟨hin,?_⟩
    push Not at hin
    obtain ⟨i,hi,hh,hge⟩ := hin
    have hnone := flushOver_none s.updateRegisters (List.range 32) s ⟨i,by simpa using hi,hh,hge⟩
    simp [executeCommandSpiWrite,updateMultipleRegs_eq,hnone]

/-- A flush of the mask sends every register that has changed, and none outside the struct. -/
structure FlushOk (mask : BitVec 32) (before after : Regs) : Prop where
  inside : ∀ i < 32, hits mask i = true → i < 20
  sent : ∀ r : Reg, after r ≠ before r → hits mask r.index = true

section
variable {s : Dds} {before : Regs} (hchip : s.chip.Mirrors before) (hfits : Fits s.regs)
include hchip hfits

theorem FlushOk.spiWrite (h : FlushOk s.updateRegisters before s.regs) :
    ∃ s', executeCommandSpiWrite s = some s' ∧ s'.chip.Mirrors s.regs := by
  rcases executeCommandSpiWrite_cases s hfits with ⟨hout,-⟩ | ⟨-,s',hs',hc⟩
  · exact absurd h.inside hout
  · refine ⟨s',hs',?_⟩
    intro r
    rw [hc r]
    split
    · exact setWidth_fits (hfits r)
    · rename_i hh
      rw [hchip r]
      by_contra hne
      exact hh (h.sent r (Ne.symm hne))

theorem flushOk_of_spiWrite {s' : Dds} (hs' : executeCommandSpiWrite s = some s')
    (hm : s'.chip.Mirrors s.regs) : FlushOk s.updateRegisters before s.regs := by
  rcases executeCommandSpiWrite_cases s hfits with ⟨-,hnone⟩ | ⟨hin,s₁,hs₁,hc⟩
  · rw [hnone] at hs'
    cases hs'
  · obtain rfl : s₁ = s' := Option.some.inj (hs₁.symm.trans hs')
    refine ⟨hin,?_⟩
    intro r hne
    by_contra hh
    have hr := hm r
    rw [hc r,if_neg hh,hchip r] at hr
    exact hne hr.symm

end

def immediate (env : Env) (cs : List Cmd) (s : Dds) : Dds := cs.foldl (fun s c => c.execute env s) s

def play (env : Env) (rs : List Rec) (s : Dds) : Option Dds :=
  rs.foldlM (fun s r => executeCommand env r s) s

/-- The mask and the shadow registers are followed through a run of register commands;
at the end of each run the flush has to be complete. -/
def RunsFlushed (env : Env) (before after : Regs) (mask : BitVec 32) : List Cmd → Prop
  | [] => FlushOk mask before after
  | .register reg value :: cs =>
    let f := env.field reg
    RunsFlushed env before
      (Function.update after f.reg
        (BitFields.setField (after f.reg) f.bits f.offset (value.setWidth 64)))
      (mask ||| (1#32 <<< f.reg.address.toNat)) cs
  | _ :: cs => FlushOk mask before after ∧ RunsFlushed env after after 0 cs

theorem runsFlushed_cons (env : Env) (before after : Regs) (mask : BitVec 32) (c : Cmd)
    (cs : List Cmd) (hc : c.isRegister = false) :
    RunsFlushed env before after mask (c :: cs) ↔
      FlushOk mask before after ∧ RunsFlushed env after after 0 cs := by
  cases c with
  | register reg value => simp [Cmd.isRegister,Cmd.type] at hc
  | _ => rfl

theorem flushOk_refl (regs : Regs) : FlushOk 0 regs regs :=
  ⟨fun i _ h => by simp [hits] at h,fun r h => absurd rfl h⟩

theorem execute_event (env : Env) (c : Cmd) (hc : c.isRegister = false)
    (hp : c.isParallel = false) :
    ∃ e : Effect, ∀ s : Dds, events (c.execute env s) = events s ++ [(e,s.chip)] ∧
      (c.execute env s).chip = s.chip ∧ (c.execute env s).regs = s.regs ∧
      (c.execute env s).updateRegisters = s.updateRegisters := by
  cases c with
  | register reg value => simp [Cmd.isRegister,Cmd.type] at hc
  | pin group number value =>
    refine ⟨.pin ⟨group,number⟩ (truth value),fun s => ?_⟩
    simp [Cmd.execute,executeCommandPin,gpioSet,Dds.emit,events,Effect.isSpi]
  | trigger =>
    refine ⟨.trigger,fun s => ?_⟩
    simp [Cmd.execute,executeCommandTrigger,Dds.emit,events,Effect.isSpi]
  | wait ms =>
    refine ⟨.wait ms,fun s => ?_⟩
    simp [Cmd.execute,executeCommandWait,delay,Dds.emit,events,Effect.isSpi]
  | update =>
    refine ⟨.ioUpdate,fun s => ?_⟩
    simp [Cmd.execute,executeCommandUpdate,ioUpdate,Dds.emit,events,Effect.isSpi]
  | parallel data length repeats => simp [Cmd.isParallel,Cmd.type] at hp
  | parallelFrequency frequency => simp [Cmd.isParallel,Cmd.type] at hp

theorem executeCommandRegister_quiet (f : RegisterBit) (value : BitVec 32) (s : Dds) :
    events (executeCommandRegister f value s) = events s :=
  (updateReg_quiet f.reg (setValue f (value.setWidth 64) s)).events

theorem updateReg_mirrors (r : Reg) (s : Dds) (hfits : Fits s.regs)
    (h : ∀ r', r' ≠ r → (s.chip r').setWidth 64 = s.regs r') :
    (updateReg r s).chip.Mirrors s.regs := by
  intro r'
  rw [updateReg_chip r s hfits]
  by_cases hr : r' = r
  · subst hr
    simpa using setWidth_fits (hfits r')
  · simpa [hr] using h r' hr

theorem executeCommandRegister_mirrors (f : RegisterBit) (value : BitVec 32) (s : Dds)
    (h : s.chip.Mirrors s.regs) :
    (executeCommandRegister f value s).chip.Mirrors (executeCommandRegister f value s).regs := by
  refine updateReg_mirrors f.reg (setValue f (value.setWidth 64) s)
    (fits_setField h.fits f (value.setWidth 64)) ?_
  intro r hr
  have hregs : (setValue f (value.setWidth 64) s).regs r = s.regs r := by simp [hr]
  rw [hregs]
  exact h r

/-- The two runs, started in states that agree but for what the open run of register
commands has not flushed yet. -/
structure Lagging (i p : Dds) (before : Regs) (opened : Bool) : Prop where
  regs : p.regs = i.regs
  current : i.chip.Mirrors i.regs
  lagging : p.chip.Mirrors before
  shut : opened = false → p.updateRegisters = 0 ∧ before = i.regs

def rest (opened : Bool) (cs : List Cmd) : List Rec :=
  if opened && !startsRegister cs then spiRecord :: closed cs else closed cs

theorem closed_cons (c : Cmd) (cs : List Cmd) :
    closed (c :: cs) = c.record :: rest c.isRegister cs := by
  simp only [closed,rest]
  split <;> rfl

def Agree (env : Env) (i p : Dds) (cs : List Cmd) (rs : List Rec) : Prop :=
  ∃ p' new, play env rs p = some p' ∧ events (immediate env cs i) = events i ++ new ∧
    events p' = events p ++ new ∧ p'.chip = (immediate env cs i).chip

theorem play_cons {env : Env} {r : Rec} {rs : List Rec} {p p₁ : Dds}
    (h : executeCommand env r p = some p₁) : play env (r :: rs) p = play env rs p₁ := by
  simp [play,h]

theorem play_nil (env : Env) (p : Dds) : play env [] p = some p := rfl

theorem Lagging.flush {i p : Dds} {before : Regs} {opened : Bool} (h : Lagging i p before opened)
    (env : Env) :
    (FlushOk p.updateRegisters before i.regs ∧
      ∃ p₁, (∀ rs, play env (if opened then spiRecord :: rs else rs) p = play env rs p₁) ∧
        events p₁ = events p ∧ p₁.chip = i.chip ∧ Lagging i p₁ i.regs false) ∨
    (¬ FlushOk p.updateRegisters before i.regs ∧
      ((∀ rs, play env (if opened then spiRecord :: rs else rs) p = none) ∨
        ∃ p₁, (∀ rs, play env (if opened then spiRecord :: rs else rs) p = play env rs p₁) ∧
          events p₁ = events p ∧ p₁.chip ≠ i.chip)) := by
  have hfits : Fits p.regs := by
    rw [h.regs]
    exact h.current.fits
  cases opened with
  | false =>
    obtain ⟨hz,rfl⟩ := h.shut rfl
    refine .inl ⟨by rw [hz]; exact flushOk_refl _,p,fun _ => rfl,rfl,h.lagging.unique h.current,h⟩
  | true =>
    by_cases hok : FlushOk p.updateRegisters before i.regs
    · obtain ⟨p₁,hp₁,hm⟩ := FlushOk.spiWrite h.lagging hfits (by rw [h.regs]; exact hok)
      obtain ⟨hquiet,hzero⟩ := executeCommandSpiWrite_quiet hp₁
      rw [h.regs] at hm
      refine .inl ⟨hok,p₁,fun rs => play_cons ((executeCommand_spiRecord env p).trans hp₁),
        hquiet.events,hm.unique h.current,?_⟩
      exact ⟨hquiet.regs.trans h.regs,h.current,hm,fun _ => ⟨hzero,rfl⟩⟩
    · refine .inr ⟨hok,?_⟩
      cases hp₁ : executeCommandSpiWrite p with
      | none =>
        refine .inl fun rs => ?_
        simp [play,executeCommand_spiRecord,hp₁]
      | some p₁ =>
        refine .inr ⟨p₁,fun rs => play_cons ((executeCommand_spiRecord env p).trans hp₁),
          (executeCommandSpiWrite_quiet hp₁).1.events,?_⟩
        intro hchip
        have hm : p₁.chip.Mirrors p.regs := by
          rw [hchip,h.regs]
          exact h.current
        have hflush := flushOk_of_spiWrite h.lagging hfits hp₁ hm
        rw [h.regs] at hflush
        exact hok hflush

theorem events_prefix {s s' : Dds} (h : s.log <+: s'.log) : events s <+: events s' := h.filter _

theorem events_same {s s' : Dds} (h : events s' = events s) : events s <+: events s' :=
  h ▸ List.prefix_refl _

theorem emit_log (e : Effect) (s : Dds) : s.log <+: (s.emit e).log := ⟨_,rfl⟩

theorem executeParallel_log (data : Nat → BitVec 16) (len rep : BitVec 32) (flag : Nat → Bool)
    (s : Dds) : s.log <+: (executeParallel data len rep flag s).log := by
  refine List.foldlRecOn (motive := fun s' : Dds => s.log <+: s'.log) _ _ ?_ ?_
  · simp [enableParallel,gpioSet,updateMatchingReg,updateReg,spiWrite,setValue,setParallel,Dds.emit]
  · intro s' hs' i _
    split
    · exact hs'.trans (emit_log _ s')
    · exact hs'

theorem Cmd.execute_grows (env : Env) (c : Cmd) (s : Dds) : events s <+: events (c.execute env s) := by
  cases c with
  | register reg value =>
    exact events_same (executeCommandRegister_quiet (env.field reg) value s)
  | parallel data length repeats => exact events_prefix (executeParallel_log _ _ _ _ s)
  | _ => exact events_prefix (emit_log _ _)

theorem executeCommand_grows {env : Env} {r : Rec} {s s' : Dds}
    (h : executeCommand env r s = some s') : events s <+: events s' := by
  unfold executeCommand at h
  split_ifs at h
  case pos => cases h; exact List.prefix_refl _
  case pos => cases h; exact events_prefix (emit_log _ _)
  case pos => cases h; exact events_prefix (emit_log _ _)
  case pos => cases h; exact events_prefix (emit_log _ _)
  case pos => cases h; exact events_prefix (emit_log _ _)
  case pos => exact events_same (executeCommandSpiWrite_quiet h).1.events
  case pos => cases h; exact events_prefix (executeParallel_log _ _ _ _ s)
  case pos => cases h; exact events_prefix (emit_log _ _)
  case neg => cases h; exact List.prefix_refl _

theorem play_grows {env : Env} {rs : List Rec} {s s' : Dds} (h : play env rs s = some s') :
    events s <+: events s' := by
  induction rs generalizing s with
  | nil =>
    cases h
    exact List.prefix_refl _
  | cons r rs ih =>
    cases hr : executeCommand env r s with
    | none => simp [play,hr] at h
    | some s₁ =>
      rw [play_cons hr] at h
      exact (executeCommand_grows hr).trans (ih h)

theorem immediate_grows (env : Env) (cs : List Cmd) (s : Dds) :
    events s <+: events (immediate env cs s) := by
  induction cs generalizing s with
  | nil => exact List.prefix_refl _
  | cons c cs ih => exact (c.execute_grows env s).trans (ih (c.execute env s))

theorem Lagging.register {i p : Dds} {before : Regs} {opened : Bool} (h : Lagging i p before opened)
    (f : RegisterBit) (value : BitVec 32) :
    Lagging (executeCommandRegister f value i) (executeCommandRegisterOnly f value p) before true where
  regs := by
    simp only [executeCommandRegister,executeCommandRegisterOnly,updateMatchingReg,updateReg_regs,
      setValue_regs,h.regs]
  current := executeCommandRegister_mirrors f value i h.current
  lagging := h.lagging
  shut := fun h => by cases h

theorem agree_event {env : Env} {c : Cmd} (hc : c.isRegister = false) (hp : c.isParallel = false)
    (i p : Dds) (cs : List Cmd) (rs : List Rec) :
    Agree env i p (c :: cs) (c.record :: rs) ↔
      p.chip = i.chip ∧ Agree env (c.execute env i) (c.execute env p) cs rs := by
  obtain ⟨e,he⟩ := execute_event env c hc hp
  obtain ⟨hi,-⟩ := he i
  obtain ⟨hpe,-⟩ := he p
  simp only [Agree,play_cons (executeCommand_record env c hc p)]
  constructor
  · rintro ⟨p',new,hplay,hev,hev',hchip⟩
    obtain ⟨new₁,h₁⟩ := immediate_grows env cs (c.execute env i)
    obtain ⟨new₂,h₂⟩ := play_grows hplay
    have hnew : new = (e,i.chip) :: new₁ := by
      have hall : events i ++ ((e,i.chip) :: new₁) = events i ++ new := by
        rw [← hev]
        change _ = events (immediate env cs (c.execute env i))
        rw [← h₁,hi]
        simp
      exact (List.append_cancel_left hall).symm
    have hnew' : (e,p.chip) :: new₂ = new := by
      rw [hpe,hev'] at h₂
      simpa using h₂
    rw [hnew] at hnew'
    simp only [List.cons.injEq,Prod.mk.injEq,true_and] at hnew'
    refine ⟨hnew'.1,p',new₁,hplay,h₁.symm,?_,hchip⟩
    rw [← h₂,hnew'.2]
  · rintro ⟨heq,p',new,hplay,hev,hev',hchip⟩
    refine ⟨p',(e,i.chip) :: new,hplay,?_,?_,hchip⟩
    · change events (immediate env cs (c.execute env i)) = _
      rw [hev,hi]
      simp
    · rw [hev',hpe,heq]
      simp

theorem Lagging.execute {i p : Dds} (h : Lagging i p i.regs false) (env : Env) {c : Cmd}
    (hc : c.isRegister = false) (hp : c.isParallel = false) :
    Lagging (c.execute env i) (c.execute env p) i.regs false := by
  obtain ⟨e,he⟩ := execute_event env c hc hp
  obtain ⟨-,hci,hri,-⟩ := he i
  obtain ⟨-,hcp,hrp,hup⟩ := he p
  refine ⟨by rw [hrp,hri,h.regs],?_,?_,?_⟩
  · rw [hci,hri]
    exact h.current
  · rw [hcp]
    exact h.lagging
  · intro _
    exact ⟨hup.trans (h.shut rfl).1,hri.symm⟩

theorem Agree.congr {env : Env} {i p p₁ : Dds} {cs : List Cmd} {rs rs₁ : List Rec}
    (hplay : play env rs p = play env rs₁ p₁) (hev : events p₁ = events p) :
    Agree env i p cs rs ↔ Agree env i p₁ cs rs₁ := by
  simp only [Agree,hplay,hev]

theorem rest_register {c : Cmd} (hc : c.isRegister = true) (opened : Bool) (cs : List Cmd) :
    rest opened (c :: cs) = c.record :: rest true cs := by
  have hs : startsRegister (c :: cs) = true := hc
  simp [rest,hs,closed_cons,hc]

theorem rest_event {c : Cmd} (hc : c.isRegister = false) (opened : Bool) (cs : List Cmd) :
    rest opened (c :: cs) =
      if opened then spiRecord :: (c.record :: rest false cs) else c.record :: rest false cs := by
  have hs : startsRegister (c :: cs) = false := hc
  simp [rest,hs,closed_cons,hc]

theorem agree_register (env : Env) (reg value : BitVec 32) (i p : Dds) (cs : List Cmd)
    (rs : List Rec) :
    Agree env i p (.register reg value :: cs) ((Cmd.register reg value).record :: rs) ↔
      Agree env (executeCommandRegister (env.field reg) value i)
        (executeCommandRegisterOnly (env.field reg) value p) cs rs := by
  have hquiet := executeCommandRegister_quiet (env.field reg) value i
  simp only [Agree,play_cons (executeCommand_register env reg value p),hquiet]
  rfl

theorem agree_nil {i p : Dds} {before : Regs} {opened : Bool} (env : Env)
    (h : Lagging i p before opened) :
    Agree env i p [] (rest opened []) ↔ RunsFlushed env before i.regs p.updateRegisters [] := by
  have hrest : rest opened [] = if opened then [spiRecord] else [] := by
    cases opened <;> rfl
  simp only [RunsFlushed,Agree,hrest]
  rcases h.flush env with ⟨hok,p₁,hplay,hev,hchip,-⟩ | ⟨hbad,hnone | ⟨p₁,hplay,-,hchip⟩⟩
  · refine iff_of_true ⟨p₁,[],?_,?_,?_,hchip⟩ hok
    · rw [hplay,play_nil]
    · simp [immediate]
    · simp [hev]
  · refine iff_of_false ?_ hbad
    rintro ⟨p',new,hp',-⟩
    rw [hnone] at hp'
    cases hp'
  · refine iff_of_false ?_ hbad
    rintro ⟨p',new,hp',-,-,hc⟩
    rw [hplay,play_nil] at hp'
    cases hp'
    exact hchip hc

/-- The two runs agree exactly when every run of register commands is flushed completely. -/
theorem agree_iff_runsFlushed (env : Env) (cs : List Cmd) (hno : ∀ c ∈ cs, c.isParallel = false)
    (i p : Dds) (before : Regs) (opened : Bool) (h : Lagging i p before opened) :
    Agree env i p cs (rest opened cs) ↔ RunsFlushed env before i.regs p.updateRegisters cs := by
  induction cs generalizing i p before opened with
  | nil => exact agree_nil env h
  | cons c cs ih =>
    have htail : ∀ d ∈ cs, d.isParallel = false := fun d hd => hno d (by simp [hd])
    cases hc : c.isRegister with
    | true =>
      -- the run goes on: nothing is flushed and nothing can be seen
      obtain ⟨reg,value,rfl⟩ := c.isRegister_iff.mp hc
      have hstep := ih htail _ _ before true (h.register (env.field reg) value)
      rw [rest_register hc,agree_register,hstep]
      rfl
    | false =>
      have hp := hno c (by simp)
      rw [runsFlushed_cons _ _ _ _ _ _ hc,rest_event hc]
      rcases h.flush env with ⟨hok,p₁,hplay,hev,hchip,hlag⟩ | ⟨hbad,hnone | ⟨p₁,hplay,hev,hchip⟩⟩
      · have hlag' := hlag.execute env hc hp
        obtain ⟨e,he⟩ := execute_event env c hc hp
        have hregs := (he i).2.2.1
        have hzero := (hlag'.shut rfl).1
        have hstep := ih htail _ _ i.regs false hlag'
        rw [hregs,hzero] at hstep
        rw [Agree.congr (hplay _) hev,agree_event hc hp,hstep]
        simp [hchip,hok]
      · refine iff_of_false ?_ (fun hh => hbad hh.1)
        rintro ⟨p',new,hp',-⟩
        rw [hnone] at hp'
        cases hp'
      · refine iff_of_false ?_ (fun hh => hbad hh.1)
        rw [Agree.congr (hplay _) hev,agree_event hc hp]
        exact fun hh => hchip hh.1

/-- The queue plays the commands as normal mode executes them: the same events with the
same chip, between the two LED events of execute_commands, and the same chip at the end. -/
def PlaysLikeImmediate (env : Env) (mem : Memory) (cs : List Cmd) (s : Dds) : Prop :=
  ∃ q p new, queueAll ⟨mem,0,0⟩ cs = some q ∧ commandsExecute env q s = some p ∧
    events (immediate env cs s) = events s ++ new ∧
    events p = events s ++ [(.pin Pin.ledFront true,s.chip)] ++ new ++
      [(.pin Pin.ledFront false,p.chip)] ∧
    p.chip = (immediate env cs s).chip

theorem playsLikeImmediate_iff_agree {env : Env} {mem : Memory} {cs : List Cmd}
    (hno : ∀ c ∈ cs, c.isParallel = false)
    (hfit : (encode (closed cs)).length ≤ commandQueueLength) (s : Dds) :
    PlaysLikeImmediate env mem cs s ↔
      Agree env s (gpioSetHigh Pin.ledFront s) cs (closed cs) := by
  have hright := searchesRight_of_no_parallel hno
  obtain ⟨q,hq⟩ := queueAll_fits mem 0 cs hright hfit
  obtain ⟨hin,-,hrep⟩ := queueAll_spec (inBuffer_empty _ _) hq
  have hdec := (decodes_iff_content hin cs).mpr (queueAll_content hright hq)
  have hplay := commandsExecute_eq hdec hrep env s
  have hon : events (gpioSetHigh Pin.ledFront s) =
      events s ++ [(.pin Pin.ledFront true,s.chip)] := by
    simp [gpioSetHigh,gpioSet,Dds.emit,events,Effect.isSpi]
  have hoff : ∀ p : Dds, events (gpioSetLow Pin.ledFront p) =
      events p ++ [(.pin Pin.ledFront false,p.chip)] := by
    intro p
    simp [gpioSetLow,gpioSet,Dds.emit,events,Effect.isSpi]
  constructor
  · rintro ⟨q',p,new,hq',hp,hev,hev',hchip⟩
    obtain rfl : q' = q := Option.some.inj (hq'.symm.trans hq)
    rw [hplay] at hp
    obtain ⟨p₁,hp₁,rfl⟩ := Option.map_eq_some_iff.mp hp
    refine ⟨p₁,new,hp₁,hev,?_,hchip⟩
    rw [hoff] at hev'
    rw [hon]
    exact List.append_cancel_right hev'
  · rintro ⟨p₁,new,hp₁,hev,hev',hchip⟩
    refine ⟨q,gpioSetLow Pin.ledFront p₁,new,hq,?_,hev,?_,hchip⟩
    · rw [hplay]
      exact Option.map_eq_some_iff.mpr ⟨p₁,hp₁,rfl⟩
    · rw [hoff,hev',hon]
      rfl

theorem lagging_start {s : Dds} (hchip : s.chip.Mirrors s.regs) (hupdate : s.updateRegisters = 0) :
    Lagging s (gpioSetHigh Pin.ledFront s) s.regs false :=
  ⟨rfl,hchip,hchip,fun _ => ⟨hupdate,rfl⟩⟩

theorem playback_refines_iff (env : Env) (mem : Memory) (cs : List Cmd)
    (hno : ∀ c ∈ cs, c.isParallel = false)
    (hfit : (encode (closed cs)).length ≤ commandQueueLength) (s : Dds)
    (hchip : s.chip.Mirrors s.regs) (hupdate : s.updateRegisters = 0) :
    PlaysLikeImmediate env mem cs s ↔ RunsFlushed env s.regs s.regs 0 cs := by
  rw [playsLikeImmediate_iff_agree hno hfit]
  have h := agree_iff_runsFlushed env cs hno s _ s.regs false (lagging_start hchip hupdate)
  have hz : (gpioSetHigh Pin.ledFront s).updateRegisters = 0 := hupdate
  rw [hz] at h
  exact h

theorem playback_refines_ftw :
    PlaysLikeImmediate ⟨fun _ => Field.ftw,fun _ _ => 0,fun _ => true⟩ (fun _ => 0)
      [.register 0x20000010 5,.update] (Dds.boot (Chip.ofRegs Reg.bootValue) fun _ => false) := by
  refine (playback_refines_iff _ _ _ (by decide) (by decide) _
    (Chip.ofRegs_mirrors fits_bootValue) rfl).mpr ⟨⟨by decide,?_⟩,flushOk_refl _⟩
  intro r hne
  by_cases hr : r = .ftw
  · subst hr
    decide
  · exact absurd (Function.update_of_ne hr _ _) hne

/-- A new upper limit of the ramp is not among the registers that its own mask sends. -/
theorem ramp_limit_not_flushed :
    ¬ PlaysLikeImmediate ⟨fun _ => Field.rampUpperLimit,fun _ _ => 0,fun _ => true⟩ (fun _ => 0)
      [.register 0x20000010 5,.update] (Dds.boot (Chip.ofRegs Reg.bootValue) fun _ => false) := by
  rw [playsLikeImmediate_iff_agree (by decide) (by decide)]
  intro h
  have hflush := (agree_iff_runsFlushed _ _ (by decide) _ _ Reg.bootValue false
    (lagging_start (Chip.ofRegs_mirrors fits_bootValue) rfl)).mp h
  have hsent := hflush.1.sent .rampLimit (by decide)
  exact absurd hsent (by decide)

end Stm32Dds.Commands
