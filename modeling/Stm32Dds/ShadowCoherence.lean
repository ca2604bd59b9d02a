import Stm32Dds.CommandExecution

set_option autoImplicit false

namespace Stm32Dds.Ad9910
open Bytes BitFields

def Effect.sentTo (address : Byte) : Effect → Option (BitVec 64)
  | .spi (a :: data) => if a = address then some (bigEndian data) else none
  | _ => none

def lastSent (address : Byte) (log : List (Effect × Chip)) : Option (BitVec 64) :=
  log.foldl (fun last e => (e.1.sentTo address).or last) none

@[simp] theorem lastSent_snoc (address : Byte) (log : List (Effect × Chip)) (e : Effect × Chip) :
    lastSent address (log ++ [e]) = (e.1.sentTo address).or (lastSent address log) := by
  simp [lastSent]

/-- All registers but those in the list hold what was last sent to them. -/
structure SentExcept (stale : List Reg) (s : Dds) : Prop where
  fits : Fits s.regs
  sent : ∀ r, r ∉ stale → lastSent r.address s.log = some (s.regs r)

section
variable {stale : List Reg} {s : Dds}

theorem SentExcept.mono {more : List Reg} (h : SentExcept stale s) (hsub : stale ⊆ more) :
    SentExcept more s := ⟨h.fits,fun r hr => h.sent r (fun hmem => hr (hsub hmem))⟩

theorem SentExcept.emit (h : SentExcept stale s) (e : Effect)
    (he : ∀ r : Reg, e.sentTo r.address = none) : SentExcept stale (s.emit e) := by
  refine ⟨h.fits,?_⟩
  intro r hr
  simpa [Dds.emit,he r] using h.sent r hr

theorem SentExcept.pins (h : SentExcept stale s) (pins : GpioPin → Bool) :
    SentExcept stale { s with pins := pins } := ⟨h.fits,h.sent⟩

theorem SentExcept.gpioSet (h : SentExcept stale s) (p : GpioPin) (level : Bool) :
    SentExcept stale (gpioSet p level s) := (h.pins _).emit _ (fun _ => rfl)

theorem SentExcept.ioUpdate (h : SentExcept stale s) : SentExcept stale (ioUpdate s) :=
  (h.pins _).emit _ (fun _ => rfl)

theorem SentExcept.setParallel (h : SentExcept stale s) (value : BitVec 16) :
    SentExcept stale (setParallel value s) := h.emit _ (fun _ => rfl)

theorem SentExcept.spiRam (h : SentExcept stale s) (data : List Byte) :
    SentExcept stale (spiWrite (ramAddress :: data) s) := by
  refine ⟨h.fits,?_⟩
  intro r hr
  have ha : ramAddress ≠ r.address := by cases r <;> decide
  simpa [spiWrite,Dds.emit,Effect.sentTo,ha] using h.sent r hr

theorem SentExcept.write (h : SentExcept stale s) (r : Reg) (v : BitVec 64)
    (hv : v.toNat < 2^(8*r.size)) :
    SentExcept (r :: stale) { s with regs := Function.update s.regs r v } := by
  refine ⟨fits_update h.fits r v hv,?_⟩
  intro r' hr'
  rw [List.mem_cons,not_or] at hr'
  simpa [hr'.1] using h.sent r' hr'.2

theorem SentExcept.setValue (h : SentExcept stale s) (f : RegisterBit) (value : BitVec 64) :
    SentExcept (f.reg :: stale) (setValue f value s) :=
  h.write f.reg _ (setField_lt _ _ _ _ _ f.bits_lt f.fits (h.fits f.reg))

theorem SentExcept.updateReg (h : SentExcept stale s) (r : Reg) :
    SentExcept (stale.filter (· ≠ r)) (updateReg r s) := by
  refine ⟨h.fits,?_⟩
  intro r' hr'
  by_cases he : r' = r
  · subst he
    have hv := bigEndian_frameData r' _ (h.fits r')
    simp [Ad9910.updateReg,spiWrite,Dds.emit,updateFrame,Effect.sentTo,hv]
  · have ha : r.address ≠ r'.address := fun ha => he (Reg.address_injective ha).symm
    have hmem : r' ∉ stale := fun hmem => hr' (by simp [hmem,he])
    simpa [Ad9910.updateReg,spiWrite,Dds.emit,updateFrame,Effect.sentTo,ha] using h.sent r' hmem

theorem SentExcept.updateRegs (h : SentExcept stale s) (rs : List Reg) :
    SentExcept (stale.filter (· ∉ rs)) (rs.foldl (fun s r => Ad9910.updateReg r s) s) := by
  induction rs generalizing stale s with
  | nil => simpa using h
  | cons r rs ih =>
    refine (ih (h.updateReg r)).mono ?_
    intro x hx
    simp only [List.mem_filter,decide_eq_true_eq,List.mem_cons,not_or] at hx ⊢
    exact ⟨hx.1.1,hx.1.2,hx.2⟩

theorem SentExcept.of_fits (h : Fits s.regs) : SentExcept Reg.all s :=
  ⟨h,fun r hr => absurd r.mem_all hr⟩

theorem SentExcept.updateAll (h : SentExcept stale s) :
    SentExcept [] (Reg.all.foldl (fun s r => Ad9910.updateReg r s) s) := by
  refine (h.updateRegs Reg.all).mono ?_
  intro x hx
  simp [x.mem_all] at hx

end

theorem prof0_plus (p : Fin 8) :
    ∃ r : Reg, Reg.prof0.plus p = some r ∧ r.size = Reg.prof0.size := by
  fin_cases p <;> exact ⟨_,rfl,rfl⟩

theorem sentExcept_setProfileValue {stale : List Reg} {s : Dds} {r : Reg} {profile : Nat}
    (h : SentExcept stale s) (hr : Reg.prof0.plus profile = some r)
    (hsize : r.size = Reg.prof0.size) (f : RegisterBit) (hf : f.reg = .prof0) (value : BitVec 64) :
    ∃ s', setProfileValue profile f value s = some s' ∧ SentExcept (r :: stale) s' := by
  have hfits : f.offset+f.bits ≤ 8*r.size := by
    rw [hsize,← hf]
    exact f.fits
  have hw := h.write r _ (setField_lt _ value f.bits f.offset _ f.bits_lt hfits (h.fits r))
  exact ⟨_,by simp only [setProfileValue,hf,hr,Option.map_some],hw⟩

theorem sentExcept_updateProfileReg {s : Dds} {r : Reg} {stale : List Reg} {profile : Nat}
    (h : SentExcept stale s) (hr : Reg.prof0.plus profile = some r) (hstale : ∀ x ∈ stale, x = r) :
    ∃ s', updateProfileReg profile s = some s' ∧ SentExcept [] s' := by
  refine ⟨updateReg r s,by simp [updateProfileReg,hr],(h.updateReg r).mono ?_⟩
  intro x hx
  simp only [List.mem_filter,decide_eq_true_eq] at hx
  exact absurd (hstale x hx.1) hx.2

theorem sentExcept_setProfileField {s : Dds} (h : SentExcept [] s) (f : RegisterBit)
    (hf : f.reg = .prof0) (profile : Fin 8) (value : BitVec 64) :
    ∃ s', setProfileField f profile value s = some s' ∧ SentExcept [] s' := by
  obtain ⟨r,hr,hsize⟩ := prof0_plus profile
  obtain ⟨s₁,e₁,h₁⟩ := sentExcept_setProfileValue h hr hsize f hf value
  obtain ⟨s₂,e₂,h₂⟩ := sentExcept_updateProfileReg h₁ hr (by simp)
  exact ⟨s₂,by simp [setProfileField,e₁,e₂],h₂⟩

theorem sentExcept_setSingleTone {s : Dds} (h : SentExcept [] s) (profile : Fin 8)
    (freq : BitVec 32) (ampl phase : BitVec 16) :
    ∃ s', setSingleTone profile freq ampl phase s = some s' ∧ SentExcept [] s' := by
  obtain ⟨r,hr,hsize⟩ := prof0_plus profile
  obtain ⟨s₁,e₁,h₁⟩ :=
    sentExcept_setProfileValue h hr hsize Field.profileFrequency rfl (freq.setWidth 64)
  obtain ⟨s₂,e₂,h₂⟩ :=
    sentExcept_setProfileValue h₁ hr hsize Field.profilePhase rfl (phase.setWidth 64)
  obtain ⟨s₃,e₃,h₃⟩ :=
    sentExcept_setProfileValue h₂ hr hsize Field.profileAmplitude rfl (ampl.setWidth 64)
  obtain ⟨s₄,e₄,h₄⟩ := sentExcept_updateProfileReg h₃ hr (by simp)
  exact ⟨s₄,by simp [setSingleTone,e₁,e₂,e₃,e₄],h₄⟩

inductive Operation
  | register (f : RegisterBit) (value : BitVec 32)
  | enableParallel (mode : BitVec 32)
  | executeParallel (data : Nat → BitVec 16) (len rep : BitVec 32) (flag : Nat → Bool)
  | setFrequency (profile : Fin 8) (freq : BitVec 32)
  | setAmplitude (profile : Fin 8) (ampl : BitVec 16)
  | setPhase (profile : Fin 8) (phase : BitVec 16)
  | setSingleTone (profile : Fin 8) (freq : BitVec 32) (ampl phase : BitVec 16)
  | programRamp (ramp : Ramp)
  | programRam (samples : BitVec 32) (data : Nat → BitVec 32)

def Operation.perform (s : Dds) : Operation → Option Dds
  | .register f value => some (Commands.executeCommandRegister f value s)
  | .enableParallel mode => some (Ad9910.enableParallel mode s)
  | .executeParallel data len rep flag => some (Ad9910.executeParallel data len rep flag s)
  | .setFrequency profile freq => Ad9910.setFrequency profile freq s
  | .setAmplitude profile ampl => Ad9910.setAmplitude profile ampl s
  | .setPhase profile phase => Ad9910.setPhase profile phase s
  | .setSingleTone profile freq ampl phase => Ad9910.setSingleTone profile freq ampl phase s
  | .programRamp ramp => some (Ad9910.programRamp ramp s)
  | .programRam samples data => Ad9910.programRam samples data s

theorem sentExcept_enableParallel {s : Dds} (h : SentExcept [] s) (mode : BitVec 32) :
    SentExcept [] (enableParallel mode s) := by
  have h₁ := (h.setValue Field.parallelDataPortEnable (truthValue mode)).updateReg .cfr2
  exact h₁.gpioSet Pin.txEnable (truth mode)

theorem sentExcept_executeParallel {s : Dds} (h : SentExcept [] s) (data : Nat → BitVec 16)
    (len rep : BitVec 32) (flag : Nat → Bool) :
    SentExcept [] (executeParallel data len rep flag s) := by
  refine List.foldlRecOn (motive := SentExcept []) _ _
    (sentExcept_enableParallel (h.setParallel _) 1) ?_
  intro s hs i _
  split
  · exact hs.setParallel _
  · exact hs

theorem sentExcept_programRamp {s : Dds} (h : SentExcept [] s) (ramp : Ramp) :
    SentExcept [] (programRamp ramp s) := by
  have h₁ := (((h.setValue Field.rampUpperLimit (ramp.upperLimit.setWidth 64)).setValue
    Field.rampLowerLimit (ramp.lowerLimit.setWidth 64)).setValue
    Field.rampDecrementStep (ramp.decrementStep.setWidth 64)).setValue
    Field.rampIncrementStep (ramp.incrementStep.setWidth 64)
  have h₂ := (h₁.setValue Field.rampNegativeRate (ramp.negativeSlope.setWidth 64)).setValue
    Field.rampPositiveRate (ramp.positiveSlope.setWidth 64)
  have h₃ := (((h₂.setValue Field.digitalRampDestination (ramp.dest.setWidth 64)).setValue
    Field.digitalRampEnable 1).setValue
    Field.digitalRampNoDwellHigh (truthValue ramp.noDwellHigh)).setValue
    Field.digitalRampNoDwellLow (truthValue ramp.noDwellLow)
  exact h₃.updateRegs [.rampLimit,.rampStep,.rampRate,.cfr2]

/-- ad9910_program_ram breaks the mirror and restores it: registers and RF switch
are those from before the call. -/
theorem programRam_spec (samples : BitVec 32) (data : Nat → BitVec 32) (s : Dds) :
    ∃ s', programRam samples data s = some s' ∧ s'.regs = s.regs ∧
      gpioGet Pin.rfSwitch s' = gpioGet Pin.rfSwitch s ∧
      (SentExcept [] s → SentExcept [] s') := by
  by_cases hn : samples.toNat > 1000
  · exact ⟨s,by simp [programRam,hn],rfl,rfl,id⟩
  · refine ⟨_,by rw [programRam,if_neg hn]; rfl,?_,?_,?_⟩
    · funext r
      by_cases hr : r = .prof0 <;> simp [gpioSet,ioUpdate,updateReg,spiWrite,Dds.emit,hr]
    · simp [gpioGet,gpioSet,Dds.emit]
    · intro h
      have h₁ := ((h.gpioSet Pin.rfSwitch false).setValue Field.profileWaveformStartAddress 0).setValue
        Field.profileWaveformEndAddress (samples.setWidth 64)
      have h₂ := ((h₁.updateReg .prof0).ioUpdate).spiRam
        ((List.range samples.toNat).flatMap fun i => wordBytes (data i))
      have h₃ := (h₂.write .prof0 (s.regs .prof0) (h.fits .prof0)).updateReg .prof0
      exact h₃.ioUpdate.gpioSet Pin.rfSwitch (gpioGet Pin.rfSwitch s)

theorem Operation.perform_sent {s : Dds} (h : SentExcept [] s) (op : Operation) :
    ∃ s', op.perform s = some s' ∧ SentExcept [] s' := by
  cases op with
  | register f value =>
    refine ⟨_,rfl,((h.setValue f (value.setWidth 64)).updateReg f.reg).mono ?_⟩
    simp
  | enableParallel mode => exact ⟨_,rfl,sentExcept_enableParallel h mode⟩
  | executeParallel data len rep flag =>
    exact ⟨_,rfl,sentExcept_executeParallel h data len rep flag⟩
  | setFrequency profile freq => exact sentExcept_setProfileField h _ rfl profile _
  | setAmplitude profile ampl => exact sentExcept_setProfileField h _ rfl profile _
  | setPhase profile phase => exact sentExcept_setProfileField h _ rfl profile _
  | setSingleTone profile freq ampl phase => exact sentExcept_setSingleTone h profile freq ampl phase
  | programRamp ramp => exact ⟨_,rfl,sentExcept_programRamp h ramp⟩
  | programRam samples data =>
    obtain ⟨s',he,-,-,hs⟩ := programRam_spec samples data s
    exact ⟨s',he,hs h⟩

theorem performAll_sent {s : Dds} (h : SentExcept [] s) (ops : List Operation) :
    ∃ s', ops.foldlM Operation.perform s = some s' ∧ SentExcept [] s' := by
  induction ops generalizing s with
  | nil => exact ⟨s,rfl,h⟩
  | cons op ops ih =>
    obtain ⟨s₁,e₁,h₁⟩ := op.perform_sent h
    obtain ⟨s₂,e₂,h₂⟩ := ih h₁
    exact ⟨s₂,by simp [e₁,e₂],h₂⟩

theorem initSettings_fits {s : Dds} (h : Fits s.regs) : Fits (initSettings s).regs := by
  simp only [initSettings,gpioSetHigh,gpioSetLow,setValue_regs,gpioSet_regs,delay_regs,
    updateReg_regs]
  have h₁ := fits_setField (fits_setField (fits_setField (fits_setField h
    Field.pllEnable 1) Field.pllDivide 100) Field.vcoRange 5) Field.pllPumpCurrent 1
  exact fits_setField (fits_setField (fits_setField (fits_setField (fits_setField h₁
    Field.sdioInputOnly 1) Field.pdclkEnable 1) Field.inverseSincFilterEnable 1)
    Field.enableAmplitudeScale 1) Field.matchedLatencyEnable 1

theorem initUpload_sent (chip : Chip) (pins : GpioPin → Bool) :
    SentExcept [] (initUpload (Dds.boot chip pins)) :=
  (SentExcept.of_fits (initSettings_fits fits_bootValue)).updateAll

/-- After the upload of ad9910_init and any operations, every shadow register is the
last value sent to its address; the RAM upload moves no register and no switch. -/
theorem shadow_is_last_sent (chip : Chip) (pins : GpioPin → Bool) (ops : List Operation) :
    ∃ s, ops.foldlM Operation.perform (initUpload (Dds.boot chip pins)) = some s ∧
      (∀ r : Reg, lastSent r.address s.log = some (s.regs r)) ∧
      ∀ (samples : BitVec 32) (data : Nat → BitVec 32),
        ∃ s', programRam samples data s = some s' ∧ s'.regs = s.regs ∧
          gpioGet Pin.rfSwitch s' = gpioGet Pin.rfSwitch s := by
  obtain ⟨s,he,hs⟩ := performAll_sent (initUpload_sent chip pins) ops
  refine ⟨s,he,fun r => hs.sent r (by simp),?_⟩
  intro samples data
  obtain ⟨s',he',hregs,hpin,-⟩ := programRam_spec samples data s
  exact ⟨s',he',hregs,hpin⟩

end Stm32Dds.Ad9910
