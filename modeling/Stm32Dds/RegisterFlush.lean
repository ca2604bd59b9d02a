import Stm32Dds.QueuePlayback

/-! Which registers ad9910_update_multiple_regs sends. The mask is indexed by chip
address, the loop by position in the struct, and the test of position i looks at
the bits of `i << i`. -/

set_option autoImplicit false

namespace Stm32Dds.Commands
open Bytes Ad9910

def frames (s : Dds) : List (List Byte) :=
  s.log.filterMap fun
    | (.spi frame,_) => some frame
    | _ => none

def marked (mask : BitVec 32) (r : Reg) : Bool := mask.getLsbD r.address.toNat

def OfRegisters (mask : BitVec 32) : Prop :=
  ∀ j, mask.getLsbD j = true → ∃ r : Reg, r.address.toNat = j

/-- One frame for each marked register and none besides, without leaving the struct. -/
def SendsMarked (mask : BitVec 32) (s : Dds) : Prop :=
  ∃ (s' : Dds) (rs : List Reg), updateMultipleRegs mask s = some s' ∧
    frames s' = frames s ++ rs.map (fun r => updateFrame r (s.regs r)) ∧
    rs.Nodup ∧ ∀ r, r ∈ rs ↔ marked mask r = true

def sent (mask : BitVec 32) (is : List Nat) : List Reg :=
  is.filterMap fun i => if hits mask i then Reg.cfr1.plus i else none

theorem updateReg_frames (r : Reg) (s : Dds) :
    frames (updateReg r s) = frames s ++ [updateFrame r (s.regs r)] := by
  simp [frames,updateReg,spiWrite,Dds.emit]

theorem flushOver_frames (mask : BitVec 32) (is : List Nat) {s s' : Dds}
    (h : flushOver mask is s = some s') :
    frames s' = frames s ++ (sent mask is).map fun r => updateFrame r (s.regs r) := by
  induction is generalizing s with
  | nil =>
    cases h
    simp [sent]
  | cons i is ih =>
    simp only [flushOver,List.foldlM_cons] at h ih
    cases hh : hits mask i with
    | false => simpa [sent,hh] using ih (by simpa [hh] using h)
    | true =>
      cases hr : Reg.cfr1.plus i with
      | none => simp [hh,hr] at h
      | some r =>
        have hrest := ih (s := updateReg r s) (by simpa [hh,hr] using h)
        simpa [sent,hh,hr,updateReg_frames] using hrest

theorem flushOver_exists (mask : BitVec 32) (is : List Nat) (s : Dds)
    (hin : ∀ i ∈ is, hits mask i = true → i < 20) : ∃ s', flushOver mask is s = some s' := by
  induction is generalizing s with
  | nil => exact ⟨s,rfl⟩
  | cons i is ih =>
    have htail : ∀ j ∈ is, hits mask j = true → j < 20 := fun j hj => hin j (by simp [hj])
    cases hh : hits mask i with
    | false =>
      obtain ⟨s',hs'⟩ := ih s htail
      exact ⟨s',by simpa [flushOver,hh] using hs'⟩
    | true =>
      obtain ⟨r,rfl⟩ := exists_index (hin i (by simp) hh)
      obtain ⟨s',hs'⟩ := ih (updateReg r s) htail
      exact ⟨s',by simpa [flushOver,hh,cfr1_plus] using hs'⟩

theorem updateFrame_injective (regs : Regs) :
    Function.Injective fun r => updateFrame r (regs r) := by
  intro r r' h
  have haddress : r.address = r'.address := by
    have hhead := congrArg List.head? h
    simpa [updateFrame] using hhead
  exact Reg.address_injective haddress

theorem cfr1_plus_some {i : Nat} {r : Reg} : Reg.cfr1.plus i = some r ↔ i = r.index := by
  constructor
  · intro h
    have hlt : i < 20 := by
      by_contra hge
      rw [cfr1_plus_none.mpr (by omega)] at h
      cases h
    obtain ⟨r',rfl⟩ := exists_index hlt
    rw [cfr1_plus] at h
    cases h
    rfl
  · intro h
    rw [h,cfr1_plus]

theorem mem_sent (mask : BitVec 32) (r : Reg) :
    r ∈ sent mask (List.range 32) ↔ hits mask r.index = true := by
  simp only [sent,List.mem_filterMap,List.mem_range,Option.ite_none_right_eq_some,cfr1_plus_some]
  constructor
  · intro ⟨i,_,hh,hi⟩
    rwa [← hi]
  · intro hh
    exact ⟨r.index,index_lt r,hh,rfl⟩

theorem sent_nodup (mask : BitVec 32) : (sent mask (List.range 32)).Nodup := by
  refine List.Nodup.filterMap ?_ List.nodup_range
  intro i j r hi hj
  simp only [Option.mem_def,Option.ite_none_right_eq_some,cfr1_plus_some] at hi hj
  exact hi.2.trans hj.2.symm

/-- The test of each position comes out like the mark of its register, and no position
behind the struct is tested true. -/
structure TestsMarks (mask : BitVec 32) : Prop where
  inside : ∀ i < 32, hits mask i = true → i < 20
  marks : ∀ r : Reg, hits mask r.index = true ↔ marked mask r = true

theorem sendsMarked_iff_testsMarks (mask : BitVec 32) (s : Dds) :
    SendsMarked mask s ↔ TestsMarks mask := by
  constructor
  · intro ⟨s',rs,hs',hframes,_,hrs⟩
    rw [updateMultipleRegs_eq] at hs'
    have hsent : sent mask (List.range 32) = rs := by
      have hmap := (flushOver_frames mask _ hs').symm.trans hframes
      exact List.map_injective_iff.mpr (updateFrame_injective s.regs) (List.append_cancel_left hmap)
    constructor
    · intro i hi hh
      by_contra hge
      rw [flushOver_none mask _ s ⟨i,by simpa using hi,hh,by omega⟩] at hs'
      cases hs'
    · intro r
      rw [← mem_sent,hsent,hrs]
  · intro h
    obtain ⟨s',hs'⟩ := flushOver_exists mask (List.range 32) s
      (fun i hi => h.inside i (by simpa using hi))
    refine ⟨s',sent mask (List.range 32),by rw [updateMultipleRegs_eq,hs'],
      flushOver_frames mask _ hs',sent_nodup mask,?_⟩
    intro r
    rw [mem_sent,h.marks]

def looksAt (i j : Nat) : Bool := (BitVec.ofNat 32 i <<< i).getLsbD j

theorem hits_iff (mask : BitVec 32) (i : Nat) :
    hits mask i = true ↔ ∃ j < 32, mask.getLsbD j = true ∧ looksAt i j = true := by
  simp only [hits,decide_eq_true_eq,looksAt]
  constructor
  · intro h
    by_contra hno
    push Not at hno
    apply h
    apply BitVec.eq_of_getLsbD_eq
    intro j hj
    cases hm : mask.getLsbD j with
    | false => simp [hm]
    | true => simpa [hm] using hno j hj hm
  · rintro ⟨j,-,hm,hl⟩ hz
    have hbit := congrArg (fun w => w.getLsbD j) hz
    simp only [BitVec.getLsbD_and,hm,hl] at hbit
    simp at hbit

section Marks
variable {mask : BitVec 32}

/-- A bit that a position looks at drags the register of that position along. -/
theorem TestsMarks.up (h : TestsMarks mask) (r r' : Reg)
    (hl : looksAt r.index r'.address.toNat = true) (hr : marked mask r = false) :
    marked mask r' = false := by
  have hlt : r'.address.toNat < 32 := by cases r' <;> decide
  cases hm : marked mask r' with
  | false => rfl
  | true =>
    have hhit := (hits_iff mask r.index).mpr ⟨_,hlt,hm,hl⟩
    rw [(h.marks r).mp hhit] at hr
    cases hr

/-- A marked register needs a set bit that its position looks at. -/
theorem TestsMarks.down (h : TestsMarks mask) (r : Reg)
    (hno : ∀ j < 32, looksAt r.index j = true → mask.getLsbD j = false) :
    marked mask r = false := by
  cases hm : marked mask r with
  | false => rfl
  | true =>
    obtain ⟨j,hj,hbit,hl⟩ := (hits_iff mask r.index).mp ((h.marks r).mpr hm)
    rw [hno j hj hl] at hbit
    cases hbit

theorem TestsMarks.only (h : TestsMarks mask) (r r' : Reg)
    (hl : ∀ j < 32, looksAt r.index j = true → j = r'.address.toNat)
    (hr' : marked mask r' = false) : marked mask r = false := by
  apply h.down
  intro j hj hlj
  rw [hl j hj hlj]
  exact hr'

/-- The marks that come out right: cfr2 on its own position, cfr3 and aux_dac_ctl
through each other's bit. -/
def OnlySafeMarks (mask : BitVec 32) : Prop :=
  (∀ r, marked mask r = true → r = .cfr2 ∨ r = .cfr3 ∨ r = .auxDacCtl) ∧
    marked mask .cfr3 = marked mask .auxDacCtl

theorem TestsMarks.onlySafeMarks (h : TestsMarks mask) (hmask : OfRegisters mask) :
    OnlySafeMarks mask := by
  -- from the highest address down, each mark would bring a mark that is already excluded
  have prof7 : marked mask .prof7 = false := by
    cases hm : marked mask .prof7 with
    | false => rfl
    | true =>
      have hhit := (hits_iff mask 21).mpr ⟨21,by decide,hm,by decide⟩
      have hlt := h.inside 21 (by decide) hhit
      omega
  have prof6 := h.up .prof7 .prof6 (by decide) prof7
  have prof5 := h.up .prof7 .prof5 (by decide) prof7
  have prof4 := h.only .prof4 .prof6 (by decide) prof6
  have prof3 := h.up .prof5 .prof3 (by decide) prof5
  have prof2 := h.up .prof3 .prof2 (by decide) prof3
  have prof1 := h.up .prof2 .prof1 (by decide) prof2
  have rampRate := h.up .prof1 .rampRate (by decide) prof1
  have prof0 := h.up .rampRate .prof0 (by decide) rampRate
  have rampStep := h.up .rampRate .rampStep (by decide) rampRate
  have rampLimit := h.up .rampStep .rampLimit (by decide) rampStep
  have multichipSync := h.only .multichipSync .rampLimit (by decide) rampLimit
  have asf := h.up .rampLimit .asf (by decide) rampLimit
  have pow := h.up .asf .pow (by decide) asf
  have ftw := h.up .asf .ftw (by decide) asf
  have ioUpdateRate : marked mask .ioUpdateRate = false := by
    apply h.down
    intro j hj hl
    -- position 4 looks at bit 6, which belongs to no register
    have hsix : ∀ j < 32, looksAt Reg.ioUpdateRate.index j = true → j = 6 := by decide
    cases hm : mask.getLsbD j with
    | false => rfl
    | true =>
      obtain ⟨r,hr⟩ := hmask j hm
      rw [hsix j hj hl] at hr
      cases r <;> exact absurd hr (by decide)
  have cfr1 : marked mask .cfr1 = false := by
    apply h.down
    intro j hj hl
    have hnone : ∀ j < 32, looksAt Reg.cfr1.index j = false := by decide
    rw [hnone j hj] at hl
    cases hl
  constructor
  · intro r hr
    cases r with
    | cfr2 => exact .inl rfl
    | cfr3 => exact .inr (.inl rfl)
    | auxDacCtl => exact .inr (.inr rfl)
    | _ =>
      simp only [cfr1,ioUpdateRate,ftw,pow,asf,multichipSync,rampLimit,rampStep,rampRate,prof0,prof1,
        prof2,prof3,prof4,prof5,prof6,prof7,Bool.false_eq_true] at hr
  · cases h₂ : marked mask .cfr3 with
    | false => exact (h.up .cfr3 .auxDacCtl (by decide) h₂).symm
    | true =>
      cases h₃ : marked mask .auxDacCtl with
      | true => rfl
      | false => exact h₂.symm.trans (h.only .cfr3 .auxDacCtl (by decide) h₃)

theorem OnlySafeMarks.testsMarks (h : OnlySafeMarks mask) (hmask : OfRegisters mask) :
    TestsMarks mask := by
  obtain ⟨honly,hpair⟩ := h
  have hbits : ∀ j, mask.getLsbD j = true → ∃ r : Reg, r.address.toNat = j ∧ marked mask r = true ∧
      (r = .cfr2 ∨ r = .cfr3 ∨ r = .auxDacCtl) := by
    intro j hj
    obtain ⟨r,rfl⟩ := hmask j hj
    exact ⟨r,rfl,hj,honly r hj⟩
  constructor
  · intro i hi hhit
    obtain ⟨j,-,hbit,hl⟩ := (hits_iff mask i).mp hhit
    obtain ⟨r,rfl,-,hr⟩ := hbits j hbit
    have hnone : ∀ i < 32, 20 ≤ i → looksAt i 1 = false ∧ looksAt i 2 = false ∧
        looksAt i 3 = false := by decide
    by_contra hge
    obtain ⟨h₁,h₂,h₃⟩ := hnone i hi (by omega)
    obtain rfl | rfl | rfl := hr
    · exact Bool.false_ne_true (h₁.symm.trans hl)
    · exact Bool.false_ne_true (h₂.symm.trans hl)
    · exact Bool.false_ne_true (h₃.symm.trans hl)
  · intro r
    constructor
    · intro hhit
      obtain ⟨j,-,hbit,hl⟩ := (hits_iff mask r.index).mp hhit
      obtain ⟨r',rfl,hm,hr'⟩ := hbits j hbit
      have hlook : ∀ r : Reg, (looksAt r.index 1 = true → r = .cfr2) ∧ looksAt r.index 2 = false ∧
          (looksAt r.index 3 = true → r = .cfr3 ∨ r = .auxDacCtl) := by
        intro r
        cases r <;> decide
      obtain ⟨h₁,h₂,h₃⟩ := hlook r
      obtain rfl | rfl | rfl := hr'
      · rw [h₁ hl]
        exact hm
      · exact absurd (h₂.symm.trans hl) Bool.false_ne_true
      · obtain rfl | rfl := h₃ hl
        · exact hpair.trans hm
        · exact hm
    · intro hm
      obtain rfl | rfl | rfl := honly r hm
      · exact (hits_iff mask _).mpr ⟨1,by decide,hm,by decide⟩
      · exact (hits_iff mask _).mpr ⟨3,by decide,hpair.symm.trans hm,by decide⟩
      · exact (hits_iff mask _).mpr ⟨3,by decide,hm,by decide⟩

end Marks

theorem sends_marked_iff (mask : BitVec 32) (hmask : OfRegisters mask) (s : Dds) :
    SendsMarked mask s ↔ OnlySafeMarks mask := by
  rw [sendsMarked_iff_testsMarks]
  constructor
  · intro h
    exact h.onlySafeMarks hmask
  · intro h
    exact h.testsMarks hmask

theorem ofRegisters_mark (r : Reg) : OfRegisters (1#32 <<< r.address.toNat) := by
  intro j hj
  refine ⟨r,?_⟩
  by_contra hne
  rw [← BitVec.twoPow_eq,BitVec.getLsbD_twoPow] at hj
  simp [hne] at hj

theorem sends_marked_cfr2 :
    SendsMarked (1#32 <<< Reg.cfr2.address.toNat) (Dds.boot (Chip.ofRegs Reg.bootValue) fun _ => false) := by
  refine (sends_marked_iff _ (ofRegisters_mark .cfr2) _).mpr ⟨?_,by decide⟩
  intro r
  cases r <;> decide

/-- The mark of prof7 is tested at position 21, behind the last register. -/
theorem prof7_leaves_struct :
    updateMultipleRegs (1#32 <<< Reg.prof7.address.toNat)
        (Dds.boot (Chip.ofRegs Reg.bootValue) fun _ => false) = none ∧
      ¬ SendsMarked (1#32 <<< Reg.prof7.address.toNat)
        (Dds.boot (Chip.ofRegs Reg.bootValue) fun _ => false) := by
  have hnone : updateMultipleRegs (1#32 <<< Reg.prof7.address.toNat)
      (Dds.boot (Chip.ofRegs Reg.bootValue) fun _ => false) = none := by
    rw [updateMultipleRegs_eq]
    exact flushOver_none _ _ _ ⟨21,by decide,by decide,by decide⟩
  refine ⟨hnone,?_⟩
  intro ⟨s',rs,hs',_⟩
  rw [hnone] at hs'
  cases hs'

end Stm32Dds.Commands
