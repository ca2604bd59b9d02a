import Stm32Dds.ShadowCoherence

set_option autoImplicit false

namespace Stm32Dds.Ad9910
open Bytes BitFields

/-- A field declared in prof0 that stands for the same bits of all eight profiles. -/
structure ProfileField where
  field : RegisterBit
  reg_eq : field.reg = .prof0

inductive FieldWrite
  | value (f : RegisterBit) (v : BitVec 64)
  | profileValue (profile : Fin 8) (f : ProfileField) (v : BitVec 64)

def FieldWrite.perform (s : Dds) : FieldWrite → Option Dds
  | .value f v => some (setValue f v s)
  | .profileValue profile f v => setProfileValue profile f.field v s

def FieldWrite.performAll (s : Dds) (ws : List FieldWrite) : Option Dds := ws.foldlM perform s

def instrRead : Byte := 0x80

/-- ad9910_read_register; `received i` is what the chip answers to the i-th zero byte. -/
def readRegister (r : Reg) (received : Nat → Byte) (s : Dds) : BitVec 64 × Dds :=
  ((List.range r.size).foldl (fun out i => (out <<< 8) ||| (received i).setWidth 64) 0,
    spiWrite ((r.address ||| instrRead) :: List.replicate r.size 0) s)

theorem fits_setProfileValue {s : Dds} (h : Fits s.regs) (profile : Fin 8) (f : ProfileField)
    (v : BitVec 64) : ∃ s', setProfileValue profile f.field v s = some s' ∧ Fits s'.regs := by
  obtain ⟨r,hr,hsize⟩ := prof0_plus profile
  have hbits : f.field.offset+f.field.bits ≤ 8*r.size := by
    rw [hsize,← f.reg_eq]
    exact f.field.fits
  have hlt := setField_lt _ v f.field.bits f.field.offset _ f.field.bits_lt hbits (h r)
  refine ⟨{ s with regs := Function.update s.regs r _ },?_,fits_update h r _ hlt⟩
  simp only [setProfileValue,f.reg_eq,hr,Option.map_some]

theorem FieldWrite.perform_fits {s : Dds} (h : Fits s.regs) (w : FieldWrite) :
    ∃ s', w.perform s = some s' ∧ Fits s'.regs := by
  cases w with
  | value f v => exact ⟨_,rfl,fits_setField h f v⟩
  | profileValue profile f v => exact fits_setProfileValue h profile f v

theorem FieldWrite.performAll_fits {s : Dds} (h : Fits s.regs) (ws : List FieldWrite) :
    ∃ s', performAll s ws = some s' ∧ Fits s'.regs := by
  induction ws generalizing s with
  | nil => exact ⟨s,rfl,h⟩
  | cons w ws ih =>
    obtain ⟨s₁,hs₁,h₁⟩ := w.perform_fits h
    obtain ⟨s₂,hs₂,h₂⟩ := ih h₁
    refine ⟨s₂,?_,h₂⟩
    simpa [performAll,hs₁] using hs₂

theorem readRegister_bytes {r : Reg} {bs : List Byte} (h : bs.length = r.size) (s : Dds) :
    (readRegister r (fun i => bs.getD i 0) s).1 = bigEndian bs := by
  have hmap : (List.range bs.length).map (fun i => bs.getD i 0) = bs := by
    apply List.ext_getElem
    · simp
    · intro i h₁ h₂
      simp [List.getElem?_eq_getElem h₂]
  have hfold : (readRegister r (fun i => bs.getD i 0) s).1 =
      bigEndian ((List.range bs.length).map fun i => bs.getD i 0) := by
    simp only [readRegister,bigEndian,List.foldl_map,h]
  rw [hfold,hmap]

theorem address_read_clear (r : Reg) : (r.address ||| 0x00) &&& instrRead = 0 := by
  cases r <;> decide

structure FrameCarries (r : Reg) (s : Dds) (frame : List Byte) : Prop where
  sent : updateReg r s = spiWrite frame s
  write : ∃ a data, frame = a :: data ∧ a &&& instrRead = 0 ∧ a = r.address ∧
    data.length = r.size ∧
    ∀ t, (readRegister r (fun i => data.getD i 0) t).1 = s.regs r

theorem frameCarries_updateFrame {s : Dds} (h : Fits s.regs) (r : Reg) :
    FrameCarries r s (updateFrame r (s.regs r)) := by
  have hread (t : Dds) :
      (readRegister r (fun i => (frameData r (s.regs r)).getD i 0) t).1 = s.regs r := by
    rw [readRegister_bytes (frameData_length r (s.regs r)),bigEndian_frameData r _ (h r)]
  exact ⟨rfl,_,_,rfl,address_read_clear r,BitVec.or_zero,frameData_length r _,hread⟩

theorem field_writes_survive_spi (chip : Chip) (pins : GpioPin → Bool) (ws : List FieldWrite) :
    ∃ s, FieldWrite.performAll (Dds.boot chip pins) ws = some s ∧
      (∀ r, (s.regs r).toNat < 2^(8*r.size)) ∧
      ∀ r, ∃ frame, FrameCarries r s frame := by
  obtain ⟨s,hs,hfits⟩ := FieldWrite.performAll_fits (s := Dds.boot chip pins) fits_bootValue ws
  exact ⟨s,hs,hfits,fun r => ⟨_,frameCarries_updateFrame hfits r⟩⟩

end Stm32Dds.Ad9910
