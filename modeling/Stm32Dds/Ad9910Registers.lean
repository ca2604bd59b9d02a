import Stm32Dds.ByteMemory
import Stm32Dds.BitFields

set_option autoImplicit false

namespace Stm32Dds.Ad9910
open Bytes BitFields

inductive Reg
  | cfr1 | cfr2 | cfr3 | auxDacCtl | ioUpdateRate | ftw | pow | asf | multichipSync
  | rampLimit | rampStep | rampRate | prof0 | prof1 | prof2 | prof3 | prof4 | prof5
  | prof6 | prof7
  deriving DecidableEq, Repr

namespace Reg

def address : Reg → Byte
  | .cfr1 => 0x00
  | .cfr2 => 0x01
  | .cfr3 => 0x02
  | .auxDacCtl => 0x03
  | .ioUpdateRate => 0x04
  | .ftw => 0x07
  | .pow => 0x08
  | .asf => 0x09
  | .multichipSync => 0x0A
  | .rampLimit => 0x0B
  | .rampStep => 0x0C
  | .rampRate => 0x0D
  | .prof0 => 0x0E
  | .prof1 => 0x0F
  | .prof2 => 0x10
  | .prof3 => 0x11
  | .prof4 => 0x12
  | .prof5 => 0x13
  | .prof6 => 0x14
  | .prof7 => 0x15

def size : Reg → Nat
  | .pow => 2
  | .rampLimit | .rampStep => 8
  | .prof0 | .prof1 | .prof2 | .prof3 | .prof4 | .prof5 | .prof6 | .prof7 => 8
  | _ => 4

def bootValue : Reg → BitVec 64
  | .cfr2 => 0x400820
  | .cfr3 => 0x17384000
  | .auxDacCtl => 0x7F
  | .ioUpdateRate => 0xFFFFFFFF
  | _ => 0

def all : List Reg :=
  [.cfr1,.cfr2,.cfr3,.auxDacCtl,.ioUpdateRate,.ftw,.pow,.asf,.multichipSync,.rampLimit,
   .rampStep,.rampRate,.prof0,.prof1,.prof2,.prof3,.prof4,.prof5,.prof6,.prof7]

def index (r : Reg) : Nat := all.idxOf r

/-- The C expression `reg + k`; nothing when that leaves the struct. -/
def plus (r : Reg) (k : Nat) : Option Reg := all[r.index+k]?

theorem index_lt (r : Reg) : all[r.index]? = some r := by cases r <;> rfl

theorem mem_all (r : Reg) : r ∈ all := List.mem_of_getElem? r.index_lt

theorem address_injective : Function.Injective address := by
  have h : ∀ r : Reg, all.find? (fun x => x.address = r.address) = some r := by
    intro r
    cases r <;> rfl
  intro r r' he
  exact Option.some.inj ((h r).symm.trans (he ▸ h r'))

theorem size_cases (r : Reg) : r.size = 2 ∨ r.size = 4 ∨ r.size = 8 := by
  cases r <;> decide

end Reg

/-- ad9910_register_bit. The mask arithmetic of ad9910_set_value needs the two bounds. -/
structure RegisterBit where
  reg : Reg
  bits : Nat
  offset : Nat
  bits_lt : bits < 64 := by decide
  fits : offset+bits ≤ 8*reg.size := by decide

namespace Field

def ramEnable : RegisterBit := .mk .cfr1 1 31
def ramPlaybackDestination : RegisterBit := .mk .cfr1 2 29
def manualOskExternalControl : RegisterBit := .mk .cfr1 1 23
def inverseSincFilterEnable : RegisterBit := .mk .cfr1 1 22
def internalProfileCtrl : RegisterBit := .mk .cfr1 4 17
def selectDdsSineOutput : RegisterBit := .mk .cfr1 1 16
def loadLrr : RegisterBit := .mk .cfr1 1 15
def autoclearDigitalRampAccumulator : RegisterBit := .mk .cfr1 1 14
def autoclearPhaseAccumulator : RegisterBit := .mk .cfr1 1 13
def clearDigitalRampAccumulator : RegisterBit := .mk .cfr1 1 12
def clearPhaseAccumulator : RegisterBit := .mk .cfr1 1 11
def loadArr : RegisterBit := .mk .cfr1 1 10
def oskEnable : RegisterBit := .mk .cfr1 1 9
def selectAutoOsk : RegisterBit := .mk .cfr1 1 8
def digitalPowerDown : RegisterBit := .mk .cfr1 1 7
def dacPowerDown : RegisterBit := .mk .cfr1 1 6
def refclkInputPowerDown : RegisterBit := .mk .cfr1 1 5
def auxDacPowerDown : RegisterBit := .mk .cfr1 1 4
def externalPowerDownControl : RegisterBit := .mk .cfr1 1 3
def sdioInputOnly : RegisterBit := .mk .cfr1 1 1
def lsbFirst : RegisterBit := .mk .cfr1 1 0
def enableAmplitudeScale : RegisterBit := .mk .cfr2 1 24
def internalIoUpdate : RegisterBit := .mk .cfr2 1 23
def syncClkEnable : RegisterBit := .mk .cfr2 1 22
def digitalRampDestination : RegisterBit := .mk .cfr2 2 20
def digitalRampEnable : RegisterBit := .mk .cfr2 1 19
def digitalRampNoDwellHigh : RegisterBit := .mk .cfr2 1 18
def digitalRampNoDwellLow : RegisterBit := .mk .cfr2 1 17
def readEffectiveFtw : RegisterBit := .mk .cfr2 1 16
def ioUpdateRateControl : RegisterBit := .mk .cfr2 2 14
def pdclkEnable : RegisterBit := .mk .cfr2 1 11
def pdclkInvert : RegisterBit := .mk .cfr2 1 10
def txenableInvert : RegisterBit := .mk .cfr2 1 9
def matchedLatencyEnable : RegisterBit := .mk .cfr2 1 7
def dataAssemblerHostLastValue : RegisterBit := .mk .cfr2 1 6
def syncTimingValidationEnable : RegisterBit := .mk .cfr2 1 5
def parallelDataPortEnable : RegisterBit := .mk .cfr2 1 4
def fmGain : RegisterBit := .mk .cfr2 4 0
def drv0 : RegisterBit := .mk .cfr3 2 28
def vcoRange : RegisterBit := .mk .cfr3 3 24
def pllPumpCurrent : RegisterBit := .mk .cfr3 3 19
def refclkInputDividerBypass : RegisterBit := .mk .cfr3 1 15
def refclkInputDividerResetb : RegisterBit := .mk .cfr3 1 14
def pfdReset : RegisterBit := .mk .cfr3 1 10
def pllEnable : RegisterBit := .mk .cfr3 1 8
def pllDivide : RegisterBit := .mk .cfr3 7 1
def fsc : RegisterBit := .mk .auxDacCtl 8 0
def ioUpdateRate : RegisterBit := .mk .ioUpdateRate 32 0
def ftw : RegisterBit := .mk .ftw 32 0
def pow : RegisterBit := .mk .pow 16 0
def amplitudeRameRate : RegisterBit := .mk .asf 16 16
def amplitudeScaleFactor : RegisterBit := .mk .asf 14 2
def amplitudeStepSize : RegisterBit := .mk .asf 2 0
def syncValidationDelay : RegisterBit := .mk .multichipSync 4 28
def syncReceiverEnable : RegisterBit := .mk .multichipSync 1 27
def syncGeneratorEnable : RegisterBit := .mk .multichipSync 1 26
def syncGeneratorPolarity : RegisterBit := .mk .multichipSync 1 25
def syncStatePresetValue : RegisterBit := .mk .multichipSync 6 18
def outputSyncGenerator : RegisterBit := .mk .multichipSync 5 11
def inputSyncReceiverDelay : RegisterBit := .mk .multichipSync 5 0
def rampUpperLimit : RegisterBit := .mk .rampLimit 32 32
def rampLowerLimit : RegisterBit := .mk .rampLimit 32 0
def rampDecrementStep : RegisterBit := .mk .rampStep 32 32
def rampIncrementStep : RegisterBit := .mk .rampStep 32 0
def rampNegativeRate : RegisterBit := .mk .rampRate 16 16
def rampPositiveRate : RegisterBit := .mk .rampRate 16 0
def profileAmplitude : RegisterBit := .mk .prof0 14 48
def profilePhase : RegisterBit := .mk .prof0 16 32
def profileFrequency : RegisterBit := .mk .prof0 32 0
def profileAddressStepRate : RegisterBit := .mk .prof0 16 40
def profileWaveformEndAddress : RegisterBit := .mk .prof0 10 30
def profileWaveformStartAddress : RegisterBit := .mk .prof0 10 14
def profileNoDwellHigh : RegisterBit := .mk .prof0 1 5
def profileZeroCrossing : RegisterBit := .mk .prof0 1 3
def profileRamModeControl : RegisterBit := .mk .prof0 3 0

end Field

abbrev Regs := Reg → BitVec 64

def Fits (regs : Regs) : Prop := ∀ r, (regs r).toNat < 2^(8*r.size)

theorem fits_bootValue : Fits Reg.bootValue := by
  intro r
  cases r <;> decide

theorem fits_update {regs : Regs} (h : Fits regs) (r : Reg) (v : BitVec 64)
    (hv : v.toNat < 2^(8*r.size)) : Fits (Function.update regs r v) := by
  intro r'
  by_cases hr : r' = r
  · subst hr
    simpa using hv
  · simpa [hr] using h r'

theorem fits_setField {regs : Regs} (h : Fits regs) (f : RegisterBit) (x : BitVec 64) :
    Fits (Function.update regs f.reg (setField (regs f.reg) f.bits f.offset x)) :=
  fits_update h f.reg _ (setField_lt _ x f.bits f.offset _ f.bits_lt f.fits (h f.reg))

/-- The loop of ad9910_update_reg: the bytes of the value in memory, last one first. -/
def frameData (r : Reg) (v : BitVec 64) : List Byte :=
  (List.range' 1 r.size).map fun i => (toBytes 8 v.toNat).getD (r.size-i) 0

def updateFrame (r : Reg) (v : BitVec 64) : List Byte := (r.address ||| 0x00) :: frameData r v

theorem frameData_eq (r : Reg) (v : BitVec 64) :
    frameData r v = (toBytes r.size v.toNat).reverse := by
  rcases r.size_cases with h | h | h <;> simp only [frameData,h] <;> rfl

@[simp] theorem frameData_length (r : Reg) (v : BitVec 64) : (frameData r v).length = r.size := by
  simp [frameData]

theorem bigEndian_frameData (r : Reg) (v : BitVec 64) (h : v.toNat < 2^(8*r.size)) :
    bigEndian (frameData r v) = v := by
  rw [frameData_eq,bigEndian_reverse,ofBytes_toBytes]
  have hp : (256 : Nat)^r.size = 2^(8*r.size) := by rw [Nat.pow_mul]
  rw [hp,Nat.mod_eq_of_lt h]
  simp

abbrev Chip := (r : Reg) → BitVec (8*r.size)

/-- A write instruction: address byte first, then the data, most significant byte first. -/
def Chip.receive (c : Chip) : List Byte → Chip
  | [] => c
  | a :: data => fun r =>
    if r.address = a ∧ data.length = r.size then (bigEndian data).setWidth (8*r.size) else c r

def Chip.Mirrors (c : Chip) (regs : Regs) : Prop := ∀ r, (c r).setWidth 64 = regs r

theorem Chip.receive_updateFrame (c : Chip) (r : Reg) (v : BitVec 64)
    (h : v.toNat < 2^(8*r.size)) :
    c.receive (updateFrame r v) = Function.update c r (v.setWidth (8*r.size)) := by
  funext r'
  by_cases hr : r' = r
  · subst hr
    simp [receive,updateFrame,bigEndian_frameData _ v h]
  · have ha : r'.address ≠ r.address := fun he => hr (Reg.address_injective he)
    simp [receive,updateFrame,hr,ha]

theorem Chip.Mirrors.fits {c : Chip} {regs : Regs} (h : c.Mirrors regs) : Fits regs := by
  intro r
  rw [← h r,BitVec.toNat_setWidth]
  exact lt_of_le_of_lt (Nat.mod_le _ _) (c r).isLt

theorem setWidth_fits {v : BitVec 64} {r : Reg} (h : v.toNat < 2^(8*r.size)) :
    (v.setWidth (8*r.size)).setWidth 64 = v := by
  apply BitVec.eq_of_toNat_eq
  have hv := v.isLt
  rw [BitVec.toNat_setWidth,BitVec.toNat_setWidth,Nat.mod_eq_of_lt h,Nat.mod_eq_of_lt hv]

def Chip.ofRegs (regs : Regs) : Chip := fun r => (regs r).setWidth (8*r.size)

theorem Chip.ofRegs_mirrors {regs : Regs} (h : Fits regs) : (Chip.ofRegs regs).Mirrors regs :=
  fun r => setWidth_fits (h r)

theorem Chip.Mirrors.unique {c c' : Chip} {regs : Regs} (h : c.Mirrors regs)
    (h' : c'.Mirrors regs) : c = c' := by
  funext r
  apply BitVec.eq_of_toNat_eq
  have he := congrArg BitVec.toNat ((h r).trans (h' r).symm)
  have hs : 8*r.size ≤ 64 := by rcases r.size_cases with hs | hs | hs <;> omega
  have hp : 2^(8*r.size) ≤ 2^64 := Nat.pow_le_pow_right (by decide) hs
  have h₁ := (c r).isLt
  have h₂ := (c' r).isLt
  simp only [BitVec.toNat_setWidth] at he
  rwa [Nat.mod_eq_of_lt (by omega),Nat.mod_eq_of_lt (by omega)] at he

end Stm32Dds.Ad9910
