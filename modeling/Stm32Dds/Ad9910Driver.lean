import Stm32Dds.Ad9910Registers

/-! The functions of ad9910.c on the firmware's view of the DDS: shadow registers,
pins, and everything that leaves the processor. A frame on the SPI also changes
the chip, so the two can be compared at any moment. -/

set_option autoImplicit false

namespace Stm32Dds.Ad9910
open Bytes BitFields

structure GpioPin where
  group : BitVec 32
  pin : BitVec 32
  deriving DecidableEq, Repr

def gpioA : BitVec 32 := 0x40020000
def gpioB : BitVec 32 := 0x40020400
def gpioD : BitVec 32 := 0x40020C00

namespace Pin

def ioUpdate : GpioPin := ⟨gpioD,11⟩
def ioReset : GpioPin := ⟨gpioB,7⟩
def rfSwitch : GpioPin := ⟨gpioA,4⟩
def ddsReset : GpioPin := ⟨gpioA,0⟩
def ledRed : GpioPin := ⟨gpioD,14⟩
def ledOrange : GpioPin := ⟨gpioD,13⟩
def ledFront : GpioPin := ⟨gpioB,9⟩
def drctl : GpioPin := ⟨gpioD,2⟩
def txEnable : GpioPin := ⟨gpioB,0⟩
def parallelF0 : GpioPin := ⟨gpioB,15⟩
def parallelF1 : GpioPin := ⟨gpioB,14⟩
def profile0 : GpioPin := ⟨gpioD,10⟩
def profile1 : GpioPin := ⟨gpioD,9⟩
def profile2 : GpioPin := ⟨gpioD,8⟩

end Pin

/-- What the outside of the processor can see. A frame is one SPI instruction:
the instruction byte and all the data that belongs to it. -/
inductive Effect
  | spi (frame : List Byte)
  | pin (p : GpioPin) (level : Bool)
  | wait (delay : BitVec 32)
  | ioUpdate
  | trigger
  | port (value : BitVec 16)
  | timer (frequency : BitVec 32)
  deriving DecidableEq, Repr

/-- The log keeps with every effect the chip as it is right after it. -/
structure Dds where
  regs : Regs
  chip : Chip
  pins : GpioPin → Bool
  updateRegisters : BitVec 32
  log : List (Effect × Chip)

/-- Power up: the registers of the chip and the pins can have any value. -/
def Dds.boot (chip : Chip) (pins : GpioPin → Bool) : Dds := ⟨Reg.bootValue,chip,pins,0,[]⟩

def Dds.emit (e : Effect) (s : Dds) : Dds := { s with log := s.log ++ [(e,s.chip)] }

/-- spi_write_multi, and spi_send_single before it where an instruction is sent in two parts. -/
def spiWrite (frame : List Byte) (s : Dds) : Dds :=
  Dds.emit (.spi frame) { s with chip := s.chip.receive frame }

def gpioSet (p : GpioPin) (level : Bool) (s : Dds) : Dds :=
  Dds.emit (.pin p level) { s with pins := Function.update s.pins p level }

def gpioSetHigh (p : GpioPin) : Dds → Dds := gpioSet p true
def gpioSetLow (p : GpioPin) : Dds → Dds := gpioSet p false
def gpioGet (p : GpioPin) (s : Dds) : Bool := s.pins p

def delay (ms : BitVec 32) : Dds → Dds := Dds.emit (.wait ms)

/-- The pulse of ad9910_io_update; the pin is low again when it returns. -/
def ioUpdate (s : Dds) : Dds :=
  Dds.emit .ioUpdate { s with pins := Function.update s.pins Pin.ioUpdate false }

def setValue (f : RegisterBit) (value : BitVec 64) (s : Dds) : Dds :=
  { s with regs := Function.update s.regs f.reg (setField (s.regs f.reg) f.bits f.offset value) }

def getValue (f : RegisterBit) (s : Dds) : BitVec 64 := getField (s.regs f.reg) f.bits f.offset

def getProfileReg : Nat → Option Reg
  | 0 => some .prof0
  | 1 => some .prof1
  | 2 => some .prof2
  | 3 => some .prof3
  | 4 => some .prof4
  | 5 => some .prof5
  | 6 => some .prof6
  | 7 => some .prof7
  | _ => none

/-- The register is `field.reg + profile`; outside the struct there is no result. -/
def setProfileValue (profile : Nat) (f : RegisterBit) (value : BitVec 64) (s : Dds) : Option Dds :=
  (f.reg.plus profile).map fun r =>
    { s with regs := Function.update s.regs r (setField (s.regs r) f.bits f.offset value) }

def updateReg (r : Reg) (s : Dds) : Dds := spiWrite (updateFrame r (s.regs r)) s

def updateProfileReg (profile : Nat) (s : Dds) : Option Dds :=
  (Reg.prof0.plus profile).map fun r => updateReg r s

def updateMatchingReg (f : RegisterBit) : Dds → Dds := updateReg f.reg

section
variable (s : Dds)

@[simp] theorem gpioSet_regs (p : GpioPin) (level : Bool) : (gpioSet p level s).regs = s.regs := rfl
@[simp] theorem delay_regs (ms : BitVec 32) : (delay ms s).regs = s.regs := rfl
@[simp] theorem updateReg_regs (r : Reg) : (updateReg r s).regs = s.regs := rfl
@[simp] theorem setValue_regs (f : RegisterBit) (value : BitVec 64) : (setValue f value s).regs =
    Function.update s.regs f.reg (setField (s.regs f.reg) f.bits f.offset value) := rfl

end

section Fields

def RegisterBit.Apart (f g : RegisterBit) : Prop :=
  f.reg ≠ g.reg ∨ f.offset+f.bits ≤ g.offset ∨ g.offset+g.bits ≤ f.offset

instance (f g : RegisterBit) : Decidable (f.Apart g) := inferInstanceAs (Decidable (_ ∨ _))

theorem RegisterBit.fits_word (f : RegisterBit) : f.offset+f.bits ≤ 64 := by
  have hfits := f.fits
  have hsize := f.reg.size_cases
  omega

theorem getValue_setValue (f : RegisterBit) (value : BitVec 64) (s : Dds) :
    getValue f (setValue f value s) = value &&& fieldMask 64 f.bits := by
  simp only [getValue,setValue_regs,Function.update_self]
  exact getField_setField _ value f.bits f.offset f.bits_lt f.fits_word

theorem getValue_setValue_apart {f g : RegisterBit} (h : f.Apart g) (value : BitVec 64) (s : Dds) :
    getValue g (setValue f value s) = getValue g s := by
  simp only [getValue,setValue_regs]
  by_cases hreg : g.reg = f.reg
  · have hapart : f.offset+f.bits ≤ g.offset ∨ g.offset+g.bits ≤ f.offset := by
      rcases h with h | h
      · exact absurd hreg.symm h
      · exact h
    rw [hreg,Function.update_self]
    exact getField_setField_apart _ value _ _ _ _ f.bits_lt g.bits_lt g.fits_word hapart
  · rw [Function.update_of_ne hreg]

end Fields

/-- The test of ad9910_update_multiple_regs is `mask & (i << i)`. -/
def updateMultipleRegs (mask : BitVec 32) (s : Dds) : Option Dds :=
  (List.range 32).foldlM (fun s i =>
    if mask &&& (BitVec.ofNat 32 i <<< i) ≠ 0 then (Reg.cfr1.plus i).map fun r => updateReg r s
    else some s) s

def truth (mode : BitVec 32) : Bool := mode ≠ 0

def truthValue (mode : BitVec 32) : BitVec 64 := if truth mode then 1 else 0

def enableParallel (mode : BitVec 32) (s : Dds) : Dds :=
  gpioSet Pin.txEnable (truth mode) <|
  updateMatchingReg Field.parallelDataPortEnable <|
  setValue Field.parallelDataPortEnable (truthValue mode) s

def setParallel (value : BitVec 16) : Dds → Dds := Dds.emit (.port value)

/-- ad9910_execute_parallel; `flag i` says if the timer has fired when pass i of the loop looks. -/
def executeParallel (data : Nat → BitVec 16) (len rep : BitVec 32) (flag : Nat → Bool) (s : Dds) :
    Dds :=
  (List.range (len*rep).toNat).foldl
    (fun s i => if flag i then setParallel (data (i % len.toNat)) s else s)
    (enableParallel 1 (setParallel (data 0) s))

def setParallelFrequency (frequency : BitVec 32) : Dds → Dds := Dds.emit (.timer frequency)

def setProfileField (f : RegisterBit) (profile : Nat) (value : BitVec 64) (s : Dds) : Option Dds := do
  let s ← setProfileValue profile f value s
  updateProfileReg profile s

def setFrequency (profile : Nat) (freq : BitVec 32) : Dds → Option Dds :=
  setProfileField Field.profileFrequency profile (freq.setWidth 64)

def setAmplitude (profile : Nat) (ampl : BitVec 16) : Dds → Option Dds :=
  setProfileField Field.profileAmplitude profile (ampl.setWidth 64)

def setPhase (profile : Nat) (phase : BitVec 16) : Dds → Option Dds :=
  setProfileField Field.profilePhase profile (phase.setWidth 64)

def setSingleTone (profile : Nat) (freq : BitVec 32) (ampl phase : BitVec 16) (s : Dds) :
    Option Dds := do
  let s ← setProfileValue profile Field.profileFrequency (freq.setWidth 64) s
  let s ← setProfileValue profile Field.profilePhase (phase.setWidth 64) s
  let s ← setProfileValue profile Field.profileAmplitude (ampl.setWidth 64) s
  updateProfileReg profile s

structure Ramp where
  dest : BitVec 32
  upperLimit : BitVec 32
  lowerLimit : BitVec 32
  decrementStep : BitVec 32
  incrementStep : BitVec 32
  negativeSlope : BitVec 16
  positiveSlope : BitVec 16
  noDwellHigh : BitVec 32
  noDwellLow : BitVec 32

def programRamp (p : Ramp) (s : Dds) : Dds :=
  let s := setValue Field.rampUpperLimit (p.upperLimit.setWidth 64) s
  let s := setValue Field.rampLowerLimit (p.lowerLimit.setWidth 64) s
  let s := setValue Field.rampDecrementStep (p.decrementStep.setWidth 64) s
  let s := setValue Field.rampIncrementStep (p.incrementStep.setWidth 64) s
  let s := setValue Field.rampNegativeRate (p.negativeSlope.setWidth 64) s
  let s := setValue Field.rampPositiveRate (p.positiveSlope.setWidth 64) s
  let s := setValue Field.digitalRampDestination (p.dest.setWidth 64) s
  let s := setValue Field.digitalRampEnable 1 s
  let s := setValue Field.digitalRampNoDwellHigh (truthValue p.noDwellHigh) s
  let s := setValue Field.digitalRampNoDwellLow (truthValue p.noDwellLow) s
  let s := updateReg .rampLimit s
  let s := updateReg .rampStep s
  let s := updateReg .rampRate s
  updateReg .cfr2 s

def ramAddress : Byte := 0x16

/-- ad9910_program_ram. Its destination and mode arguments are not looked at. -/
def programRam (samples : BitVec 32) (data : Nat → BitVec 32) (s : Dds) : Option Dds :=
  if samples.toNat > 1000 then some s else do
    let out := gpioGet Pin.rfSwitch s
    let s := gpioSet Pin.rfSwitch false s
    let prof ← getProfileReg 0
    let oldReg := s.regs prof
    let s ← setProfileValue 0 Field.profileWaveformStartAddress 0 s
    let s ← setProfileValue 0 Field.profileWaveformEndAddress (samples.setWidth 64) s
    let s ← updateProfileReg 0 s
    let s := ioUpdate s
    let s := spiWrite ((ramAddress ||| 0x00) ::
      (List.range samples.toNat).flatMap fun i => wordBytes (data i)) s
    let s := { s with regs := Function.update s.regs prof oldReg }
    let s ← updateProfileReg 0 s
    let s := ioUpdate s
    return gpioSet Pin.rfSwitch out s

/-- ad9910_init up to the register upload. The wait for the PLL lock reads a pin
and changes nothing. -/
def initSettings (s : Dds) : Dds :=
  let s := gpioSetHigh Pin.ledOrange s
  let s := gpioSetLow Pin.ddsReset (delay 1 (gpioSetHigh Pin.ddsReset s))
  let s := gpioSetLow Pin.ioReset (delay 1 (gpioSetHigh Pin.ioReset s))
  let s := setValue Field.pllEnable 1 s
  let s := setValue Field.pllDivide 100 s
  let s := setValue Field.vcoRange 5 s
  let s := setValue Field.pllPumpCurrent 1 s
  let s := updateReg .cfr3 s
  let s := gpioSetLow Pin.ioUpdate (delay 1 (gpioSetHigh Pin.ioUpdate s))
  let s := gpioSetLow Pin.ledRed (gpioSetHigh Pin.ledRed s)
  let s := setValue Field.sdioInputOnly 1 s
  let s := setValue Field.pdclkEnable 1 s
  let s := setValue Field.inverseSincFilterEnable 1 s
  let s := setValue Field.enableAmplitudeScale 1 s
  setValue Field.matchedLatencyEnable 1 s

def initUpload (s : Dds) : Dds := Reg.all.foldl (fun s r => updateReg r s) (initSettings s)

def enableOutput (v : BitVec 32) : Dds → Dds := gpioSet Pin.rfSwitch (truth v)

def selectProfile (profile : Byte) (s : Dds) : Dds :=
  let s := gpioSet Pin.profile0 (profile &&& 1 ≠ 0) s
  let s := gpioSet Pin.profile1 (profile &&& 2 ≠ 0) s
  gpioSet Pin.profile2 (profile &&& 4 ≠ 0) s

def selectParallelTarget (mode : BitVec 32) (s : Dds) : Dds :=
  let s := gpioSet Pin.parallelF0 (mode &&& 1 ≠ 0) s
  gpioSet Pin.parallelF1 (mode &&& 2 ≠ 0) s

/-- The rest of ad9910_init, up to the startup command. -/
def initOutputs (s : Dds) : Dds :=
  let s := selectProfile 0 s
  let s := selectParallelTarget 0 s
  let s := enableParallel 0 s
  let s := gpioSetHigh Pin.txEnable s
  enableOutput 1 s

end Stm32Dds.Ad9910
