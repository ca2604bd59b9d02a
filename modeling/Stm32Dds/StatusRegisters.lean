import Mathlib

set_option autoImplicit false

namespace Stm32Dds.Status

abbrev RegVal := BitVec 16

inductive RegName
  | stb | sre | esr | ese | oper | opere | ques | quese
  deriving DecidableEq, Repr

abbrev Registers := RegName → RegVal

namespace Stb

def qma : RegVal := 0x04
def qes : RegVal := 0x08
def esr : RegVal := 0x20
def srq : RegVal := 0x40
def ops : RegVal := 0x80

end Stb

namespace Esr

def opc : RegVal := 0x01
def req : RegVal := 0x02
def qer : RegVal := 0x04
def der : RegVal := 0x08
def eer : RegVal := 0x10
def cer : RegVal := 0x20
def urq : RegVal := 0x40
def pon : RegVal := 0x80

end Esr

/-- SCPI_RegSet on the status byte. The interface has no control function, so nobody is
told about a service request. -/
def regSetStb (val : RegVal) (r : Registers) : Registers :=
  let mask := r .sre &&& ~~~Stb.srq
  Function.update r .stb (if val &&& mask ≠ 0 then val ||| Stb.srq else val &&& ~~~Stb.srq)

def regUpdateSTB (val : RegVal) (mask : RegName) (stbBits : RegVal) (r : Registers) : Registers :=
  if val &&& r mask ≠ 0 then regSetStb (r .stb ||| stbBits) r
  else regSetStb (r .stb &&& ~~~stbBits) r

/-- The case of SCPI_REG_ESR, SCPI_REG_QUES and SCPI_REG_OPER. -/
def regSetEvent (name mask : RegName) (stbBits val : RegVal) (r : Registers) : Registers :=
  Function.update (regUpdateSTB val mask stbBits (Function.update r name val)) name val

/-- The case of SCPI_REG_ESE, SCPI_REG_QUESE and SCPI_REG_OPERE. -/
def regSetEnable (name event : RegName) (stbBits val : RegVal) (r : Registers) : Registers :=
  Function.update (regSetEvent event name stbBits (r event) (Function.update r name val)) name val

def regSet (name : RegName) (val : RegVal) (r : Registers) : Registers :=
  match name with
  | .stb => regSetStb val r
  | .sre => Function.update (regSetStb (r .stb) (Function.update r .sre val)) .sre val
  | .esr => regSetEvent .esr .ese Stb.esr val r
  | .ese => regSetEnable .ese .esr Stb.esr val r
  | .ques => regSetEvent .ques .quese Stb.qes val r
  | .quese => regSetEnable .quese .ques Stb.qes val r
  | .oper => regSetEvent .oper .opere Stb.ops val r
  | .opere => regSetEnable .opere .oper Stb.ops val r

def regSetBits (name : RegName) (bits : RegVal) (r : Registers) : Registers :=
  regSet name (r name ||| bits) r

def regClearBits (name : RegName) (bits : RegVal) (r : Registers) : Registers :=
  regSet name (r name &&& ~~~bits) r

def eventClear (r : Registers) : Registers := regSet .esr 0 r

section Apply
variable (r : Registers) (val : RegVal)

theorem regSetStb_of_ne {m : RegName} (h : m ≠ .stb) : regSetStb val r m = r m :=
  Function.update_of_ne h _ _

theorem regUpdateSTB_of_ne {m : RegName} (h : m ≠ .stb) (mask : RegName) (stbBits : RegVal) :
    regUpdateSTB val mask stbBits r m = r m := by
  unfold regUpdateSTB
  split <;> exact regSetStb_of_ne _ _ h

theorem regSetEvent_of_ne {m name : RegName} (h : m ≠ .stb) (hname : m ≠ name) (mask : RegName)
    (stbBits : RegVal) : regSetEvent name mask stbBits val r m = r m := by
  rw [regSetEvent,Function.update_of_ne hname,regUpdateSTB_of_ne _ _ h,Function.update_of_ne hname]

theorem regSetEnable_of_ne {m name event : RegName} (h : m ≠ .stb) (hname : m ≠ name)
    (stbBits : RegVal) : regSetEnable name event stbBits val r m = r m := by
  rw [regSetEnable,Function.update_of_ne hname]
  by_cases hevent : m = event
  · rw [hevent,regSetEvent,Function.update_self]
  · rw [regSetEvent_of_ne _ _ h hevent,Function.update_of_ne hname]

theorem regSet_self {name : RegName} (h : name ≠ .stb) : regSet name val r name = val := by
  cases name with
  | stb => contradiction
  | _ => simp only [regSet,regSetEvent,regSetEnable,Function.update_self]

theorem regSet_of_ne {name m : RegName} (h : m ≠ .stb) (hname : m ≠ name) :
    regSet name val r m = r m := by
  cases name with
  | stb => exact regSetStb_of_ne _ _ h
  | sre =>
    rw [regSet,Function.update_of_ne hname,regSetStb_of_ne _ _ h,Function.update_of_ne hname]
  | esr | oper | ques => exact regSetEvent_of_ne _ _ h hname _ _
  | ese | opere | quese => exact regSetEnable_of_ne _ _ h hname _

end Apply

/-- A status byte without the service request, and the request its enabled bits make. -/
def withService (sre u : RegVal) : RegVal := if u &&& sre ≠ 0 then u ||| Stb.srq else u

theorem and_mask (val sre : RegVal) :
    val &&& (sre &&& ~~~Stb.srq) = val &&& ~~~Stb.srq &&& sre := by
  rw [BitVec.and_comm sre,BitVec.and_assoc]

theorem and_not_or (val : RegVal) : val &&& ~~~Stb.srq ||| Stb.srq = val ||| Stb.srq := by
  apply BitVec.eq_of_getLsbD_eq
  intro i hi
  simp only [BitVec.getLsbD_or,BitVec.getLsbD_and,BitVec.getLsbD_not]
  cases val.getLsbD i <;> cases Stb.srq.getLsbD i <;> simp [hi]

theorem regSetStb_stb (val : RegVal) (r : Registers) :
    regSetStb val r .stb = withService (r .sre) (val &&& ~~~Stb.srq) := by
  simp only [regSetStb,Function.update_self,withService,and_mask,and_not_or]

theorem withService_not_srq (sre u : RegVal) :
    withService sre u &&& ~~~Stb.srq = u &&& ~~~Stb.srq := by
  unfold withService
  split
  · rw [BitVec.and_or_distrib_right,BitVec.and_not_self]
    exact BitVec.or_zero
  · rfl

theorem withService_and (sre u b : RegVal) :
    withService sre u &&& b &&& ~~~Stb.srq = u &&& b &&& ~~~Stb.srq := by
  rw [BitVec.and_assoc,BitVec.and_comm b,← BitVec.and_assoc,withService_not_srq,BitVec.and_assoc,
    BitVec.and_comm _ b,← BitVec.and_assoc]

theorem withService_or (sre u b : RegVal) :
    (withService sre u ||| b) &&& ~~~Stb.srq = (u ||| b) &&& ~~~Stb.srq := by
  rw [BitVec.and_or_distrib_right,withService_not_srq,← BitVec.and_or_distrib_right]

def flag (b : Bool) (bit : RegVal) : RegVal := if b then bit else 0

def summary (errors ques esr oper : Bool) : RegVal :=
  flag errors Stb.qma ||| flag ques Stb.qes ||| flag esr Stb.esr ||| flag oper Stb.ops

def enabled (event enable : RegVal) : Bool := event &&& enable ≠ 0

def statusByte (errors : Bool) (r : Registers) : RegVal :=
  withService (r .sre) (summary errors (enabled (r .ques) (r .quese)) (enabled (r .esr) (r .ese))
    (enabled (r .oper) (r .opere)))

section Summary
variable (a b c d : Bool)

theorem summary_and_not_srq : summary a b c d &&& ~~~Stb.srq = summary a b c d := by
  cases a <;> cases b <;> cases c <;> cases d <;> decide

theorem summary_or_qma : (summary a b c d ||| Stb.qma) &&& ~~~Stb.srq = summary true b c d := by
  cases a <;> cases b <;> cases c <;> cases d <;> decide

theorem summary_and_qma :
    summary a b c d &&& ~~~Stb.qma &&& ~~~Stb.srq = summary false b c d := by
  cases a <;> cases b <;> cases c <;> cases d <;> decide

theorem summary_qes (e : Bool) : (if e then (summary a b c d ||| Stb.qes) &&& ~~~Stb.srq
    else summary a b c d &&& ~~~Stb.qes &&& ~~~Stb.srq) = summary a e c d := by
  cases e <;> cases a <;> cases b <;> cases c <;> cases d <;> decide

theorem summary_esr (e : Bool) : (if e then (summary a b c d ||| Stb.esr) &&& ~~~Stb.srq
    else summary a b c d &&& ~~~Stb.esr &&& ~~~Stb.srq) = summary a b e d := by
  cases e <;> cases a <;> cases b <;> cases c <;> cases d <;> decide

theorem summary_ops (e : Bool) : (if e then (summary a b c d ||| Stb.ops) &&& ~~~Stb.srq
    else summary a b c d &&& ~~~Stb.ops &&& ~~~Stb.srq) = summary a b c e := by
  cases e <;> cases a <;> cases b <;> cases c <;> cases d <;> decide

end Summary

/-- The status byte is what the other registers and the error queue make of it. -/
def Coherent (errors : Bool) (r : Registers) : Prop := r .stb = statusByte errors r

theorem regUpdateSTB_stb {u : RegVal} {r : Registers} (h : r .stb = withService (r .sre) u)
    (val : RegVal) (mask : RegName) (stbBits : RegVal) :
    regUpdateSTB val mask stbBits r .stb = withService (r .sre)
      (if enabled val (r mask) then (u ||| stbBits) &&& ~~~Stb.srq
        else u &&& ~~~stbBits &&& ~~~Stb.srq) := by
  simp only [regUpdateSTB,enabled,decide_eq_true_eq]
  split <;> rw [regSetStb_stb,h]
  · rw [withService_or]
  · rw [withService_and]

theorem regSetEvent_stb {u : RegVal} {r : Registers} (h : r .stb = withService (r .sre) u)
    {name mask : RegName} (hstb : name ≠ .stb) (hsre : name ≠ .sre) (hmask : mask ≠ name)
    (stbBits val : RegVal) :
    regSetEvent name mask stbBits val r .stb = withService (r .sre)
      (if enabled val (r mask) then (u ||| stbBits) &&& ~~~Stb.srq
        else u &&& ~~~stbBits &&& ~~~Stb.srq) := by
  have hup : Function.update r name val .stb = withService (Function.update r name val .sre) u := by
    rwa [Function.update_of_ne hstb.symm,Function.update_of_ne hsre.symm]
  rw [regSetEvent,Function.update_of_ne hstb.symm,regUpdateSTB_stb hup,
    Function.update_of_ne hsre.symm,Function.update_of_ne hmask]

theorem regSetEnable_stb {u : RegVal} {r : Registers} (h : r .stb = withService (r .sre) u)
    {name event : RegName} (hstb : name ≠ .stb) (hsre : name ≠ .sre) (hevent : event ≠ .stb)
    (hevent' : event ≠ .sre) (hne : name ≠ event) (stbBits val : RegVal) :
    regSetEnable name event stbBits val r .stb = withService (r .sre)
      (if enabled (r event) val then (u ||| stbBits) &&& ~~~Stb.srq
        else u &&& ~~~stbBits &&& ~~~Stb.srq) := by
  have hup : Function.update r name val .stb = withService (Function.update r name val .sre) u := by
    rwa [Function.update_of_ne hstb.symm,Function.update_of_ne hsre.symm]
  rw [regSetEnable,Function.update_of_ne hstb.symm,regSetEvent_stb hup hevent hevent' hne,
    Function.update_of_ne hsre.symm,Function.update_self]

theorem statusByte_congr {r r' : Registers} (h : ∀ m, m ≠ .stb → r' m = r m) (errors : Bool) :
    statusByte errors r' = statusByte errors r := by
  simp only [statusByte,h .sre (by decide),h .ques (by decide),h .quese (by decide),
    h .esr (by decide),h .ese (by decide),h .oper (by decide),h .opere (by decide)]

theorem coherent_regSet_sre {errors : Bool} {r : Registers} (h : Coherent errors r) (val : RegVal) :
    regSet .sre val r .stb = statusByte errors (Function.update r .sre val) := by
  rw [regSet,Function.update_of_ne (by decide),regSetStb_stb,Function.update_self,h,statusByte,
    withService_not_srq,summary_and_not_srq]
  rfl

theorem coherent_regSet {errors : Bool} {r : Registers} (h : Coherent errors r) {name : RegName}
    (hname : name ≠ .stb) (val : RegVal) : Coherent errors (regSet name val r) := by
  have hrest : statusByte errors (regSet name val r) =
      statusByte errors (Function.update r name val) := by
    refine statusByte_congr (fun m hm => ?_) errors
    by_cases hne : m = name
    · rw [hne,regSet_self r val hname,Function.update_self]
    · rw [regSet_of_ne r val hm hne,Function.update_of_ne hne]
  rw [Coherent,hrest]
  cases name with
  | stb => contradiction
  | sre => exact coherent_regSet_sre h val
  | esr =>
    rw [regSet,regSetEvent_stb h (by decide) (by decide) (by decide),summary_esr]
    rfl
  | ques =>
    rw [regSet,regSetEvent_stb h (by decide) (by decide) (by decide),summary_qes]
    rfl
  | oper =>
    rw [regSet,regSetEvent_stb h (by decide) (by decide) (by decide),summary_ops]
    rfl
  | ese =>
    rw [regSet,regSetEnable_stb h (by decide) (by decide) (by decide) (by decide) (by decide),
      summary_esr]
    rfl
  | quese =>
    rw [regSet,regSetEnable_stb h (by decide) (by decide) (by decide) (by decide) (by decide),
      summary_qes]
    rfl
  | opere =>
    rw [regSet,regSetEnable_stb h (by decide) (by decide) (by decide) (by decide) (by decide),
      summary_ops]
    rfl

theorem coherent_setQma {errors : Bool} {r : Registers} (h : Coherent errors r) :
    Coherent true (regSetBits .stb Stb.qma r) := by
  have hrest := statusByte_congr (fun m hm => regSetStb_of_ne r (r .stb ||| Stb.qma) hm) true
  rw [Coherent,regSetBits,regSet,hrest,regSetStb_stb,h,statusByte,withService_or,summary_or_qma]
  rfl

theorem coherent_clearQma {errors : Bool} {r : Registers} (h : Coherent errors r) :
    Coherent false (regClearBits .stb Stb.qma r) := by
  have hrest := statusByte_congr (fun m hm => regSetStb_of_ne r (r .stb &&& ~~~Stb.qma) hm) false
  rw [Coherent,regClearBits,regSet,hrest,regSetStb_stb,h,statusByte,withService_and,
    summary_and_qma]
  rfl

end Stm32Dds.Status
