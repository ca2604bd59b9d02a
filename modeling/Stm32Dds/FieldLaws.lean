import Stm32Dds.ValueResend

set_option autoImplicit false

namespace Stm32Dds.Ad9910
open BitFields

/-- ad9910_register_bit with only the bounds its shifts ask for. The shift by 64 that
they let in moves a mask of zero bits. -/
structure Descriptor where
  reg : Reg
  bits : Nat
  offset : Nat
  bits_lt : bits < 64
  fits : offset+bits ≤ 64

namespace Descriptor

def store (f : Descriptor) (value : BitVec 64) (r : Reg) (s : Dds) : Dds :=
  { s with regs := Function.update s.regs r (setField (s.regs r) f.bits f.offset value) }

def load (f : Descriptor) (r : Reg) (s : Dds) : BitVec 64 := getField (s.regs r) f.bits f.offset

def setValue (f : Descriptor) (value : BitVec 64) : Dds → Dds := f.store value f.reg

def getValue (f : Descriptor) : Dds → BitVec 64 := f.load f.reg

def setProfileValue (profile : Nat) (f : Descriptor) (value : BitVec 64) (s : Dds) : Option Dds :=
  (f.reg.plus profile).map fun r => f.store value r s

def getProfileValue (profile : Nat) (f : Descriptor) (s : Dds) : Option (BitVec 64) :=
  (f.reg.plus profile).map fun r => f.load r s

def Inside (f : Descriptor) (i : Nat) : Prop := f.offset ≤ i ∧ i < f.offset+f.bits

end Descriptor

def RegisterBit.descriptor (f : RegisterBit) : Descriptor :=
  ⟨f.reg,f.bits,f.offset,f.bits_lt,f.fits_word⟩

/-- On a declared field these are the accessors the rest of the firmware is modelled with. -/
theorem accessors_descriptor (f : RegisterBit) (profile : Nat) (value : BitVec 64) (s : Dds) :
    f.descriptor.setValue value s = setValue f value s ∧ f.descriptor.getValue s = getValue f s ∧
      f.descriptor.setProfileValue profile value s = setProfileValue profile f value s ∧
      f.descriptor.getProfileValue profile s = Scpi.getProfileValue profile f s :=
  ⟨rfl,rfl,rfl,rfl⟩

/-- A use of the accessors: the plain ones, or those of a profile on a field of prof0. -/
inductive Access
  | field (f : Descriptor)
  | profile (profile : Fin 8) (f : Descriptor) (declared : f.reg = .prof0)

namespace Access

def descriptor : Access → Descriptor
  | field f => f
  | profile _ f _ => f

def set (value : BitVec 64) (s : Dds) : Access → Option Dds
  | field f => some (f.setValue value s)
  | profile p f _ => f.setProfileValue p value s

def get (s : Dds) : Access → Option (BitVec 64)
  | field f => some (f.getValue s)
  | profile p f _ => f.getProfileValue p s

def target : Access → Option Reg
  | field f => some f.reg
  | profile p _ _ => getProfileReg p

def update (s : Dds) : Access → Option Dds
  | field f => some (updateReg f.reg s)
  | profile p _ _ => updateProfileReg p s

def SameField (a b : Access) : Prop :=
  a.target = b.target ∧ a.descriptor.bits = b.descriptor.bits ∧
    a.descriptor.offset = b.descriptor.offset

def Apart (a b : Access) : Prop :=
  a.target ≠ b.target ∨ ∀ i, a.descriptor.Inside i → ¬ b.descriptor.Inside i

end Access

/-- The switch and the pointer sum give the same register. -/
theorem getProfileReg_plus (p : Fin 8) :
    ∃ r, getProfileReg p = some r ∧ Reg.prof0.plus p = some r := by
  fin_cases p <;> exact ⟨_,rfl,rfl⟩

theorem Access.exists_target (a : Access) : ∃ r, a.target = some r ∧
    (∀ value s, a.set value s = some (a.descriptor.store value r s)) ∧
    (∀ s, a.get s = some (a.descriptor.load r s)) ∧ ∀ s, a.update s = some (updateReg r s) := by
  cases a with
  | field f => exact ⟨f.reg,rfl,fun _ _ => rfl,fun _ => rfl,fun _ => rfl⟩
  | profile p f declared =>
    obtain ⟨r,hr,hsum⟩ := getProfileReg_plus p
    have hplus : f.reg.plus p = some r := by rw [declared,hsum]
    refine ⟨r,hr,?_,?_,?_⟩
    · intro value s
      simp only [set,Descriptor.setProfileValue,hplus,Option.map_some,descriptor]
    · intro s
      simp only [get,Descriptor.getProfileValue,hplus,Option.map_some,descriptor]
    · intro s
      simp only [update,updateProfileReg,hsum,Option.map_some]

namespace Descriptor
variable (f g : Descriptor) (value : BitVec 64) (r : Reg) (s : Dds)

theorem store_self :
    (f.store value r s).regs r = setField (s.regs r) f.bits f.offset value := by
  simp only [store,Function.update_self]

theorem store_of_ne {r' : Reg} (h : r' ≠ r) : (f.store value r s).regs r' = s.regs r' := by
  simp only [store,Function.update_of_ne h]

theorem store_outside {i : Nat} (h : ¬ f.Inside i) :
    ((f.store value r s).regs r).getLsbD i = (s.regs r).getLsbD i := by
  rw [store_self]
  by_cases hi : i < 64
  · rw [getLsbD_setField _ value _ _ i f.bits_lt hi]
    exact if_neg h
  · rw [BitVec.getLsbD_of_ge _ i (by omega),BitVec.getLsbD_of_ge _ i (by omega)]

theorem toNat_load_store : (f.load r (f.store value r s)).toNat = value.toNat % 2^f.bits := by
  rw [load,store_self,getField_setField _ value _ _ f.bits_lt f.fits,
    toNat_and_fieldMask value f.bits_lt]

theorem store_store (later : BitVec 64) :
    f.store later r (f.store value r s) = f.store later r s := by
  simp only [store,Function.update_self,Function.update_idem,
    setField_setField _ value later f.bits f.offset f.bits_lt]

theorem store_comm (other : BitVec 64) (r' : Reg)
    (h : r ≠ r' ∨ ∀ i, f.Inside i → ¬ g.Inside i) :
    g.store other r' (f.store value r s) = f.store value r (g.store other r' s) := by
  by_cases hr : r = r'
  · have hapart := h.resolve_left (not_not.mpr hr)
    subst hr
    simp only [store,Function.update_self,Function.update_idem,
      setField_comm _ value other _ _ _ _ f.bits_lt g.bits_lt hapart]
  · simp only [store,Function.update_of_ne hr,Function.update_of_ne (Ne.symm hr)]
    rw [Function.update_comm hr]

end Descriptor

namespace Access

/-- What the write of a value through an access has to do, from a state to the next. -/
structure Written (a : Access) (value : BitVec 64) (s s' : Dds) (r : Reg) : Prop where
  reads_back : ∀ b : Access, a.SameField b →
    ∃ x, b.get s' = some x ∧ x.toNat = value.toNat % 2^a.descriptor.bits
  keeps_bits : ∀ i, ¬ a.descriptor.Inside i → (s'.regs r).getLsbD i = (s.regs r).getLsbD i
  keeps_registers : ∀ r', r' ≠ r → s'.regs r' = s.regs r'
  keeps_rest : s' = { s with regs := s'.regs }
  overridden : ∀ b : Access, a.SameField b → ∀ later, b.set later s' = b.set later s
  commutes : ∀ b : Access, a.Apart b → ∀ other,
    b.set other s' = (b.set other s).bind fun t => a.set value t

theorem SameField.store_eq {a b : Access} (h : a.SameField b) :
    a.descriptor.store = b.descriptor.store := by
  funext value r s
  rw [Descriptor.store,Descriptor.store,h.2.1,h.2.2]

theorem SameField.load_eq {a b : Access} (h : a.SameField b) :
    a.descriptor.load = b.descriptor.load := by
  funext r s
  rw [Descriptor.load,Descriptor.load,h.2.1,h.2.2]

/-- A write goes to the register that the switch over the profiles names and that is sent
for the access afterwards, and it obeys the laws of a field there. -/
theorem set_obeys_field_laws (a : Access) (value : BitVec 64) (s : Dds) :
    ∃ r s', a.target = some r ∧ (∀ t, a.update t = some (updateReg r t)) ∧
      a.set value s = some s' ∧ a.Written value s s' r := by
  obtain ⟨r,htarget,hset,hget,hupdate⟩ := a.exists_target
  refine ⟨r,a.descriptor.store value r s,htarget,hupdate,hset value s,?_⟩
  refine ⟨?_,?_,?_,rfl,?_,?_⟩
  · intro b hb
    obtain ⟨r',htarget',-,hget',-⟩ := b.exists_target
    have hr : r = r' := Option.some.inj (htarget.symm.trans (hb.1.trans htarget'))
    subst hr
    refine ⟨_,hget' _,?_⟩
    rw [← hb.load_eq]
    exact a.descriptor.toNat_load_store value r s
  · intro i hi
    exact a.descriptor.store_outside value r s hi
  · intro r' hr
    exact a.descriptor.store_of_ne value r s hr
  · intro b hb later
    obtain ⟨r',htarget',hset',-,-⟩ := b.exists_target
    have hr : r = r' := Option.some.inj (htarget.symm.trans (hb.1.trans htarget'))
    subst hr
    rw [hset',hset',← hb.store_eq,a.descriptor.store_store value r s later]
  · intro b hb other
    obtain ⟨r',htarget',hset',-,-⟩ := b.exists_target
    have hapart : r ≠ r' ∨ ∀ i, a.descriptor.Inside i → ¬ b.descriptor.Inside i := by
      refine hb.imp_left fun hne hr => hne ?_
      rw [htarget,htarget',hr]
    rw [hset',hset',Option.bind_some,hset,
      a.descriptor.store_comm b.descriptor value r s other r' hapart]

end Access

end Stm32Dds.Ad9910
