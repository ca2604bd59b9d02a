import Mathlib

/-! Chains of reference-counted cells. A cell is released by counting it down; a cell
whose count is used up is given back and the release goes on with its successor. -/

set_option autoImplicit false

namespace Stm32Dds.Chains

structure Cell (α : Type) where
  ref : BitVec 16
  next : Option α
  deriving DecidableEq

abbrev Heap (α : Type) := α → Cell α

section
variable {α : Type} {h k : Heap α} {p : Option α} {l : List α}

/-- The cells from a pointer on, up to the one without a successor. -/
def Chain (h : Heap α) : Option α → List α → Prop
  | p, [] => p = none
  | p, a :: as => p = some a ∧ Chain h (h a).next as

inductive Reach (h : Heap α) : Option α → α → Prop
  | here (a : α) : Reach h (some a) a
  | next {a b : α} : Reach h (h a).next b → Reach h (some a) b

theorem Chain.nil (hc : Chain h none l) : l = [] := by
  cases l with
  | nil => rfl
  | cons a as => cases hc.1

theorem Chain.reach_iff (hc : Chain h p l) (b : α) : Reach h p b ↔ b ∈ l := by
  induction l generalizing p with
  | nil =>
    cases hc
    constructor
    · intro hr
      cases hr
    · intro hb
      cases hb
  | cons a as ih =>
    obtain ⟨rfl,hrest⟩ := hc
    rw [List.mem_cons,← ih hrest]
    constructor
    · intro hr
      cases hr with
      | here => exact Or.inl rfl
      | next hr => exact Or.inr hr
    · intro hb
      cases hb with
      | inl he =>
        subst he
        exact .here b
      | inr hr => exact .next hr

theorem Chain.congr (hc : Chain h p l) (hnext : ∀ a ∈ l, (k a).next = (h a).next) :
    Chain k p l := by
  induction l generalizing p with
  | nil => exact hc
  | cons a as ih =>
    refine ⟨hc.1,ih ?_ fun b hb => hnext b (by simp [hb])⟩
    rw [hnext a (by simp)]
    exact hc.2

variable [DecidableEq α]

def setRef (h : Heap α) (a : α) (r : BitVec 16) : Heap α :=
  Function.update h a { h a with ref := r }

def share (p : Option α) (h : Heap α) : Heap α :=
  match p with
  | none => h
  | some a => setRef h a ((h a).ref+1)

/-- One pointer less. The fuel bounds the length of the chain. -/
def release : Nat → Option α → Heap α → Heap α
  | 0, _, h => h
  | _, none, h => h
  | fuel+1, some a, h =>
    let counted := setRef h a ((h a).ref-1)
    if (counted a).ref = 0 then release fuel (h a).next counted else counted

@[simp] theorem setRef_self (a : α) (r : BitVec 16) : (setRef h a r a).ref = r := by
  simp [setRef]

theorem setRef_ne {a b : α} (r : BitVec 16) (hb : b ≠ a) : setRef h a r b = h b := by
  simp [setRef,hb]

@[simp] theorem setRef_next (a b : α) (r : BitVec 16) :
    (setRef h a r b).next = (h b).next := by
  by_cases hb : b = a
  · subst hb
    simp [setRef]
  · rw [setRef_ne r hb]

@[simp] theorem share_next (b : α) : (share p h b).next = (h b).next := by
  cases p with
  | none => rfl
  | some a => exact setRef_next a b _

@[simp] theorem release_none (fuel : Nat) : release fuel none h = h := by
  cases fuel <;> rfl

@[simp] theorem release_next (fuel : Nat) (b : α) :
    (release fuel p h b).next = (h b).next := by
  induction fuel generalizing p h with
  | zero => rfl
  | succ fuel ih =>
    cases p with
    | none => rfl
    | some a =>
      simp only [release]
      split
      · rw [ih,setRef_next]
      · exact setRef_next a b _

theorem release_last (fuel : Nat) {a : α} (ha : (h a).ref = 1) :
    release (fuel+1) (some a) h = release fuel (h a).next (setRef h a 0) := by
  have hzero : (h a).ref-1 = 0 := by rw [ha]; rfl
  rw [release,hzero]
  exact if_pos (setRef_self a 0)

theorem release_shared (fuel : Nat) {a : α} (ha : (h a).ref-1 ≠ 0) :
    release (fuel+1) (some a) h = setRef h a ((h a).ref-1) := by
  rw [release]
  exact if_neg (by rw [setRef_self]; exact ha)

theorem release_chain (fuel : Nat) (hfuel : l.length ≤ fuel) (hc : Chain h p l) (hn : l.Nodup)
    (hone : ∀ a ∈ l, (h a).ref = 1) (b : α) :
    (release fuel p h b).ref = if b ∈ l then 0 else (h b).ref := by
  induction l generalizing p h fuel with
  | nil =>
    cases hc
    simp
  | cons a as ih =>
    obtain ⟨rfl,hrest⟩ := hc
    obtain ⟨ha,hn⟩ := List.nodup_cons.mp hn
    cases fuel with
    | zero => simp at hfuel
    | succ fuel =>
      have hne : ∀ c ∈ as, c ≠ a := by
        intro c hc he
        exact ha (he ▸ hc)
      rw [release_last fuel (hone a (by simp)),ih fuel (by simpa using hfuel)
        (hrest.congr fun c _ => setRef_next a c 0) hn
        fun c hc => by rw [setRef_ne 0 (hne c hc)]; exact hone c (by simp [hc])]
      by_cases hb : b = a
      · subst hb
        simp
      · simp [hb,setRef_ne]

/-- The pointer that the successor of a cell has got is what the release of the cell takes
away from it, and the release stops there. -/
theorem release_handed (fuel : Nat) {a c : α} (hnext : (h a).next = some c) (hac : a ≠ c)
    (ha : (h a).ref = 1) (hc : (h c).ref ≠ 0) (b : α) :
    (release (fuel+2) (some a) (share (some c) h) b).ref = if b = a then 0 else (h b).ref := by
  have hhead : (setRef h c ((h c).ref+1) a).ref = 1 := by rw [setRef_ne _ hac,ha]
  have hcount : (setRef (setRef h c ((h c).ref+1)) a 0 c).ref-1 = (h c).ref := by
    rw [setRef_ne 0 hac.symm,setRef_self,BitVec.add_sub_cancel]
  rw [share,release_last (fuel+1) hhead,setRef_next,hnext,
    release_shared fuel (by rw [hcount]; exact hc),hcount]
  by_cases hbc : b = c
  · subst hbc
    rw [setRef_self,if_neg hac.symm]
  · rw [setRef_ne _ hbc]
    by_cases hba : b = a
    · subst hba
      rw [setRef_self,if_pos rfl]
    · rw [setRef_ne _ hba,setRef_ne _ hbc,if_neg hba]

theorem release_head (fuel : Nat) {a : α} {as : List α} (hfuel : (a :: as).length ≤ fuel)
    (hc : Chain h (some a) (a :: as)) (hn : (a :: as).Nodup)
    (hone : ∀ c ∈ a :: as, (h c).ref = 1) (b : α) :
    (release fuel (some a) (share (h a).next h) b).ref = if b = a then 0 else (h b).ref := by
  cases as with
  | nil =>
    have hnext : (h a).next = none := hc.2
    rw [hnext,share,release_chain fuel hfuel hc hn hone]
    simp
  | cons c cs =>
    have hnext : (h a).next = some c := hc.2.1
    have hused : (h c).ref ≠ 0 := by
      rw [hone c (by simp)]
      decide
    obtain ⟨fuel,rfl⟩ : ∃ f, fuel = f+2 := ⟨fuel-2,by simp at hfuel; omega⟩
    have hac := List.ne_of_not_mem_cons (List.nodup_cons.mp hn).1
    rw [hnext]
    exact release_handed fuel hnext hac (hone a (by simp)) hused b

/-- Moving on from a cell never gives back its successor, which may keep the pointer that
was added to it. -/
theorem release_front (fuel : Nat) {a : α} {as : List α} (hfuel : (a :: as).length ≤ fuel)
    (hc : Chain h (some a) (a :: as)) (hn : (a :: as).Nodup) (hused : ∀ c ∈ as, (h c).ref ≠ 0) {b : α}
    (hb : b ∈ as) :
    (release fuel (some a) (share (h a).next h) b).ref = (h b).ref ∨
      as.head? = some b ∧
        (release fuel (some a) (share (h a).next h) b).ref = (h b).ref+1 := by
  have hba : b ≠ a := by
    intro he
    exact (List.nodup_cons.mp hn).1 (he ▸ hb)
  cases as with
  | nil => cases hb
  | cons c cs =>
    have hac := List.ne_of_not_mem_cons (List.nodup_cons.mp hn).1
    have hnext : (h a).next = some c := hc.2.1
    obtain ⟨fuel,rfl⟩ : ∃ f, fuel = f+2 := ⟨fuel-2,by simp at hfuel; omega⟩
    rw [hnext]
    by_cases hlast : (h a).ref = 1
    · refine .inl ?_
      rw [release_handed fuel hnext hac hlast (hused c (by simp)),if_neg hba]
    · have hstop : (setRef h c ((h c).ref+1) a).ref-1 ≠ 0 := by
        rw [setRef_ne _ hac]
        intro hzero
        exact hlast (by rw [← BitVec.sub_add_cancel (h a).ref 1,hzero]; rfl)
      rw [share,release_shared (fuel+1) hstop,setRef_ne _ hba]
      by_cases hbc : b = c
      · subst hbc
        exact .inr ⟨rfl,setRef_self b _⟩
      · exact .inl (by rw [setRef_ne _ hbc])

theorem Chain.join {q : Option α} {a : α} {as ms : List α} (hc : Chain h p (as ++ [a]))
    (hq : Chain h q ms) (hn : (as ++ [a]).Nodup) (ha : a ∉ ms) :
    Chain (Function.update h a { h a with next := q }) p (as ++ a :: ms) := by
  induction as generalizing p with
  | nil =>
    refine ⟨hc.1,?_⟩
    rw [Function.update_self]
    refine hq.congr fun b hb => ?_
    have hba : b ≠ a := by
      intro he
      exact ha (he ▸ hb)
    rw [Function.update_of_ne hba]
  | cons b bs ih =>
    obtain ⟨hb,hn⟩ := List.nodup_cons.mp hn
    have hba : b ≠ a := by
      intro he
      exact hb (by simp [he])
    refine ⟨hc.1,?_⟩
    rw [Function.update_of_ne hba]
    exact ih hc.2 hn

end

end Stm32Dds.Chains
