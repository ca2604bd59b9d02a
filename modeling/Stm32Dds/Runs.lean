import Mathlib

/-! Runs of a deterministic machine: the actions of the outside world are a list,
and the machine takes one step for each of them. The second part is about actions
that arrive in batches, and work that is put off to the start of the next batch. -/

set_option autoImplicit false

namespace Stm32Dds.Runs

section
variable {S A : Type} (step : S → A → S)

def run (s : S) : List A → S
  | [] => s
  | a :: as => run (step s a) as

/-- Every step of the run meets the condition in the state it is taken in. -/
def Along (C : S → A → Prop) : S → List A → Prop
  | _, [] => True
  | s, a :: as => C s a ∧ Along C (step s a) as

/-- The property holds at the start of the run and after each of its steps. -/
def Throughout (P : S → Prop) (s : S) (as : List A) : Prop :=
  ∀ pre, pre <+: as → P (run step s pre)

@[simp] theorem run_append (s : S) (as bs : List A) :
    run step s (as ++ bs) = run step (run step s as) bs := by
  induction as generalizing s with
  | nil => rfl
  | cons a as ih => exact ih (step s a)

theorem throughout_cons {P : S → Prop} {s : S} {a : A} {as : List A} :
    Throughout step P s (a :: as) ↔ P s ∧ Throughout step P (step s a) as := by
  constructor
  · intro h
    refine ⟨h [] (by simp),?_⟩
    intro pre hpre
    exact h (a :: pre) (by simpa using hpre)
  · rintro ⟨h₀,h⟩ pre hpre
    cases pre with
    | nil => exact h₀
    | cons b pre =>
      obtain ⟨rfl,hp⟩ := List.cons_prefix_cons.mp hpre
      exact h pre hp

/-- An invariant that a good step keeps and a bad step breaks visibly: the property
holds along the run exactly when every step is good. -/
theorem throughout_iff_along {C : S → A → Prop} {I P : S → Prop}
    (himp : ∀ s, I s → P s)
    (hgood : ∀ s a, I s → C s a → I (step s a))
    (hbad : ∀ s a, I s → ¬ C s a → ¬ P (step s a))
    (s : S) (as : List A) (h₀ : I s) :
    Throughout step P s as ↔ Along step C s as := by
  induction as generalizing s with
  | nil =>
    refine ⟨fun _ => trivial,?_⟩
    intro _ pre hpre
    rw [List.prefix_nil.mp hpre]
    exact himp s h₀
  | cons a as ih =>
    rw [throughout_cons]
    by_cases hc : C s a
    · have hnext := ih (step s a) (hgood s a h₀ hc)
      rw [hnext]
      simp [Along,hc,himp s h₀]
    · have hnot := hbad s a h₀ hc
      constructor
      · rintro ⟨-,h⟩
        exact absurd (h [] (by simp)) hnot
      · intro h
        exact absurd h.1 hc

end

section Simulation
variable {S T A : Type} (step : S → A → S) (spec : T → A → T) (view : S → T)

/-- A machine shows what its specification says along a whole run exactly when
every single step does. -/
theorem follows_iff_along (s : S) (as : List A) :
    (∀ pre, pre <+: as → view (run step s pre) = run spec (view s) pre) ↔
      Along step (fun s a => view (step s a) = spec (view s) a) s as := by
  induction as generalizing s with
  | nil => simp [Along,run]
  | cons a as ih =>
    constructor
    · intro h
      have hfirst : view (step s a) = spec (view s) a := h [a] (by simp)
      refine ⟨hfirst,(ih (step s a)).mp ?_⟩
      intro pre hpre
      rw [hfirst]
      exact h (a :: pre) (by simpa using hpre)
    · intro ⟨hfirst,hrest⟩ pre hpre
      cases pre with
      | nil => rfl
      | cons b pre =>
        obtain ⟨rfl,hp⟩ := List.cons_prefix_cons.mp hpre
        rw [run,run,← hfirst]
        exact (ih (step s b)).mpr hrest pre hp

end Simulation

section Batches
variable {S A : Type} (act : S → A → S) (flush : S → S)

/-- What is pending is done first, then the actions of the batch are taken. -/
def batch (s : S) (as : List A) : S := as.foldl act (flush s)

def eager (s : S) (a : A) : S := flush (act s a)

def Batchable (as : List A) : Prop :=
  ∀ s, flush s = s → flush (as.foldl act s) = as.foldl (eager act flush) s

def Calm (a : A) : Prop := ∀ s, flush s = s → flush (act s a) = act s a

def Inert (a : A) : Prop := ∀ s, flush (act s a) = act (flush s) a

variable {act flush}

theorem foldl_calm {as : List A} (h : ∀ a ∈ as, Calm act flush a) {s : S} (hs : flush s = s) :
    as.foldl (eager act flush) s = as.foldl act s ∧ flush (as.foldl act s) = as.foldl act s := by
  induction as generalizing s with
  | nil => exact ⟨rfl,hs⟩
  | cons a as ih =>
    have hnow : flush (act s a) = act s a := h a (by simp) s hs
    have hrest := ih (fun b hb => h b (by simp [hb])) hnow
    simpa [eager,hnow] using hrest

theorem foldl_inert {as : List A} (h : ∀ a ∈ as, Inert act flush a) (s : S) :
    flush (as.foldl act s) = as.foldl act (flush s) := by
  induction as generalizing s with
  | nil => rfl
  | cons a as ih =>
    rw [List.foldl_cons,List.foldl_cons,ih (fun b hb => h b (by simp [hb])),h a (by simp) s]

theorem Inert.calm {a : A} (h : Inert act flush a) : Calm act flush a := by
  intro s hs
  rw [h s,hs]

theorem batchable_calm {as : List A} (h : ∀ a ∈ as, Calm act flush a) :
    Batchable act flush as := by
  intro s hs
  obtain ⟨heager,hflush⟩ := foldl_calm h hs
  rw [heager,hflush]

/-- One action may leave work behind if the rest of the batch does not mind. -/
theorem batchable_last (hidem : ∀ s, flush (flush s) = flush s) {pre post : List A} (a : A)
    (hpre : ∀ b ∈ pre, Calm act flush b) (hpost : ∀ b ∈ post, Inert act flush b) :
    Batchable act flush (pre ++ a :: post) := by
  intro s hs
  have hafter := foldl_calm (fun b hb => (hpost b hb).calm) (hidem (act (pre.foldl act s) a))
  rw [List.foldl_append,List.foldl_append,(foldl_calm hpre hs).1,List.foldl_cons,List.foldl_cons,
    foldl_inert hpost]
  exact hafter.1.symm

/-- Batches of this kind do what their actions do one at a time. -/
theorem flush_batches (hidem : ∀ s, flush (flush s) = flush s) (bs : List (List A))
    (h : ∀ b ∈ bs, Batchable act flush b) (s : S) :
    flush (bs.foldl (batch act flush) s) = bs.flatten.foldl (eager act flush) (flush s) := by
  induction bs generalizing s with
  | nil => rfl
  | cons b bs ih =>
    have hb := h b (by simp) (flush s) (hidem s)
    rw [List.foldl_cons,ih (fun c hc => h c (by simp [hc])),List.flatten_cons,List.foldl_append,
      batch,hb]

end Batches

end Stm32Dds.Runs
