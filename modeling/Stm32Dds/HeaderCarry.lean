import Stm32Dds.HeaderMatching

set_option autoImplicit false

namespace Stm32Dds.Scpi

/-- A header that composeCompoundCommand leaves as it is, whatever is in front of it. -/
def Absolute (header : List Char) : Prop := header.head? = some ':' ∨ header.head? = some '*'

instance (header : List Char) : Decidable (Absolute header) := inferInstanceAs (Decidable (_ ∨ _))

def Listed (header : List Char) : Prop := ∃ e ∈ scpiCommands, Spells e.1 header

theorem listed_iff {header : List Char} : Listed header ↔ (findCommandHeader header).isSome := by
  rw [findCommandHeader,Option.isSome_map,List.find?_isSome]
  constructor
  · rintro ⟨e,he,h⟩
    exact ⟨e,he,(entry_matches he header).mpr h⟩
  · rintro ⟨e,he,h⟩
    exact ⟨e,he,(entry_matches he header).mp h⟩

instance (header : List Char) : Decidable (Listed header) := decidable_of_iff _ listed_iff.symm

def UnitHeader.Skipped (u : UnitHeader) : Prop := u.invalid = true ∨ u.header = []

instance (u : UnitHeader) : Decidable u.Skipped := inferInstanceAs (Decidable (_ ∨ _))

/-- No header of the line is completed before one that is absolute and listed, if any. -/
def Opens : List UnitHeader → Prop
  | [] => True
  | u :: us => if u.Skipped then Opens us else Absolute u.header ∧ (Listed u.header ∨ Opens us)

instance decidableOpens : (us : List UnitHeader) → Decidable (Opens us)
  | [] => isTrue trivial
  | u :: us =>
    have := decidableOpens us
    inferInstanceAs (Decidable (if u.Skipped then _ else _))

/-- Whether headers behind the unit can be completed with a path. -/
def carriesPath (carried : Bool) (u : UnitHeader) : Bool :=
  if u.Skipped then carried
  else if Absolute u.header ∧ Listed u.header then u.header.contains ':'
  else carried || u.header.contains ':'

/-- A line behind which a path is carried is followed by one that opens with an absolute
header. -/
def Apart : Bool → List (List UnitHeader) → Prop
  | _, [] => True
  | carried, l :: ls => (carried = false ∨ Opens l) ∧ Apart (l.foldl carriesPath carried) ls

instance decidableApart : (carried : Bool) → (ls : List (List UnitHeader)) →
    Decidable (Apart carried ls)
  | _, [] => isTrue trivial
  | carried, l :: ls =>
    have := decidableApart (l.foldl carriesPath carried) ls
    inferInstanceAs (Decidable ((carried = false ∨ Opens l) ∧ _))

/-- Behind both, the headers of the units are completed to the same texts. -/
def SameHeaders (p q : Previous) : List UnitHeader → Prop
  | [] => True
  | u :: us =>
    (¬u.Skipped → composeCompoundCommand p.header u.header =
      composeCompoundCommand q.header u.header) ∧ SameHeaders (p.behind u) (q.behind u) us

section
variable {p q : Previous} {u : UnitHeader} {prev header : List Char}

theorem compose_absolute (h : Absolute header) : composeCompoundCommand prev header = header :=
  if_pos (.inr (h.elim (fun h => .inr (.inl h)) .inl))

theorem headerPath_colonless (h : ':' ∉ prev) : headerPath prev = [] := by
  have hall : prev.reverse.dropWhile (fun c => c != ':') = [] := by
    refine List.dropWhile_eq_nil_iff.mpr fun c hc => ?_
    rw [bne_iff_ne]
    rintro rfl
    exact h (List.mem_reverse.mp hc)
  rw [headerPath,hall,List.reverse_nil]

theorem compose_colonless (h : ':' ∉ prev) : composeCompoundCommand prev header = header := by
  rw [composeCompoundCommand,headerPath_colonless h,List.nil_append,ite_self]

theorem shift_zero (h : composeCompoundCommand p.header header = header) : p.shift header = 0 := by
  rw [Previous.shift,h,Nat.sub_self]

theorem behind_skipped (h : u.Skipped) : (p.behind u).header = p.header := by
  rw [Previous.behind,if_pos (show u.invalid = true ∨ u.header = [] from h)]

theorem behind_listed (hskip : ¬u.Skipped)
    (h : composeCompoundCommand p.header u.header = u.header) (hlisted : Listed u.header) :
    p.behind u = ⟨u.header,u.size-u.headerAt⟩ := by
  have hfound := listed_iff.mp hlisted
  rw [Previous.behind,if_neg (show ¬(u.invalid = true ∨ u.header = []) from hskip)]
  simp only [h,hfound,if_true,shift_zero h,Nat.zero_add]

/-- What is left of cmd_prev behind an undefined header are characters of cmd_prev. -/
theorem behind_undefined (hskip : ¬u.Skipped)
    (h : (findCommandHeader (composeCompoundCommand p.header u.header)).isSome = false) :
    (p.behind u).header ⊆ p.header := by
  rw [Previous.behind,if_neg (show ¬(u.invalid = true ∨ u.header = []) from hskip)]
  simp only [h,Bool.false_eq_true,if_false]
  exact List.append_subset.mpr ⟨List.take_subset _ _,
    fun c hc => List.mem_of_mem_take (List.mem_of_mem_take hc)⟩

theorem behind_colonless (hp : ':' ∉ p.header) (hu : ':' ∉ u.header) :
    ':' ∉ (p.behind u).header := by
  by_cases hskip : u.Skipped
  · rwa [behind_skipped hskip]
  · have hcompose : composeCompoundCommand p.header u.header = u.header := compose_colonless hp
    by_cases hlisted : Listed u.header
    · rwa [behind_listed hskip hcompose hlisted]
    · refine fun hmem => hp (behind_undefined hskip ?_ hmem)
      rw [hcompose]
      simpa [listed_iff] using hlisted

theorem carriesPath_behind {carried : Bool} (hp : carried = false → ':' ∉ p.header) :
    carriesPath carried u = false → ':' ∉ (p.behind u).header := by
  intro h
  by_cases hskip : u.Skipped
  · rw [carriesPath,if_pos hskip] at h
    rw [behind_skipped hskip]
    exact hp h
  · rw [carriesPath,if_neg hskip] at h
    split at h
    next hlisted =>
      rw [behind_listed hskip (compose_absolute hlisted.1) hlisted.2]
      simpa using h
    next =>
      rw [Bool.or_eq_false_iff] at h
      exact behind_colonless (hp h.1) (by simpa using h.2)

theorem sameHeaders_refl (p : Previous) (us : List UnitHeader) : SameHeaders p p us := by
  induction us generalizing p with
  | nil => trivial
  | cons u us ih => exact ⟨fun _ => rfl,ih _⟩

theorem sameHeaders_colonless (hp : ':' ∉ p.header) (hq : ':' ∉ q.header) (us : List UnitHeader) :
    SameHeaders p q us := by
  induction us generalizing p q with
  | nil => trivial
  | cons u us ih =>
    have hpu : composeCompoundCommand p.header u.header = u.header := compose_colonless hp
    have hqu : composeCompoundCommand q.header u.header = u.header := compose_colonless hq
    refine ⟨fun _ => hpu.trans hqu.symm,?_⟩
    by_cases hskip : u.Skipped
    · exact ih (by rwa [behind_skipped hskip]) (by rwa [behind_skipped hskip])
    · by_cases hlisted : Listed u.header
      · rw [behind_listed hskip hpu hlisted,behind_listed hskip hqu hlisted]
        exact sameHeaders_refl _ _
      · -- cmd_prev stays, and there is still no path in it
        have hnone : (findCommandHeader u.header).isSome = false := by
          simpa [listed_iff] using hlisted
        refine ih (fun h => hp (behind_undefined hskip ?_ h))
          fun h => hq (behind_undefined hskip ?_ h)
        · rwa [hpu]
        · rwa [hqu]

theorem sameHeaders_opens (p q : Previous) {us : List UnitHeader} (h : Opens us) :
    SameHeaders p q us := by
  induction us generalizing p q with
  | nil => trivial
  | cons u us ih =>
    rw [Opens] at h
    split at h
    next hskip => exact ⟨fun hno => absurd hskip hno,ih _ _ h⟩
    next hskip =>
      obtain ⟨habsolute,hlisted | hrest⟩ := h
      · refine ⟨fun _ => ?_,?_⟩
        · rw [compose_absolute habsolute,compose_absolute habsolute]
        · rw [behind_listed hskip (compose_absolute habsolute) hlisted,
            behind_listed hskip (compose_absolute habsolute) hlisted]
          exact sameHeaders_refl _ _
      · exact ⟨fun _ => by rw [compose_absolute habsolute,compose_absolute habsolute],ih _ _ hrest⟩

theorem sameHeaders_alone {carried : Bool} {l : List UnitHeader}
    (hp : carried = false → ':' ∉ p.header) (h : carried = false ∨ Opens l) :
    SameHeaders p .none l := by
  obtain hcarried | hopens := h
  · exact sameHeaders_colonless (hp hcarried) (by simp [Previous.none]) l
  · exact sameHeaders_opens _ _ hopens

theorem foldl_carriesPath {carried : Bool} (hp : carried = false → ':' ∉ p.header)
    (l : List UnitHeader) :
    l.foldl carriesPath carried = false → ':' ∉ (l.foldl Previous.behind p).header := by
  induction l generalizing p carried with
  | nil => exact hp
  | cons u l ih => exact ih (carriesPath_behind hp)

end

end Stm32Dds.Scpi
