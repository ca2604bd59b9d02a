import Mathlib

set_option autoImplicit false

namespace Stm32Dds.Scanning

section
variable {α : Type}

def one (p : α → Bool) : List α → Nat
  | [] => 0
  | a :: _ => if p a then 1 else 0

def many (p : α → Bool) (s : List α) : Nat := (s.takeWhile p).length

def word (start more : α → Bool) : List α → Nat
  | [] => 0
  | a :: s => if start a then 1 + many more s else 0

theorem one_le (p : α → Bool) (s : List α) : one p s ≤ s.length := by
  cases s with
  | nil => rfl
  | cons a s =>
    simp only [one,List.length_cons]
    split <;> omega

theorem many_le (p : α → Bool) (s : List α) : many p s ≤ s.length := by
  have hp : s.takeWhile p <+: s := List.takeWhile_prefix p
  exact hp.length_le

theorem word_le (start more : α → Bool) (s : List α) : word start more s ≤ s.length := by
  cases s with
  | nil => rfl
  | cons a s =>
    have hmore := many_le more s
    simp only [word,List.length_cons]
    split <;> omega

theorem add_le_length {s : List α} {n m : Nat} (hn : n ≤ s.length) (hm : m ≤ (s.drop n).length) :
    n + m ≤ s.length := by
  rw [List.length_drop] at hm
  omega

theorem many_all {p : α → Bool} {x : List α} (hx : ∀ a ∈ x, p a = true) (y : List α) :
    many p (x ++ y) = x.length + many p y := by
  simp only [many,List.takeWhile_append_of_pos hx,List.length_append]

variable {c : α}

theorem one_stop {p : α → Bool} (hc : p c = false) (x w : List α) :
    one p (x ++ c :: w) = one p x := by
  cases x with
  | nil => simp [one,hc]
  | cons a x => rfl

theorem many_stop {p : α → Bool} (hc : p c = false) (x w : List α) :
    many p (x ++ c :: w) = many p x := by
  induction x with
  | nil => simp [many,hc]
  | cons a x ih =>
    simp only [many,List.cons_append,List.takeWhile_cons] at ih ⊢
    split
    · rw [List.length_cons,List.length_cons,ih]
    · rfl

theorem word_stop {start more : α → Bool} (hs : start c = false) (hm : more c = false)
    (x w : List α) : word start more (x ++ c :: w) = word start more x := by
  cases x with
  | nil => simp [word,hs]
  | cons a x => simp only [List.cons_append,word,many_stop hm]

theorem drop_stop {x : List α} {n : Nat} (h : n ≤ x.length) (w : List α) :
    (x ++ c :: w).drop n = x.drop n ++ c :: w := List.drop_append_of_le_length h

theorem drop_one_stop (p : α → Bool) (x w : List α) :
    (x ++ c :: w).drop (one p x) = x.drop (one p x) ++ c :: w := drop_stop (one_le p x) w

end

inductive Round (σ : Type)
  | again (acc : σ) (n : Nat)
  | done (acc : σ) (n : Nat)

def Round.moves {σ : Type} : Round σ → Nat
  | .again _ n | .done _ n => n

def Round.acc {σ : Type} : Round σ → σ
  | .again acc _ | .done acc _ => acc

section
variable {α σ : Type} (body : σ → List α → Round σ)

def loop : Nat → σ → List α → σ × Nat
  | 0, acc, _ => (acc,0)
  | fuel+1, acc, s =>
    match body acc s with
    | .done acc n => (acc,n)
    | .again acc n => ((loop fuel acc (s.drop n)).1,n + (loop fuel acc (s.drop n)).2)

variable {body}

theorem moves_le_loop (fuel : Nat) (acc : σ) (s : List α) :
    (body acc s).moves ≤ (loop body (fuel+1) acc s).2 := by
  rw [loop]
  cases body acc s with
  | done acc' n => exact le_rfl
  | again acc' n => exact Nat.le_add_right _ _

/-- The body moves on with every round and keeps to the input. -/
structure Steady (body : σ → List α → Round σ) (x : List α) : Prop where
  moves : ∀ acc, (body acc x).moves ≤ x.length
  again : ∀ acc acc' n, body acc x = .again acc' n → 0 < n

/-- Let the body read the same whether the input goes on behind c or ends there. Then
the loop does so too, and more fuel than the input is long makes no difference. -/
theorem loop_stop {P : List α → Prop} (hdrop : ∀ x n, P x → P (x.drop n)) {c : α}
    (hsame : ∀ x w acc, P x → body acc (x ++ c :: w) = body acc x)
    (hsteady : ∀ x, P x → Steady body x) {x : List α} (hx : P x) (w : List α) (acc : σ)
    {fuel fuel' : Nat} (hf : x.length < fuel) (hf' : x.length < fuel') :
    loop body fuel acc (x ++ c :: w) = loop body fuel' acc x ∧
      (loop body fuel' acc x).2 ≤ x.length := by
  induction fuel generalizing fuel' x acc with
  | zero => omega
  | succ fuel ih =>
    obtain ⟨fuel',rfl⟩ : ∃ k, fuel' = k+1 := ⟨fuel'-1,by omega⟩
    have hmoves := (hsteady x hx).moves acc
    rw [loop,loop,hsame x w acc hx]
    cases hb : body acc x with
    | done acc' n =>
      rw [hb] at hmoves
      exact ⟨rfl,hmoves⟩
    | again acc' n =>
      rw [hb] at hmoves
      have hle : n ≤ x.length := hmoves
      have hpos := (hsteady x hx).again acc acc' n hb
      have hlen : (x.drop n).length = x.length-n := List.length_drop
      obtain ⟨heq,hbound⟩ := @ih (x.drop n) (hdrop x n hx) acc' fuel' (by omega) (by omega)
      dsimp only
      rw [drop_stop hle,heq]
      exact ⟨rfl,add_le_length hle hbound⟩

theorem loop_counts {P : List α → Prop} (hdrop : ∀ x n, P x → P (x.drop n)) (count : σ → Nat)
    (hbody : ∀ x acc, P x → count (body acc x).acc ≤ count acc + (body acc x).moves)
    {x : List α} (hx : P x) (fuel : Nat) (acc : σ) :
    count (loop body fuel acc x).1 ≤ count acc + (loop body fuel acc x).2 := by
  induction fuel generalizing x acc with
  | zero => exact le_rfl
  | succ fuel ih =>
    have hround := hbody x acc hx
    rw [loop]
    cases hb : body acc x with
    | done acc' n =>
      rw [hb] at hround
      exact hround
    | again acc' n =>
      rw [hb] at hround
      have hnow : count acc' ≤ count acc + n := hround
      have hrest := ih (hdrop x n hx) acc'
      dsimp only
      omega

end

end Stm32Dds.Scanning
