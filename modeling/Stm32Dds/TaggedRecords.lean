import Stm32Dds.ByteMemory

set_option autoImplicit false

namespace Stm32Dds.Tagged
open Bytes

abbrev Rec := Byte × List Byte

def encode : List Rec → List Byte
  | [] => []
  | r :: rs => r.1 :: (r.2 ++ encode rs)

@[simp] theorem encode_append (rs ss : List Rec) : encode (rs ++ ss) = encode rs ++ encode ss := by
  induction rs with
  | nil => rfl
  | cons r rs ih => simp [encode,ih]

theorem length_le_encode (rs : List Rec) : rs.length ≤ (encode rs).length := by
  induction rs with
  | nil => simp
  | cons r rs ih =>
    simp only [encode,List.length_cons,List.length_append]
    omega

def Sized (size : Byte → Nat) (rs : List Rec) : Prop := ∀ r ∈ rs, r.2.length = size r.1

theorem Sized.head {size : Byte → Nat} {r : Rec} {rs : List Rec} (h : Sized size (r :: rs)) :
    r.2.length = size r.1 := h r (by simp)

theorem Sized.tail {size : Byte → Nat} {r : Rec} {rs : List Rec} (h : Sized size (r :: rs)) :
    Sized size rs := fun x hx => h x (by simp [hx])

/-- Walk from the front and report the tag of the record that ends exactly where
the bytes end. A walk that steps over the end reports nothing. -/
def lastTagFuel (size : Byte → Nat) : Nat → List Byte → Option Byte
  | 0, _ => none
  | _, [] => none
  | fuel+1, t :: bs =>
    if bs.length = size t then some t else lastTagFuel size fuel (bs.drop (size t))

def lastTag (size : Byte → Nat) (bs : List Byte) : Option Byte := lastTagFuel size bs.length bs

theorem lastTagFuel_eq (size : Byte → Nat) (fuel : Nat) (bs : List Byte) (h : bs.length ≤ fuel) :
    lastTagFuel size fuel bs = lastTag size bs := by
  induction fuel using Nat.strongRecOn generalizing bs with
  | ind fuel ih =>
    cases bs with
    | nil => cases fuel <;> rfl
    | cons t bs =>
      cases fuel with
      | zero => simp at h
      | succ fuel =>
        simp only [List.length_cons] at h
        have hd : (bs.drop (size t)).length ≤ bs.length := by simp
        have h₁ := ih fuel (by omega) (bs.drop (size t)) (by omega)
        by_cases hb : bs.length < fuel+1
        · have h₂ : lastTagFuel size bs.length (bs.drop (size t)) =
              lastTag size (bs.drop (size t)) := by
            exact ih bs.length hb (bs.drop (size t)) hd
          simp only [lastTag,List.length_cons,lastTagFuel,h₁]
          rw [h₂]
          rfl
        · omega

@[simp] theorem lastTag_nil (size : Byte → Nat) : lastTag size [] = none := rfl

theorem lastTag_cons (size : Byte → Nat) (t : Byte) (bs : List Byte) :
    lastTag size (t :: bs) =
      if bs.length = size t then some t else lastTag size (bs.drop (size t)) := by
  rw [lastTag,List.length_cons,lastTagFuel,lastTagFuel_eq _ _ _ (by simp)]

theorem lastTag_encode_append (size : Byte → Nat) (rs : List Rec) (tail : List Byte)
    (h : Sized size rs) (ht : tail ≠ []) :
    lastTag size (encode rs ++ tail) = lastTag size tail := by
  induction rs with
  | nil => rfl
  | cons r rs ih =>
    have hlen := List.length_pos_iff.mpr ht
    have hr := h.head
    have hne : (r.2 ++ (encode rs ++ tail)).length ≠ r.2.length := by
      simp only [List.length_append]
      omega
    simp only [encode,List.cons_append,lastTag_cons,← hr,List.append_assoc,if_neg hne,
      List.drop_left]
    exact ih h.tail

theorem lastTag_encode (size : Byte → Nat) (rs : List Rec) (h : Sized size rs) :
    lastTag size (encode rs) = rs.getLast?.map Prod.fst := by
  cases rs using List.reverseRec with
  | nil => rfl
  | append_singleton rs r =>
    have hr : r.2.length = size r.1 := h r (by simp)
    rw [encode_append,lastTag_encode_append _ _ _ (fun x hx => h x (by simp [hx])) (by simp [encode])]
    simp [encode,lastTag_cons,hr]

theorem lastTag_getLast (size : Byte → Nat) (bs : List Byte) (t : Byte)
    (h : lastTag size bs = some t) (hs : size t = 0) : bs.getLast? = some t := by
  induction hn : bs.length using Nat.strongRecOn generalizing bs with
  | ind n ih =>
    cases bs with
    | nil => simp at h
    | cons x bs =>
      rw [lastTag_cons] at h
      split at h
      · rename_i hx
        cases h
        rw [hs] at hx
        simp [List.length_eq_zero_iff.mp hx]
      · simp only [List.length_cons] at hn
        have hlast := ih (bs.drop (size x)).length (by simp; omega) (bs.drop (size x)) h rfl
        rw [List.getLast?_drop] at hlast
        split at hlast
        · simp at hlast
        · cases bs with
          | nil => simp at hlast
          | cons y bs => simpa using hlast

def walk {σ : Type} (size : Byte → Nat) (step : Rec → σ → σ) (m : Memory) (stop : Int) :
    Nat → Int → σ → Option (Int × σ)
  | 0, cur, s => if cur < stop then none else some (cur,s)
  | fuel+1, cur, s =>
    if cur < stop then
      walk size step m stop fuel (cur+1+size (m cur))
        (step (m cur,Memory.load m (cur+1) (size (m cur))) s)
    else some (cur,s)

section
variable {σ : Type} {size : Byte → Nat} {m : Memory} {stop : Int}

theorem walk_ge (step : Rec → σ → σ) (fuel : Nat) (cur fin : Int) (s out : σ)
    (h : walk size step m stop fuel cur s = some (fin,out)) : cur ≤ fin := by
  induction fuel generalizing cur s with
  | zero =>
    simp only [walk] at h
    split at h
    · cases h
    · cases h
      omega
  | succ fuel ih =>
    simp only [walk] at h
    split at h
    · have := ih _ _ h
      omega
    · cases h
      omega

theorem walk_encode (step : Rec → σ → σ) (rs : List Rec) (fuel : Nat) (cur : Int) (s : σ)
    (hs : Sized size rs) (hcur : cur+(encode rs).length = stop)
    (hm : Memory.load m cur (encode rs).length = encode rs) (hf : rs.length ≤ fuel) :
    walk size step m stop fuel cur s = some (stop,rs.foldl (fun s r => step r s) s) := by
  induction rs generalizing fuel cur s with
  | nil =>
    have he : cur = stop := by simpa [encode] using hcur
    cases fuel <;> simp [walk,he]
  | cons r rs ih =>
    have hr := hs.head
    simp only [encode,List.length_cons,List.length_append] at hcur hm
    cases fuel with
    | zero => simp at hf
    | succ fuel =>
      rw [Memory.load,List.cons.injEq] at hm
      obtain ⟨htag,hrest⟩ := hm
      rw [Memory.load_add] at hrest
      obtain ⟨hpay,htail⟩ := List.append_inj hrest (by simp)
      have hc : cur < stop := by omega
      simp only [walk,hc,if_true,htag,← hr,hpay,List.foldl_cons]
      refine ih fuel _ _ hs.tail (by push_cast at hcur; omega) ?_ (by simpa using hf)
      simpa [hr] using htail

theorem walk_sound (fuel : Nat) (cur : Int) (acc out : List Rec) (hcur : cur ≤ stop)
    (h : walk size (fun r rs => rs ++ [r]) m stop fuel cur acc = some (stop,out)) :
    ∃ rs, out = acc ++ rs ∧ Sized size rs ∧ Memory.load m cur (stop-cur).toNat = encode rs := by
  induction fuel generalizing cur acc with
  | zero =>
    simp only [walk] at h
    split at h
    · cases h
    · cases h
      exact ⟨[],by simp,by simp [Sized],by simp [Memory.load,encode]⟩
  | succ fuel ih =>
    simp only [walk] at h
    split at h
    · rename_i hc
      have hge := walk_ge _ _ _ _ _ _ h
      obtain ⟨rs,hout,hsized,hload⟩ := ih _ _ hge h
      refine ⟨(m cur,Memory.load m (cur+1) (size (m cur))) :: rs,by simp [hout],?_,?_⟩
      · intro r hr
        rcases List.mem_cons.mp hr with rfl | hr
        · simp
        · exact hsized r hr
      · have hn : (stop-cur).toNat =
            (size (m cur)+(stop-(cur+1+size (m cur))).toNat)+1 := by omega
        rw [hn,Memory.load,Memory.load_add,hload]
        rfl
    · cases h
      exact ⟨[],by simp,by simp [Sized],by simp [Memory.load,encode]⟩

end

end Stm32Dds.Tagged
