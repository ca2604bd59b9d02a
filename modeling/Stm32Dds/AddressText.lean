import Stm32Dds.NetworkSettings

set_option autoImplicit false

namespace Stm32Dds.Network
open Bytes ConfigStore DecimalText Scpi

/-- Four decimal numbers up to 255 with single dots between them and nothing else. -/
def IsDottedQuad (s : List Char) (q : Quad) : Prop :=
  ∃ ds : List (List Char), s = joinDots ds ∧ (∀ d ∈ ds, d ≠ [] ∧ ∀ c ∈ d, c.isDigit = true) ∧
    ds.map value = List.ofFn fun i => (q i).toNat

theorem IsDottedQuad.numerals {s : List Char} {q : Quad} (h : IsDottedQuad s q) :
    ∃ ds, s = joinDots ds ∧ (∀ d ∈ ds, Numeral d) ∧
      ds.map value = List.ofFn fun i => (q i).toNat := by
  obtain ⟨ds,hs,hd,hv⟩ := h
  refine ⟨ds,hs,?_,hv⟩
  intro d hmem
  have hoctet : value d ∈ List.ofFn fun i => (q i).toNat := hv ▸ List.mem_map_of_mem hmem
  obtain ⟨i,hi⟩ := List.mem_ofFn.mp hoctet
  have hlt := (q i).isLt
  exact ⟨(hd d hmem).1,(hd d hmem).2,by omega⟩

theorem IsDottedQuad.scanned {s : List Char} {q : Quad} (h : IsDottedQuad s q) :
    scanDotted 4 s = List.ofFn fun i => (q i).toNat := by
  obtain ⟨ds,rfl,hd,hv⟩ := h.numerals
  have hlen : ds.length = 4 := by simpa using congrArg List.length hv
  have hscan := scanDotted_joinDots ds hd
  rwa [hlen,hv] at hscan

theorem IsDottedQuad.chars {s : List Char} {q : Quad} (h : IsDottedQuad s q) {c : Char}
    (hc : c ∈ s) : c = '.' ∨ c.isDigit = true := by
  obtain ⟨ds,rfl,hd,_⟩ := h
  obtain hdot | ⟨d,hmem,hcd⟩ := mem_joinDots hc
  · exact .inl hdot
  · exact .inr ((hd d hmem).2 c hcd)

/-- A text that four conversions can be made of, up to its end or its first NUL. -/
structure Scannable (s : List Char) : Prop where
  short : s.length ≤ 15
  conversions : ∃ ts tail, ts.length = 4 ∧ (∀ t ∈ ts, Convertible t) ∧
    s.takeWhile (fun c => c.toNat ≠ 0) = joinDots ts ++ tail

theorem accepts_iff_scannable (s : List Char) (target : Quad) :
    (scpiParamIpAddress (.ok s) target).result = .ok ↔ Scannable s := by
  have hscan := scanDotted_length_iff 4 (s.takeWhile fun c => c.toNat ≠ 0)
  have hoctets : (scanQuad (s.takeWhile fun c => c.toNat ≠ 0)).length =
      (scanDotted 4 (s.takeWhile fun c => c.toNat ≠ 0)).length := List.length_map _
  simp only [scpiParamIpAddress]
  split
  · rename_i hlong
    exact ⟨fun h => absurd h ScpiResult.noConfusion,fun h => absurd h.short (by omega)⟩
  · rename_i hshort
    split
    · rename_i hcount
      rw [hoctets] at hcount
      exact ⟨fun h => absurd h ScpiResult.noConfusion,fun h => absurd (hscan.mpr h.conversions) hcount⟩
    · rename_i hcount
      rw [hoctets] at hcount
      exact ⟨fun _ => ⟨by omega,hscan.mp (by omega)⟩,fun _ => rfl⟩

theorem scpiParamIpAddress_quad {s : List Char} {q : Quad} (h : IsDottedQuad s q)
    (hshort : s.length ≤ 15) (target : Quad) : scpiParamIpAddress (.ok s) target = ⟨.ok,[],q⟩ := by
  obtain ⟨ds,rfl,hd,hv⟩ := h.numerals
  exact scpiParamIpAddress_dotted ⟨ds,q,hd,hv,hshort⟩ target

structure ParsesExactly (s : List Char) (target : Quad) : Prop where
  accepted : (scpiParamIpAddress (.ok s) target).result = .ok ↔ ∃ q, IsDottedQuad s q
  read : ∀ q, (scpiParamIpAddress (.ok s) target).result = .ok → IsDottedQuad s q →
    (scpiParamIpAddress (.ok s) target).target = q

theorem parsesExactly_iff (s : List Char) (target : Quad) :
    ParsesExactly s target ↔
      (∃ q, IsDottedQuad s q) ∧ s.length ≤ 15 ∨ (¬ ∃ q, IsDottedQuad s q) ∧ ¬ Scannable s := by
  by_cases hquad : ∃ q, IsDottedQuad s q
  · have hiff : ParsesExactly s target ↔ s.length ≤ 15 := by
      constructor
      · intro h
        exact ((accepts_iff_scannable s target).mp (h.accepted.mpr hquad)).short
      · intro hshort
        refine ⟨⟨fun _ => hquad,?_⟩,?_⟩
        · rintro ⟨q,hq⟩
          rw [scpiParamIpAddress_quad hq hshort]
        · intro q _ hq
          rw [scpiParamIpAddress_quad hq hshort]
    simp only [hiff,hquad,true_and,not_true_eq_false,false_and,or_false]
  · have hiff : ParsesExactly s target ↔ ¬ Scannable s := by
      constructor
      · intro h hscan
        exact hquad (h.accepted.mp ((accepts_iff_scannable s target).mpr hscan))
      · intro hscan
        refine ⟨⟨?_,fun h => absurd h hquad⟩,fun q _ hq => absurd ⟨q,hq⟩ hquad⟩
        intro hok
        exact absurd ((accepts_iff_scannable s target).mp hok) hscan
    simp only [hiff,hquad,false_and,not_false_eq_true,true_and,false_or]

theorem ip_address_text_exact_iff (s : List Char) (target : Quad) :
    (∀ q, scpiParamIpAddress (.ok (scpiPrintIpAddress q)) target = ⟨.ok,[],q⟩) ∧
    (ParsesExactly s target ↔
      (∃ q, IsDottedQuad s q) ∧ s.length ≤ 15 ∨ (¬ ∃ q, IsDottedQuad s q) ∧ ¬ Scannable s) :=
  ⟨fun q => scpiParamIpAddress_dotted (DottedQuad.printed q) target,parsesExactly_iff s target⟩

/-- A number that is too big loses its high bits, and a text behind the address is not
looked at. -/
theorem overlarge_octet_accepted :
    scpiParamIpAddress (.ok "1.2.3.256".toList) (fun _ => 9) = ⟨.ok,[],![1,2,3,0]⟩ ∧
    ¬ ParsesExactly "1.2.3.256".toList (fun _ => 9) ∧
    scpiParamIpAddress (.ok "1.2.3.4x".toList) (fun _ => 9) = ⟨.ok,[],![1,2,3,4]⟩ ∧
    ¬ ParsesExactly "1.2.3.4x".toList (fun _ => 9) := by
  have hread (octets : List Byte) (q : Quad) (h : octets = List.ofFn q) :
      overwrite (fun _ => 9) octets = q := by rw [h,overwrite_ofFn]
  have hbig : scpiParamIpAddress (.ok "1.2.3.256".toList) (fun _ => 9) = ⟨.ok,[],![1,2,3,0]⟩ :=
    congrArg (Parsed.mk .ok []) (hread _ _ (by decide))
  have htail : scpiParamIpAddress (.ok "1.2.3.4x".toList) (fun _ => 9) = ⟨.ok,[],![1,2,3,4]⟩ :=
    congrArg (Parsed.mk .ok []) (hread _ _ (by decide))
  refine ⟨hbig,?_,htail,?_⟩
  · intro h
    obtain ⟨q,hq⟩ := h.accepted.mp (congrArg Parsed.result hbig)
    have hlast : 256 ∈ List.ofFn fun i => (q i).toNat := by
      rw [← hq.scanned]
      decide
    obtain ⟨i,hi⟩ := List.mem_ofFn.mp hlast
    have hlt := (q i).isLt
    omega
  · intro h
    obtain ⟨q,hq⟩ := h.accepted.mp (congrArg Parsed.result htail)
    exact absurd (hq.chars (c := 'x') (by decide)) (by decide)

end Stm32Dds.Network
