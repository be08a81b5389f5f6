import Mathlib
import Orthant.Proofs.Polytope.Interior

/-! # Containment and the range of words

Facets are turned to the points by products that are words, and points are tested by such products.
An inequality fails at a point of the polytope exactly if their product is beyond the greatest word.
The test of a point accepts too much only through such products, and too little only through those
below the least word.
-/

namespace Orthant

theorem natAbs_dotInt_le {v : List ℤ} {b : ℕ} (hv : ∀ x ∈ v, x.natAbs ≤ b) (u : List ℤ) :
    (dotInt u v).natAbs ≤ (u.map Int.natAbs).sum * b := by
  induction u generalizing v with
  | nil => simp [dotInt]
  | cons x u ih =>
    cases v with
    | nil => simp [dotInt]
    | cons y v =>
      obtain ⟨hy, hv⟩ := List.forall_mem_cons.mp hv
      calc (x * y + dotInt u v).natAbs
          ≤ (x * y).natAbs + (dotInt u v).natAbs := Int.natAbs_add_le _ _
        _ ≤ x.natAbs * b + (u.map Int.natAbs).sum * b := by
          rw [Int.natAbs_mul]
          exact Nat.add_le_add (Nat.mul_le_mul_left _ hy) (ih hv)
        _ = ((x :: u).map Int.natAbs).sum * b := by rw [List.map_cons, List.sum_cons, Nat.add_mul]

theorem isWord_dotInt {u v : List ℤ} {b : ℕ} (hv : ∀ x ∈ v, x.natAbs ≤ b)
    (hb : (((u.map Int.natAbs).sum * b : ℕ) : ℤ) ≤ wordMax) : isWord (dotInt u v) = true := by
  have hle := natAbs_dotInt_le hv u
  rw [isWord_iff]
  simp only [wordMin, wordMax] at hb ⊢
  omega

namespace Facet

variable {f : Facet} {q : List ℤ} (hoff : isWord f.offset = true)

include hoff

theorem lt_of_dotWord_lt (hmax : dotInt f.normal q ≤ wordMax) (h : dotWord f.normal q < f.offset) :
    dotInt f.normal q < f.offset := by
  rcases le_or_gt wordMin (dotInt f.normal q) with hmin | hmin
  · rwa [dotWord, wrap_of_isWord (isWord_iff.mpr ⟨hmin, hmax⟩)] at h
  · exact hmin.trans_le (isWord_iff.mp hoff).1

theorem dotWord_lt_of_lt (hmin : wordMin ≤ dotInt f.normal q) (h : dotInt f.normal q < f.offset) :
    dotWord f.normal q < f.offset := by
  have hmax := h.le.trans (isWord_iff.mp hoff).2
  rwa [dotWord, wrap_of_isWord (isWord_iff.mpr ⟨hmin, hmax⟩)]

end Facet

namespace Polytope

variable {p : Polytope} {program : FacetProgram} {fs : List Facet}

/-- A facet fails at a point of the polytope only through a product beyond the greatest word. -/
theorem dotInt_le_offset_iff (h : p.facets program = .ok fs)
    (hlen : ∀ q ∈ p.points, q.length = p.ambient) {f : Facet} (hf : f ∈ fs) {q : List ℤ}
    (hq : q ∈ p.points) : dotInt f.normal q ≤ f.offset ↔ dotInt f.normal q ≤ wordMax := by
  obtain ⟨hlo, hhi⟩ := isWord_iff.mp (Facet.stored_iff.mp (stored_of_mem_facets h hf)).2
  constructor
  · intro hle
    exact hle.trans hhi
  · intro hmax
    rcases le_or_gt wordMin (dotInt f.normal q) with hmin | hmin
    · exact dotInt_le_of_mem_facets h hlen hf hq (isWord_iff.mpr ⟨hmin, hmax⟩)
    · exact hmin.le.trans hlo

theorem strictlyInside_iff_dotWord {q : List ℤ} :
    strictlyInside fs q = true ↔ ∀ f ∈ fs, dotWord f.normal q < f.offset := by
  simp [strictlyInside]

/-- How far containment is exact: the facets at the points of the polytope, the test of any point
from either side, and both of them for coordinates that are small beside the normals. -/
theorem containsStrictly_exact (h : p.facets program = .ok fs)
    (hlen : ∀ q ∈ p.points, q.length = p.ambient) :
    (∀ f ∈ fs, ∀ q ∈ p.points, dotInt f.normal q ≤ f.offset ↔ dotInt f.normal q ≤ wordMax) ∧
    (∀ q : List ℤ, q.length = p.ambient → (∀ x ∈ q, isWord x = true) →
      ∃ inside, p.containsStrictly (p.facets program) (.list (q.map .ofInt)) = .ok inside ∧
        ((∀ f ∈ fs, dotInt f.normal q ≤ wordMax) → inside = true →
          ∀ f ∈ fs, dotInt f.normal q < f.offset) ∧
        ((∀ f ∈ fs, wordMin ≤ dotInt f.normal q) → (∀ f ∈ fs, dotInt f.normal q < f.offset) →
          inside = true)) ∧
    ∀ b : ℕ, (∀ f ∈ fs, (((f.normal.map Int.natAbs).sum * b : ℕ) : ℤ) ≤ wordMax) →
      (∀ f ∈ fs, ∀ q ∈ p.points, (∀ x ∈ q, x.natAbs ≤ b) → dotInt f.normal q ≤ f.offset) ∧
      ∀ q : List ℤ, q.length = p.ambient → (∀ x ∈ q, isWord x = true ∧ x.natAbs ≤ b) →
        p.containsStrictly (p.facets program) (.list (q.map .ofInt)) =
          .ok (decide (∀ f ∈ fs, dotInt f.normal q < f.offset)) := by
  have hoff : ∀ f ∈ fs, isWord f.offset = true := fun f hf =>
    (Facet.stored_iff.mp (stored_of_mem_facets h hf)).2
  refine ⟨fun f hf q hq => dotInt_le_offset_iff h hlen hf hq, ?_, ?_⟩
  · intro q hq hword
    use strictlyInside fs q, h ▸ containsStrictly_point hq hword
    rw [strictlyInside_iff_dotWord]
    constructor
    · exact fun hmax hin f hf => Facet.lt_of_dotWord_lt (hoff f hf) (hmax f hf) (hin f hf)
    · exact fun hmin hin f hf => Facet.dotWord_lt_of_lt (hoff f hf) (hmin f hf) (hin f hf)
  · intro b hb
    constructor
    · intro f hf q hq hsmall
      exact dotInt_le_of_mem_facets h hlen hf hq (isWord_dotInt hsmall (hb f hf))
    · intro q hq hsmall
      rw [h, containsStrictly_point hq fun x hx => (hsmall x hx).1]
      congr 1
      rw [Bool.eq_iff_iff, decide_eq_true_iff, strictlyInside_iff_dotWord]
      refine forall₂_congr fun f hf => ?_
      rw [dotWord, wrap_of_isWord (isWord_dotInt (fun x hx => (hsmall x hx).2) (hb f hf))]

def smallTriangle : List (List ℤ) := [[0, 0], [3, 0], [0, 3]]

theorem facets_smallTriangle : (ofPoints 2 smallTriangle).facets =
    .ok [⟨[0, -1], 0⟩, ⟨[-1, 0], 0⟩, ⟨[1, 1], 3⟩] := by cbv

theorem containsStrictly_exact_smallTriangle :
    (ofPoints 2 smallTriangle).containsStrictly (ofPoints 2 smallTriangle).facets
      (.list ([1000000, -1000000].map .ofInt)) = .ok false := by
  obtain ⟨-, -, hsmall⟩ := containsStrictly_exact facets_smallTriangle (by decide)
  exact (hsmall 1000000 (by decide)).2 [1000000, -1000000] rfl (by decide)

/-- A triangle with sides so long that a product with a corner is `2 ^ 64 - 2 ^ 32`. -/
def wedge : List (List ℤ) :=
  [[0, 0], [2147483648, 4294967295], [-2147483648, 4294967295]]

theorem facets_wedge : (ofPoints 2 wedge).facets =
    .ok [⟨[-4294967295, 2147483648], 0⟩, ⟨[4294967295, 2147483648], 0⟩, ⟨[0, 1], 4294967295⟩] := by
  cbv

/-- A facet with a point of the polytope beyond it, and a point far from a segment that is accepted
as one inside. -/
theorem containsStrictly_wraps :
    (∃ fs, (ofPoints 2 wedge).facets = .ok fs ∧
      ∃ f ∈ fs, ∃ q ∈ wedge, f.offset < dotInt f.normal q) ∧
    ∃ fs, (ofPoints 1 [[0], [2]]).facets = .ok fs ∧
      (ofPoints 1 [[0], [2]]).containsStrictly (.ok fs) (.list ([wordMin].map .ofInt)) = .ok true ∧
      ¬ ∀ f ∈ fs, dotInt f.normal [wordMin] < f.offset := by
  constructor
  · exact ⟨_, facets_wedge, by decide⟩
  · exact ⟨[⟨[1], 2⟩, ⟨[-1], 0⟩], by cbv, rfl, by decide⟩

end Polytope

end Orthant
