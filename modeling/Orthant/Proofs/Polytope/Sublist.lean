import Mathlib
import Orthant.Proofs.Polytope.Hull
import Orthant.Proofs.Polytope.Primitive
import Orthant.Proofs.Polytope.Proposal

/-! # Facets of some of the points

Points that have the hull of all points have the same facets: a hyperplane through some of them is
found for all points as well, and it is turned to the same side.
-/

namespace Orthant

open Finset

namespace Polytope

variable {n : ℕ} {points points' : List (List ℤ)} {fs : List Facet}

theorem dotInt_le_of_mem_convexHull (hlen' : ∀ q ∈ points', q.length = n) {q : List ℤ}
    (hq : q.length = n) (hmem : realPoint n q ∈ convexHull ℝ (pointSet n points')) {u : List ℤ}
    {d : ℤ} (h : ∀ q ∈ points', dotInt u q ≤ d) : dotInt u q ≤ d := by
  have hle := convexHull_min (fun x hx => ?_) (Configuration.convex_normal_le u d) hmem
  · rw [Set.mem_ofPred_eq, sum_realPoint_eq_dotInt u hq] at hle
    exact_mod_cast hle
  · obtain ⟨p, hp, rfl⟩ := hx
    rw [Set.mem_ofPred_eq, sum_realPoint_eq_dotInt u (hlen' p hp)]
    exact_mod_cast h p hp

theorem le_dotInt_of_mem_convexHull (hlen' : ∀ q ∈ points', q.length = n) {q : List ℤ}
    (hq : q.length = n) (hmem : realPoint n q ∈ convexHull ℝ (pointSet n points')) {u : List ℤ}
    {d : ℤ} (h : ∀ q ∈ points', d ≤ dotInt u q) : d ≤ dotInt u q := by
  have := dotInt_le_of_mem_convexHull hlen' hq hmem (u := u.map fun x => -x) (d := -d)
    fun q hq => by
      rw [dotInt_neg]
      exact neg_le_neg (h q hq)
  rw [dotInt_neg] at this
  exact neg_le_neg_iff.mp this

theorem not_forall_dotInt_eq (hlen : ∀ q ∈ points, q.length = n)
    (hspan : affineSpan ℝ (pointSet n points) = ⊤) {f : Facet}
    (hform : ∀ (K : Type) [Field K] [CharZero K], f.form n K ≠ 0) :
    ¬ ∀ q ∈ points, dotInt f.normal q = f.offset := by
  intro hall
  obtain ⟨hzero, hoffset⟩ := (affineSpan_eq_top_iff hlen).mp hspan
    (fun r => ((f.normal.getD r 0 : ℤ) : ℚ)) f.offset fun q hq => by
      rw [← hall q hq, dotInt_eq_sum (hlen q hq)]
      push_cast
      exact sum_congr rfl fun r _ => mul_comm _ _
  refine hform ℚ (LinearMap.ext fun y => ?_)
  rw [Facet.form_apply, hoffset, zero_mul, zero_sub, LinearMap.zero_apply, neg_eq_zero]
  exact sum_eq_zero fun r _ => mul_eq_zero_of_left (congrFun hzero r) _

/-! ## Facets by dimension -/

theorem isFull_of_facets {program : FacetProgram}
    (h : (ofPoints n points).facets program = .ok fs) :
    (ofPoints n points).isFull = true ∧ 0 < n := by
  obtain ⟨hfull, h0, -⟩ := facets_eq_ok h
  exact ⟨hfull, h0⟩

theorem facets_line {program : FacetProgram} (hfull : (ofPoints n points).isFull = true)
    (hn : n = 1) : (ofPoints n points).facets program =
      (ofPoints n points).ends.mapM Facet.stored := by
  subst hn
  simp only [facets, hfull]
  rfl

theorem facets_space {program : FacetProgram} (hfull : (ofPoints n points).isFull = true)
    (hn : 2 ≤ n) :
    (ofPoints n points).facets program = (ofPoints n points).facetsThrough (program n points) := by
  have h0 : (ofPoints n points).ambient ≠ 0 := by change n ≠ 0; omega
  have h1 : (ofPoints n points).ambient ≠ 1 := by change n ≠ 1; omega
  simp only [facets, hfull, Bool.not_true, Bool.false_eq_true, if_false, h0, h1]
  rfl

/-! ## On the line -/

theorem foldl_mem {f : ℤ → ℤ → ℤ} (hf : ∀ a b, f a b = a ∨ f a b = b) (xs : List ℤ) (a : ℤ) :
    xs.foldl f a = a ∨ xs.foldl f a ∈ xs := by
  induction xs generalizing a with
  | nil => exact .inl rfl
  | cons x xs ih =>
    rcases ih (f a x) with h | h
    · rcases hf a x with he | he
      · exact .inl (h.trans he)
      · exact .inr (List.mem_cons.mpr (.inl (h.trans he)))
    · exact .inr (List.mem_cons_of_mem _ h)

theorem maximum_mem {xs : List ℤ} (h : xs ≠ []) : maximum xs ∈ xs := by
  obtain ⟨x, ys, rfl⟩ := List.exists_cons_of_ne_nil h
  rcases foldl_mem max_choice (x :: ys) x with h | h
  · rw [maximum, List.headD_cons, h]
    exact List.mem_cons_self
  · exact h

theorem minimum_mem {xs : List ℤ} (h : xs ≠ []) : minimum xs ∈ xs := by
  obtain ⟨x, ys, rfl⟩ := List.exists_cons_of_ne_nil h
  rcases foldl_mem min_choice (x :: ys) x with h | h
  · rw [minimum, List.headD_cons, h]
    exact List.mem_cons_self
  · exact h

section Sublist

variable (hsub : points'.Sublist points) (hlen : ∀ q ∈ points, q.length = n)
  (hhull : ∀ q ∈ points, realPoint n q ∈ convexHull ℝ (pointSet n points'))

include hsub hlen hhull

theorem ends_eq (hn : n = 1) (hne : points' ≠ []) :
    maximum ((ofPoints n points').coordinates 0) = maximum ((ofPoints n points).coordinates 0) ∧
      minimum ((ofPoints n points').coordinates 0) =
        minimum ((ofPoints n points).coordinates 0) := by
  have hlen' : ∀ q ∈ points', q.length = n := fun q hq => hlen q (hsub.subset hq)
  have hcoord : ∀ l : List (List ℤ), (ofPoints n l).coordinates 0 = l.map fun q => q.getD 0 0 :=
    fun l => rfl
  have hdot : ∀ q : List ℤ, q.length = n → dotInt [1] q = q.getD 0 0 := fun q hq => by
    obtain ⟨x, rfl⟩ := List.length_eq_one_iff.mp (hq.trans hn)
    simp [dotInt]
  have hsubset : ∀ x ∈ (ofPoints n points').coordinates 0, x ∈ (ofPoints n points).coordinates 0 :=
    fun x hx => (hsub.map _).subset hx
  have hne' : (ofPoints n points').coordinates 0 ≠ [] := by simpa [hcoord] using hne
  constructor
  · refine (maximum_eq (hsubset _ (maximum_mem hne')) fun y hy => ?_).symm
    obtain ⟨q, hq, rfl⟩ := List.mem_map.mp hy
    rw [← hdot q (hlen q hq)]
    refine dotInt_le_of_mem_convexHull hlen' (hlen q hq) (hhull q hq) fun p hp => ?_
    rw [hdot p (hlen' p hp)]
    exact (le_foldl_max _ _).2 _ (List.mem_map_of_mem hp)
  · refine (minimum_eq (hsubset _ (minimum_mem hne')) fun y hy => ?_).symm
    obtain ⟨q, hq, rfl⟩ := List.mem_map.mp hy
    rw [← hdot q (hlen q hq)]
    refine le_dotInt_of_mem_convexHull hlen' (hlen q hq) (hhull q hq) fun p hp => ?_
    rw [hdot p (hlen' p hp)]
    exact (foldl_min_le _ _).2 _ (List.mem_map_of_mem hp)

/-! ## In space -/

omit hlen in
theorem convexHull_eq_of_sublist :
    convexHull ℝ (pointSet n points') = convexHull ℝ (pointSet n points) := by
  refine (convexHull_mono ?_).antisymm (convexHull_min ?_ (convex_convexHull ℝ _))
  · rintro _ ⟨q, hq, rfl⟩
    exact ⟨q, hsub.subset hq, rfl⟩
  · rintro _ ⟨q, hq, rfl⟩
    exact hhull q hq

/-- Where the proposed sets find the facets, a hyperplane through proposed points of some is one
through proposed points of all. -/
theorem exists_through_eq (hn : 0 < n) (hspan : affineSpan ℝ (pointSet n points') = ⊤)
    {L L' : List (List ℕ)} (hL : FindsFacets n points L) (hL' : FindsFacets n points' L')
    {s : List ℕ} (hs : s ∈ L') {f : Facet} (hf : Facet.through? n (pick points' s) = some f) :
    ∃ t ∈ L, Facet.through? n (pick points t) = some f := by
  have hlen' : ∀ q ∈ points', q.length = n := fun q hq => hlen q (hsub.subset hq)
  have hspan₀ : affineSpan ℝ (pointSet n points) = ⊤ := by
    refine top_le_iff.mp (hspan ▸ affineSpan_mono ℝ ?_)
    rintro _ ⟨q, hq, rfl⟩
    exact ⟨q, hsub.subset hq, rfl⟩
  have hc : (⟨points, n, []⟩ : Configuration).IsFull :=
    (Configuration.isFull_iff_affineSpan hlen).mpr hspan₀
  have hc' : (⟨points', n, []⟩ : Configuration).IsFull :=
    (Configuration.isFull_iff_affineSpan hlen').mpr hspan
  obtain ⟨F, hF', hsF⟩ := hL'.on_facet s hs
  have hF : IsFacet (convexHull ℝ (pointSet n points)) F :=
    convexHull_eq_of_sublist hsub hhull ▸ hF'
  have hzero : ∀ x ∈ F, f.form n ℝ (raise x) = 0 := fun x hx =>
    Configuration.form_raise_eq_zero hc' (hL'.lt s hs) hF' hsF hf hx
  obtain ⟨t, ht, htF, hind⟩ := hL.independent F hF
  obtain ⟨g, hg, r, hmul⟩ := Configuration.exists_through_of_affineIndependent hc (hL.lt t ht) hF
    htF (hL.length t ht) hind hzero
  have hpick : ∀ {points : List (List ℤ)} {l : List ℕ}, l.length = n → pick points l ≠ [] :=
    fun h => List.ne_nil_of_length_pos (by rwa [pick, List.length_map, h])
  rw [Facet.eq_of_through (pick_length (p := ofPoints n points) hlen (hL.lt t ht))
    (pick_length (p := ofPoints n points') hlen' (hL'.lt s hs)) (hpick (hL.length t ht))
    (hpick (hL'.length s hs)) hg hf hmul]
  exact ⟨t, ht, hg⟩

omit hlen hhull in
/-- A hyperplane that could be turned to all points and stored can be turned to some of them and
stored. -/
theorem supporting_returns (hne : points' ≠ []) {f g : Facet} {s t : List ℕ}
    (hg : f.supporting points t = .ok g) (hstored : g.stored = .ok g) :
    ∃ f', f.supporting points' s = .ok f' ∧ f'.stored = .ok f' := by
  have hwords : f.normal.mapM toWord = .ok f.normal := by
    obtain ⟨normal, hn, -⟩ := bind_eq_ok.mp hg
    rwa [mapM_eq_self (fun _ _ => toWord_eq_ok) hn] at hn
  rw [Facet.supporting_eq (mapM_toWord_iff.mp hwords)]
  rcases Facet.supporting_eq_ok hg with ⟨rfl, hle⟩ | ⟨rfl, hle⟩
  · rw [if_pos (by simpa using fun q hq => hle q (hsub.subset hq))]
    exact ⟨_, rfl, hstored⟩
  · by_cases hall : (points'.map (dotWord f.normal)).all (· ≤ f.offset) = true
    · rw [if_pos hall]
      refine ⟨_, rfl, Facet.stored_iff.mpr ⟨mapM_toWord_iff.mp hwords, ?_⟩⟩
      obtain ⟨q, hq⟩ := List.exists_mem_of_ne_nil _ hne
      have hq' : dotWord f.normal q ≤ f.offset := by
        have := List.all_eq_true.mp hall _ (List.mem_map_of_mem hq)
        exact of_decide_eq_true this
      rw [← le_antisymm hq' (hle q (hsub.subset hq)), dotWord]
      exact isWord_wrap _
    · rw [if_neg hall, if_pos (by simpa using fun q hq => hle q (hsub.subset hq))]
      exact ⟨_, rfl, hstored⟩

/-- Facets of some points that hold there are facets of all points: turned the other way they would
contain all points. -/
theorem mem_of_mem_facetsThrough (hn : 0 < n) (hspan : affineSpan ℝ (pointSet n points') = ⊤)
    {L L' : List (List ℕ)} (hL : FindsFacets n points L) (hL' : FindsFacets n points' L')
    (h : (ofPoints n points).facetsThrough L = .ok fs)
    (hle : ∀ f ∈ fs, ∀ q ∈ points, dotInt f.normal q ≤ f.offset) {fs' : List Facet}
    (h' : (ofPoints n points').facetsThrough L' = .ok fs')
    (hle' : ∀ f ∈ fs', ∀ q ∈ points', dotInt f.normal q ≤ f.offset) : ∀ f ∈ fs', f ∈ fs := by
  have hlen' : ∀ q ∈ points', q.length = n := fun q hq => hlen q (hsub.subset hq)
  intro f' hf'
  obtain ⟨s, hs, f, hf, hsup'⟩ := (facetsThrough_eq_ok h').1 f' hf'
  obtain ⟨t, ht, hft⟩ := exists_through_eq hsub hlen hhull hn hspan hL hL' hs hf
  obtain ⟨g, hg, hsup⟩ := (facetsThrough_eq_ok h).2 t ht f hft
  have hplane := not_forall_dotInt_eq hlen' hspan (Facet.through_eq_some
    (pick_length (p := ofPoints n points') hlen' (hL'.lt s hs)) hf).2.1
  have hneg : ∀ q, dotInt f.neg.normal q ≤ f.neg.offset ↔ f.offset ≤ dotInt f.normal q := fun q => by
    rw [Facet.neg, dotInt_neg, neg_le_neg_iff]
  rcases Facet.supporting_eq_ok hsup with ⟨rfl, -⟩ | ⟨rfl, -⟩
  · rcases Facet.supporting_eq_ok hsup' with ⟨rfl, -⟩ | ⟨rfl, -⟩
    · exact hg
    · exact absurd (fun q hq => le_antisymm (hle _ hg q (hsub.subset hq))
        ((hneg q).mp (hle' _ hf' q hq))) hplane
  · rcases Facet.supporting_eq_ok hsup' with ⟨rfl, -⟩ | ⟨rfl, -⟩
    · exact absurd (fun q hq => le_antisymm (hle' _ hf' q hq)
        ((hneg q).mp (hle _ hg q (hsub.subset hq)))) hplane
    · exact hg

omit hsub hhull in
theorem FacetsComplete.le {program : FacetProgram}
    (hcomplete : (ofPoints n points).FacetsComplete program)
    (h : (ofPoints n points).facets program = .ok fs) :
    ∀ f ∈ fs, ∀ q ∈ points, dotInt f.normal q ≤ f.offset := by
  intro f hf q hq
  have hle := (hcomplete fs h (realPoint n q)).mp (realPoint_mem_convexHull hq) f hf
  exact_mod_cast (sum_realPoint_eq_dotInt f.normal (hlen q hq)) ▸ hle

/-- Some points with the hull of all points have facets, and these are facets of all points. -/
theorem facets_of_sublist {program : FacetProgram}
    (hspan : affineSpan ℝ (pointSet n points') = ⊤)
    (hfull : (ofPoints n points').isFull = true)
    (hprogram : n ≠ 1 → FindsFacets n points (program n points))
    (hprogram' : n ≠ 1 → FindsFacets n points' (program n points'))
    (h : (ofPoints n points).facets program = .ok fs)
    (hcomplete : (ofPoints n points).FacetsComplete program)
    (hcomplete' : (ofPoints n points').FacetsComplete program) :
    ∃ fs', (ofPoints n points').facets program = .ok fs' ∧ ∀ f ∈ fs', f ∈ fs := by
  have hlen' : ∀ q ∈ points', q.length = n := fun q hq => hlen q (hsub.subset hq)
  have hne : points' ≠ [] := ne_nil_of_affineSpan hspan
  obtain ⟨hfull₀, hn⟩ := isFull_of_facets h
  by_cases h1 : n = 1
  · obtain ⟨hmax, hmin⟩ := ends_eq hsub hlen hhull h1 hne
    refine ⟨fs, ?_, fun f hf => hf⟩
    rw [facets_line hfull h1, ends, hmax, hmin, ← ends, ← facets_line hfull₀ h1]
    exact h
  · have hL := hprogram h1
    have hL' := hprogram' h1
    have hthrough := h
    rw [facets_space hfull₀ (by omega)] at hthrough
    obtain ⟨fs', hthrough', -⟩ := facetsThrough_returns (p := ofPoints n points')
      (L := program n points') fun s hs f hf => by
        obtain ⟨t, ht, hft⟩ := exists_through_eq hsub hlen hhull hn hspan hL hL' hs hf
        obtain ⟨g, hg, hsup⟩ := (facetsThrough_eq_ok hthrough).2 t ht f hft
        exact supporting_returns hsub hne hsup (stored_of_mem_facets h hg)
    have h' : (ofPoints n points').facets program = .ok fs' := by
      rw [facets_space hfull (by omega), hthrough']
    exact ⟨fs', h', mem_of_mem_facetsThrough hsub hlen hhull hn hspan hL hL' hthrough
      (hcomplete.le hlen h) hthrough' (hcomplete'.le hlen' h')⟩

end Sublist

end Polytope

end Orthant
