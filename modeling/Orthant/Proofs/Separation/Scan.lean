import Mathlib
import Orthant.Proofs.Polytope.Representation
import Orthant.Proofs.Separation.Simplex
import Orthant.Proofs.Triangulation.Ending

/-! # The search as a scan of all simplices

Every simplex on positive exponents is a cell of a regular triangulation, and the search hands out
all of these. So its verdict is that of a scan of all simplices, each looked at by itself.
-/

namespace Orthant

open Lifting Orthant.Configuration

namespace Separation

variable {cfg : Config} {clock : Clock} {n : ℕ} {positive negative : List (List ℤ)}
  {p : Configuration.Programs} {program : CoordinateProgram} {facets : Polytope.FacetProgram}
  {tol : Value} {r : Bool} {hull : Polytope}

/-- Negative exponents inside a full hull leave the answer to the search. -/
theorem isNonseparableIn_of_inside (hfull : hull.isFull = true)
    (hin : negative ≠ [] →
      ∃ fs, hull.facets facets = .ok fs ∧ ∀ b ∈ negative, strictlyInside fs b = true) :
    isNonseparableIn cfg clock hull negative p program facets =
      searchCells cfg clock hull.ambient hull.points negative p program facets := by
  rw [isNonseparableIn, if_neg (by simpa using hfull)]
  by_cases hneg : negative = []
  · rw [hneg]
    rfl
  · obtain ⟨fs, hfs, hinside⟩ := hin hneg
    have hout : negative.filter (fun b => !strictlyInside fs b) = [] := by simpa using hinside
    rw [if_neg (by simpa using hneg), hfs]
    simp only [Except.map, hout]

theorem isNonseparableIn_of_outside (hfull : hull.isFull = true) {fs : List Facet}
    (hfs : hull.facets facets = .ok fs) (hout : ∃ b ∈ negative, strictlyInside fs b = false) :
    (isNonseparableIn cfg clock hull negative p program facets).2 = .ok false := by
  obtain ⟨b, hb, hfalse⟩ := hout
  have hmem : b ∈ negative.filter fun b => !strictlyInside fs b :=
    List.mem_filter.mpr ⟨hb, by simp [hfalse]⟩
  obtain ⟨b', rest, hfilter⟩ := List.exists_cons_of_ne_nil (List.ne_nil_of_mem hmem)
  rw [isNonseparableIn, if_neg (by simpa using hfull),
    if_neg (by simpa using List.ne_nil_of_mem hb), hfs]
  simp only [Except.map, hfilter]

/-- How an answer comes about: from the dimension, from an exponent that is not inside, or from the
search. -/
theorem isNonseparableIn_eq_ok_iff :
    (isNonseparableIn cfg clock hull negative p program facets).2 = .ok r ↔
      (hull.isFull = false ∧ r = false) ∨
      (hull.isFull = true ∧
        (∃ fs, hull.facets facets = .ok fs ∧ ∃ b ∈ negative, strictlyInside fs b = false) ∧
        r = false) ∨
      (hull.isFull = true ∧
        (negative ≠ [] →
          ∃ fs, hull.facets facets = .ok fs ∧ ∀ b ∈ negative, strictlyInside fs b = true) ∧
        (searchCells cfg clock hull.ambient hull.points negative p program facets).2 = .ok r) := by
  constructor
  · intro h
    cases hfull : hull.isFull with
    | false =>
      rw [isNonseparableIn, if_pos (by simp [hfull])] at h
      exact .inl ⟨rfl, (Except.ok.inj h).symm⟩
    | true =>
      by_cases hin : negative ≠ [] → ∃ fs, hull.facets facets = .ok fs ∧
          ∀ b ∈ negative, strictlyInside fs b = true
      · rw [isNonseparableIn_of_inside hfull hin] at h
        exact .inr (.inr ⟨rfl, hin, h⟩)
      · obtain ⟨hneg, hnot⟩ := Classical.not_imp.mp hin
        cases hfs : hull.facets facets with
        | error e => simp [isNonseparableIn, hfull, hneg, hfs, Except.map] at h
        | ok fs =>
          have hout : ∃ b ∈ negative, strictlyInside fs b = false := by
            by_contra hall
            exact hnot ⟨fs, hfs, by simpa using hall⟩
          rw [isNonseparableIn_of_outside hfull hfs hout] at h
          exact .inr (.inl ⟨rfl, ⟨fs, rfl, hout⟩, (Except.ok.inj h).symm⟩)
  · rintro (⟨hfull, rfl⟩ | ⟨hfull, ⟨fs, hfs, hout⟩, rfl⟩ | ⟨hfull, hin, h⟩)
    · rw [isNonseparableIn, if_pos (by simp [hfull])]
    · exact isNonseparableIn_of_outside hfull hfs hout
    · rw [isNonseparableIn_of_inside hfull hin]
      exact h

theorem isNonseparable_eq_searchCells (hfull : (Polytope.ofPoints n positive).isFull = true)
    {fs : List Facet} (hfs : (Polytope.ofPoints n positive).facets facets = .ok fs)
    (hinside : ∀ b ∈ negative, strictlyInside fs b = true) :
    isNonseparable cfg clock n positive negative p program facets =
      searchCells cfg clock n positive negative p program facets :=
  isNonseparableIn_of_inside hfull fun _ => ⟨fs, hfs, hinside⟩

/-! ## One triangulation -/

theorem separatingCell?_eq_none {t : Triangulation}
    (h : separatingCell? tol n positive negative t exactCoordinates = .ok none) :
    ∀ σ ∈ t, cellSeparates tol n positive negative σ = .ok false := by
  induction t with
  | nil => simp
  | cons σ t ih =>
    obtain ⟨found, hσ, h⟩ := bind_eq_ok.mp h
    cases found with
    | true => cases h
    | false => exact List.forall_mem_cons.mpr ⟨hσ, ih h⟩

theorem separatingCell?_eq_some {t : Triangulation} {σ : Cell}
    (h : separatingCell? tol n positive negative t exactCoordinates = .ok (some σ)) :
    σ ∈ t ∧ cellSeparates tol n positive negative σ = .ok true := by
  induction t with
  | nil => cases h
  | cons τ t ih =>
    obtain ⟨found, hτ, h⟩ := bind_eq_ok.mp h
    cases found with
    | true =>
      obtain rfl : τ = σ := by simpa using h
      exact ⟨List.mem_cons_self, hτ⟩
    | false => exact ⟨List.mem_cons_of_mem _ (ih h).1, (ih h).2⟩

/-! ## All triangulations -/

theorem verdict_eq_ok {verbose : Bool} {size : ℕ}
    {found : Except Error ((ℕ × Cell) ⊕ Search.Ending)}
    (h : (verdict verbose size found).2 = .ok r) :
    (r = false ∧ ∃ a, found = .ok (.inl a)) ∨
      (r = true ∧ ∃ k, found = .ok (.inr (.finished k))) ∨
      (r = false ∧ ∃ l, found = .ok (.inr (.failed (.limitReached l))) ∨
        found = .ok (.inr (.failed (.timeExhausted l)))) := by
  rw [verdict.eq_def] at h
  split at h
  · cases h
  · cases h
    exact .inl ⟨rfl, _, rfl⟩
  · cases h
    exact .inr (.inl ⟨rfl, _, rfl⟩)
  · cases h
  · split at h
    · cases h
      exact .inr (.inr ⟨rfl, _, .inl rfl⟩)
    · cases h
      exact .inr (.inr ⟨rfl, _, .inr rfl⟩)
    · cases h

theorem searchCells_of_start {c : Configuration} {s : Search}
    (hstart : Search.ofPoints positive (.ok 0) p.hull facets = .ok (c, s)) :
    searchCells cfg clock n positive negative p program facets = verdict cfg.verbose c.size
      (s.firstSome c cfg.bounds clock (fun number t => do
        .ok ((← separatingCell? cfg.tol n positive negative t program).map fun σ => (number, σ)))
        c.searchFuel p) := by
  rw [searchCells, hstart]

theorem isSimplex_of_mem {c : Configuration} (hc : c.IsFull) {t : Triangulation}
    (ht : c.IsRegular t) {σ : Cell} (hσ : σ ∈ t) :
    σ ∈ c.simplices ∧ IsSimplex ℚ (c.vector ℚ) σ.toFinset := by
  obtain ⟨hcomplex, w, hw⟩ := hc.isRegular_iff.mp ht
  exact ⟨hcomplex.mem σ hσ, (hw.strict _ ⟨σ, hσ, rfl⟩).simplex⟩

theorem exists_start {dim : ℕ} (hdim : (positive.headD []).length = dim)
    (h : (searchCells cfg clock n positive negative p program facets).2 = .ok r) :
    ∃ fs s, (Polytope.ofPoints dim positive).facets facets = .ok fs ∧
      Search.ofPoints positive (.ok 0) p.hull facets = .ok (⟨positive, dim, fs⟩, s) := by
  cases hstart : Search.ofPoints positive (.ok 0) p.hull facets with
  | error e => simp [searchCells, hstart] at h
  | ok found =>
    obtain ⟨⟨points, d, fs⟩, s⟩ := found
    obtain ⟨hpoints, hd, hfs, -⟩ := Search.ofPoints_eq_ok hstart
    dsimp only at hpoints hd hfs
    rw [hdim] at hd
    subst hpoints hd
    exact ⟨fs, s, hfs, rfl⟩

theorem searchCells_eq_ok {c : Configuration} {s : Search} (hbounds : cfg.bounds = .none)
    (hstart : Search.ofPoints positive (.ok 0) p.hull facets = .ok (c, s)) (hc : c.IsFull)
    (hside : c.OneSided) (hfind : c.FindsWalls p.wall)
    (h : (searchCells cfg clock n positive negative p exactCoordinates facets).2 = .ok r) :
    r = true ↔ ∀ σ ∈ c.simplices, IsSimplex ℚ (c.vector ℚ) σ.toFinset →
      cellSeparates cfg.tol n positive negative σ ≠ .ok true := by
  obtain ⟨t₀, ht₀, rfl⟩ := Search.exists_start hstart hc (.inl hside)
  have hsound := Search.sound_start ht₀
  rw [searchCells_of_start hstart, hbounds] at h
  rcases verdict_eq_ok h with ⟨rfl, ⟨k, σ⟩, hfound⟩ | ⟨rfl, k, hfound⟩ | ⟨-, l, hfound⟩
  · obtain ⟨t, ht, number, htest⟩ := Search.firstSome_eq_inl hfound
    obtain ⟨found, hcell, htest⟩ := bind_eq_ok.mp htest
    obtain ⟨τ, rfl, he⟩ := Option.map_eq_some_iff.mp (Except.ok.inj htest)
    obtain ⟨hτ, hsep⟩ := separatingCell?_eq_some hcell
    obtain ⟨hmem, hsimplex⟩ := isSimplex_of_mem hc ((hsound.run hc .none clock _ p).1 t ht) hτ
    exact iff_of_false (by simp) fun hall => hall τ hmem hsimplex hsep
  · obtain ⟨hend, hnone⟩ := Search.firstSome_eq_inr hfound
    have hrun : (Search.start t₀).run c .none clock c.searchFuel p =
        (((Search.start t₀).run c .none clock c.searchFuel p).1, .finished k) := Prod.ext rfl hend
    have hall := (Search.mem_run_iff hstart hc hside hfind hrun).2.2
    refine iff_of_true rfl fun σ hσ hs => ?_
    obtain ⟨t, ht, hσt⟩ := hc.exists_isRegular hσ hs
    obtain ⟨number, htest⟩ := hnone t ((hall t).mpr ht)
    obtain ⟨found, hcell, htest⟩ := bind_eq_ok.mp htest
    obtain rfl : found = none := by simpa using htest
    rw [separatingCell?_eq_none hcell σ hσt]
    simp
  · rcases hfound with hfound | hfound
    all_goals
      rcases hsound.run_failed hc .none clock _ p (Search.firstSome_eq_inr hfound).1 with
        ⟨_, _, he⟩ | ⟨_, he⟩
      · cases he
      · cases he

theorem searchCells_ne_ok (hpositive : ∀ a ∈ positive, a.length = n) (hne : positive ≠ [])
    (hspan : affineSpan ℝ (pointSet n positive) ≠ ⊤) (hbounds : cfg.bounds = .none) :
    (searchCells cfg clock n positive negative p program facets).2 ≠ .ok r := by
  intro h
  obtain ⟨a, rest, ha⟩ := List.exists_cons_of_ne_nil hne
  have hdim : (positive.headD []).length = n := by simpa [ha] using hpositive a (by simp [ha])
  obtain ⟨fs, s, -, hstart⟩ := exists_start hdim h
  have hnot : ¬ IsFull ⟨positive, n, fs⟩ :=
    mt (Configuration.isFull_iff_affineSpan hpositive).mp hspan
  obtain ⟨-, -, -, k, t, ht, rfl⟩ := Search.ofPoints_eq_ok hstart
  obtain rfl := eq_nil_of_initialFrom hpositive hnot ht
  have hfuel : 2 ≤ (⟨positive, n, fs⟩ : Configuration).searchFuel :=
    Nat.succ_le_succ (Nat.two_pow_pos _)
  have hsize : 0 < (⟨positive, n, fs⟩ : Configuration).size := List.length_pos_iff.mpr hne
  rw [searchCells_of_start hstart, hbounds, Search.firstSome_start_nil hsize hfuel rfl] at h
  cases h

/-! ## The verdict -/

/-- The products of the hyperplanes with the positive exponents, and those of the facets with the
negative ones, are words. -/
structure FitsWords (n : ℕ) (positive negative : List (List ℤ))
    (program : Polytope.FacetProgram := Polytope.facetSimplices) : Prop where
  candidates : (Polytope.ofPoints n positive).ProductsFit program
  facets : ∀ fs, (Polytope.ofPoints n positive).facets program = .ok fs → ∀ f ∈ fs,
    ∀ b ∈ negative, isWord (dotInt f.normal b) = true

theorem isNonseparable_cases
    (h : (isNonseparable cfg clock n positive negative p program facets).2 = .ok r) :
    ((Polytope.ofPoints n positive).isFull = false ∧ r = false) ∨
    ((Polytope.ofPoints n positive).isFull = true ∧
      ∃ fs, (Polytope.ofPoints n positive).facets facets = .ok fs ∧
        (∃ b ∈ negative, strictlyInside fs b = false) ∧ r = false) ∨
    ((Polytope.ofPoints n positive).isFull = true ∧
      (∀ fs, (Polytope.ofPoints n positive).facets facets = .ok fs →
        ∀ b ∈ negative, strictlyInside fs b = true) ∧
      (searchCells cfg clock n positive negative p program facets).2 = .ok r) := by
  rcases isNonseparableIn_eq_ok_iff.mp h with h | ⟨hfull, ⟨fs, hfs, hb⟩, rfl⟩ | ⟨hfull, hin, h⟩
  · exact .inl h
  · exact .inr (.inl ⟨hfull, fs, hfs, hb, rfl⟩)
  · refine .inr (.inr ⟨hfull, fun fs hfs b hb => ?_, h⟩)
    obtain ⟨fs', hfs', hinside⟩ := hin (List.ne_nil_of_mem hb)
    obtain rfl := Except.ok.inj (hfs.symm.trans hfs')
    exact hinside b hb

/-- The facets that were found support the points and leave none out. -/
theorem FitsWords.supported (hwords : FitsWords n positive negative facets)
    (hpositive : ∀ a ∈ positive, a.length = n)
    (hfacets : n ≠ 1 → Polytope.FindsFacets n positive (facets n positive))
    (hspan : affineSpan ℝ (pointSet n positive) = ⊤) {fs : List Facet}
    (hfs : (Polytope.ofPoints n positive).facets facets = .ok fs) :
    IsFull ⟨positive, n, fs⟩ ∧ Supported ⟨positive, n, fs⟩ ∧ HasFacets ⟨positive, n, fs⟩ := by
  have hc : IsFull ⟨positive, n, fs⟩ := (Configuration.isFull_iff_affineSpan hpositive).mpr hspan
  have hfit := Polytope.fits_of_mem_facets hwords.candidates hfs
  exact ⟨hc, hc.supported (fun h1 => (hfacets h1).lt) (fun f hf => (hfit f hf).product) hfs,
    hc.hasFacets_of_findsFacets hfacets hfs⟩

/-- Negative exponents are strictly inside the facets when they are inside the hull. -/
theorem FitsWords.strictlyInside_iff (hwords : FitsWords n positive negative facets)
    (hpositive : ∀ a ∈ positive, a.length = n) (hnegative : ∀ b ∈ negative, b.length = n)
    (hfacets : n ≠ 1 → Polytope.FindsFacets n positive (facets n positive))
    (hspan : affineSpan ℝ (pointSet n positive) = ⊤) {fs : List Facet}
    (hfs : (Polytope.ofPoints n positive).facets facets = .ok fs) {b : List ℤ}
    (hb : b ∈ negative) : strictlyInside fs b = true ↔
      realPoint n b ∈ interior (convexHull ℝ (pointSet n positive)) := by
  obtain ⟨hc, hsup, hall⟩ := hwords.supported hpositive hfacets hspan hfs
  exact Configuration.strictlyInside_iff hc hsup hall (hnegative b hb) fun f hf =>
    hwords.facets fs hfs f hf b hb

/-- The verdict of a search without bounds is that of a scan of all simplices: the positive
exponents span their space, the negative ones lie inside the hull, and no `n + 1` affinely
independent positive exponents separate them. The proposed sets are to find the facets, whose products
do not wrap, and the proposed points the walls. Any fine tolerance will do for the scan. -/
theorem isNonseparable_iff_scan (hn : 1 ≤ n) (hpositive : ∀ a ∈ positive, a.length = n)
    (hnegative : ∀ b ∈ negative, b.length = n)
    (hfacets : n ≠ 1 → Polytope.FindsFacets n positive (facets n positive))
    (hwords : FitsWords n positive negative facets)
    (hwalls : ∀ c, Configuration.ofPoints n positive facets = .ok c → c.FindsWalls p.wall)
    (hbounds : cfg.bounds = .none) (hfine : IsFine cfg.tol n positive)
    (hfine' : IsFine tol n positive)
    (h : (isNonseparable cfg clock n positive negative p exactCoordinates facets).2 = .ok r) :
    r = true ↔ affineSpan ℝ (pointSet n positive) = ⊤ ∧
      (∀ b ∈ negative, realPoint n b ∈ interior (convexHull ℝ (pointSet n positive))) ∧
      ∀ σ ∈ choices (n + 1) (List.range positive.length),
        (AffineIndependent ℝ fun i : σ.toFinset => realPoint n (positive.getD i [])) →
          cellSeparates tol n positive negative σ = .ok false := by
  rcases isNonseparable_cases h with ⟨hfull, rfl⟩ | ⟨hfull, fs, hfs, ⟨b, hb, hout⟩, rfl⟩ |
    ⟨hfull, hin, hsearch⟩
  · refine iff_of_false (by simp) fun hall => ?_
    rw [Polytope.isFull_of_productsFit hn hpositive hall.1 hfacets hwords.candidates] at hfull
    cases hfull
  · refine iff_of_false (by simp) fun hall => ?_
    rw [(hwords.strictlyInside_iff hpositive hnegative hfacets hall.1 hfs hb).mpr
      (hall.2.1 b hb)] at hout
    cases hout
  · have hne : positive ≠ [] := by
      rintro rfl
      simp [Polytope.isFull, Polytope.ofPoints, affineDimension] at hfull
    have htop : affineSpan ℝ (pointSet n positive) = ⊤ := by
      by_contra hspan
      exact searchCells_ne_ok hpositive hne hspan hbounds hsearch
    obtain ⟨a, rest, ha⟩ := List.exists_cons_of_ne_nil hne
    have hdim : (positive.headD []).length = n := by simpa [ha] using hpositive a (by simp [ha])
    obtain ⟨fs, s, hfs, hstart⟩ := exists_start hdim hsearch
    let c : Configuration := ⟨positive, n, fs⟩
    obtain ⟨hc, hsup, -⟩ := hwords.supported hpositive hfacets htop hfs
    rw [searchCells_eq_ok hbounds hstart hc hsup.oneSided
      (hwalls c (bind_eq_ok.mpr ⟨fs, hfs, rfl⟩)) hsearch]
    have hinside : ∀ b ∈ negative, realPoint n b ∈ interior (convexHull ℝ (pointSet n positive)) :=
      fun b hb =>
        (hwords.strictlyInside_iff hpositive hnegative hfacets htop hfs hb).mp (hin fs hfs b hb)
    simp only [htop, true_and, eq_true hinside]
    -- Both scan the same simplices, and their tolerances agree on each.
    refine forall₂_congr fun σ hσ => ?_
    rw [Configuration.isSimplex_iff_affineIndependent (c := c) hσ]
    refine forall_congr' fun hind => ?_
    have hs := (Configuration.isSimplex_iff_affineIndependent (c := c) hσ).mpr hind
    obtain ⟨found, hsep, hsep'⟩ := cellSeparates_of_isFine (c := c) hσ hs hnegative hfine hfine'
    rw [hsep', show cellSeparates cfg.tol n positive negative σ = .ok found from hsep]
    simp

theorem fitsWords_wideSquare
    (h : ∀ f ∈ wideSquare.facets, ∀ b ∈ negative, isWord (dotInt f.normal b) = true) :
    FitsWords 2 wideSquare.points negative := by
  have hfit : (Polytope.ofPoints 2 wideSquare.points).ProductsFit Polytope.facetSimplices := by
    decide +kernel
  refine ⟨hfit, fun fs hfs => ?_⟩
  obtain rfl := Except.ok.inj (facets_wideSquare.symm.trans hfs)
  exact h

theorem findsWalls_ofPoints_wideSquare (c : Configuration)
    (h : Configuration.ofPoints 2 wideSquare.points = .ok c) :
    c.FindsWalls Programs.exact.wall := by
  obtain ⟨fs, hfs, hc⟩ := bind_eq_ok.mp h
  obtain rfl := Except.ok.inj (facets_wideSquare.symm.trans hfs)
  obtain rfl := Except.ok.inj hc
  exact findsWalls_wideSquare

theorem isFine_wideSquare {x : Quantity} {q : ℚ} (hx : x.toRat = .ok q) (h0 : 0 ≤ q)
    (h1 : 16 * q < 1) : IsFine (.real x) 2 wideSquare.points := by
  refine ⟨x, q, rfl, hx, h0, fun σ hσ => ?_⟩
  have hdet : |liftedDet 2 (σ.map fun i => wideSquare.points.getD i [])| = 16 := by
    revert σ
    decide +kernel
  have hdet : |(liftedDet 2 (σ.map fun i => wideSquare.points.getD i []) : ℚ)| = 16 := by
    exact_mod_cast hdet
  rw [hdet]
  linarith

theorem isNonseparable_wideSquare {b : Bounds} (h1 : b.refuse (fun _ => 0) 1 = .none)
    (h2 : b.refuse (fun _ => 0) 2 = .none)
    (hin : ∀ x ∈ negative, strictlyInside wideSquare.facets x = true) {found : Option Cell}
    (hfalling : separatingCell? (.real (.rational (1 / 1000000000))) 2 wideSquare.points negative
      falling program = .ok none)
    (hrising : separatingCell? (.real (.rational (1 / 1000000000))) 2 wideSquare.points negative
      rising program = .ok found) :
    (isNonseparable ⟨.real (.rational (1 / 1000000000)), true, b⟩ (fun _ => 0) 2 wideSquare.points
      negative .exact program).2 = .ok found.isNone := by
  obtain ⟨hfirst, hsecond, hend⟩ := Search.next_wideSquare h1 h2
  rw [isNonseparable_eq_searchCells (by decide_cbv) facets_wideSquare hin,
    searchCells_of_start (p := .exact) Search.ofPoints_wideSquare]
  change (verdict _ _ (Search.firstSome _ _ _ _ _ (14 + 3) _)).2 = _
  simp only [Search.firstSome, hfirst, hfalling, hsecond, hrising]
  cases found with
  | none =>
    simp only [hend]
    rfl
  | some σ => rfl

/-- An exponent next to the middle of the square and the middle itself, which lies on all diagonals,
are nonseparable. -/
theorem isNonseparable_middle {b : Bounds} (h1 : b.refuse (fun _ => 0) 1 = .none)
    (h2 : b.refuse (fun _ => 0) 2 = .none)
    (hprogram : program = exactCoordinates ∨ program = numericCoordinates) :
    (isNonseparable ⟨.real (.rational (1 / 1000000000)), true, b⟩ (fun _ => 0) 2 wideSquare.points
      [[1, 2], [2, 2]] .exact program).2 = .ok true := by
  have hnone : ∀ t ∈ [falling, rising], separatingCell? (.real (.rational (1 / 1000000000))) 2
      wideSquare.points [[1, 2], [2, 2]] t program = .ok none := by
    rcases hprogram with rfl | rfl <;> decide +kernel
  exact isNonseparable_wideSquare h1 h2 (by decide_cbv) (hnone _ (by simp)) (hnone _ (by simp))

/-- The second triangulation separates the neighbours of the middle, the first one does not. -/
theorem isNonseparable_iff_scan_wideSquare :
    (isNonseparable ⟨.real (.rational (1 / 1000000000)), true, .none⟩ (fun _ => 0) 2
      wideSquare.points [[1, 2], [2, 2]] .exact exactCoordinates).2 = .ok true ∧
    (∀ σ ∈ choices 3 (List.range 4),
      (AffineIndependent ℝ fun i : σ.toFinset => realPoint 2 (wideSquare.points.getD i [])) →
        cellSeparates (.real (.int 0)) 2 wideSquare.points [[1, 2], [2, 2]] σ = .ok false) ∧
    (isNonseparable ⟨.real (.rational (1 / 1000000000)), true, .none⟩ (fun _ => 0) 2
      wideSquare.points [[1, 2], [2, 1]] .exact exactCoordinates).2 = .ok false ∧
    ∃ σ ∈ choices 3 (List.range 4),
      cellSeparates (.real (.int 0)) 2 wideSquare.points [[1, 2], [2, 1]] σ ≠ .ok false := by
  have hpositive : ∀ a ∈ wideSquare.points, a.length = 2 := by decide
  have hspan := (isFull_iff_affineSpan (c := wideSquare) hpositive).mp isFull_wideSquare
  have hfacets := Polytope.findsFacets_facetSimplices two_pos hpositive hspan
  have hfine := isFine_wideSquare (x := .rational (1 / 1000000000)) rfl (by norm_num) (by norm_num)
  have hfine' := isFine_wideSquare (x := .int 0) rfl le_rfl (by norm_num)
  have hscan : ∀ {negative : List (List ℤ)} {r : Bool}, (∀ b ∈ negative, b.length = 2) →
      (∀ f ∈ wideSquare.facets, ∀ b ∈ negative, isWord (dotInt f.normal b) = true) →
      (∀ b ∈ negative, strictlyInside wideSquare.facets b = true) →
      (isNonseparable ⟨.real (.rational (1 / 1000000000)), true, .none⟩ (fun _ => 0) 2
        wideSquare.points negative .exact exactCoordinates).2 = .ok r →
      (r = true ↔ ∀ σ ∈ choices 3 (List.range 4),
        (AffineIndependent ℝ fun i : σ.toFinset => realPoint 2 (wideSquare.points.getD i [])) →
          cellSeparates (.real (.int 0)) 2 wideSquare.points negative σ = .ok false) := by
    intro negative r hnegative hproducts hin hr
    have hwords := fitsWords_wideSquare hproducts
    have hinside : ∀ b ∈ negative, realPoint 2 b ∈ interior (convexHull ℝ
        (pointSet 2 wideSquare.points)) := fun b hb =>
      (hwords.strictlyInside_iff hpositive hnegative (fun _ => hfacets) hspan facets_wideSquare
        hb).mp (hin b hb)
    rw [isNonseparable_iff_scan (by decide) hpositive hnegative (fun _ => hfacets) hwords
      findsWalls_ofPoints_wideSquare rfl hfine hfine' hr]
    exact ⟨fun h => h.2.2, fun h => ⟨hspan, hinside, h⟩⟩
  have hrising : separatingCell? (.real (.rational (1 / 1000000000))) 2 wideSquare.points
      [[1, 2], [2, 1]] rising exactCoordinates = .ok (some [0, 1, 3]) := by decide +kernel
  have hfalse := isNonseparable_wideSquare (b := .none) rfl rfl (by decide_cbv)
    (by decide +kernel) hrising
  refine ⟨isNonseparable_middle rfl rfl (.inl rfl),
    (hscan (by decide) (by decide) (by decide_cbv) (isNonseparable_middle rfl rfl (.inl rfl))).mp rfl,
    hfalse, ?_⟩
  by_contra hnone
  push Not at hnone
  have htrue := (hscan (by decide) (by decide) (by decide_cbv) hfalse).mpr fun σ hσ _ =>
    hnone σ hσ
  cases htrue

end Separation

end Orthant
