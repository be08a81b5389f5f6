import Mathlib
import Orthant.Proofs.Polytope.Proposal
import Orthant.Proofs.Triangulation.Enumeration

/-! # The search of all regular triangulations

A search that starts from points only ever hands out regular triangulations. With a program that
finds the walls it hands out all of them, so what it hands out does not depend on the seed.
-/

namespace Orthant

open Finset Lifting

namespace Configuration

variable {c : Configuration} {t : Triangulation} {p : Programs} {forms : List Vec} {wall : Vec}

/-! ## Programs that find walls -/

/-- The program proposes, for every form that bounds the heights of a regular triangulation, a point
with enough slack that is strictly inside all other forms once it is moved onto the wall. -/
def FindsWalls (c : Configuration) (program : WallProgram) : Prop :=
  ∀ t forms k wall, c.IsRegular t → c.walls t = .ok forms → forms[k]? = some wall →
    (∃ w : Vec, w.length = c.size ∧ dot wall w = 0 ∧ ∀ g ∈ forms.eraseIdx k, 0 < dot g w) →
    ∃ q, program c.size wall (forms.eraseIdx k) = some q ∧ wallSlack < q.slack ∧
      ∀ g ∈ forms.eraseIdx k, 0 < dot g (snap wall (q.within c.size).point)

theorem wallPoint_ne_none {others : List Vec} {program : WallProgram} {q : Proposal}
    (hq : program c.size wall others = some q) (hslack : wallSlack < q.slack)
    (hpos : ∀ g ∈ others, 0 < dot g (snap wall (q.within c.size).point)) :
    c.wallPoint wall others program ≠ none := by
  have hany : ¬ (others.any fun g =>
      decide (dot g (snap wall (q.within c.size).point) ≤ 0)) = true := by
    simpa using hpos
  have hle : ¬ (q.within c.size).slack ≤ wallSlack := not_le.mpr hslack
  rw [wallPoint, hq, Option.map_some, checkWallPoint, if_neg hle, if_neg hany]
  simp

theorem FindsWalls.wallPoint_ne_none {program : WallProgram} (h : c.FindsWalls program)
    (hc : c.IsFull) (ht : c.IsRegular t) (hforms : c.walls t = .ok forms)
    (hw : c.IsWalls t forms) {k : ℕ} (hk : forms[k]? = some wall) {q : ℕ → ℚ}
    (hb : Lifting.Bounds c.placeSet (formSet forms) (entry wall) q) :
    c.wallPoint wall (forms.eraseIdx k) program ≠ none := by
  have hlen := hw.length hc
  have hdot : ∀ g ∈ forms, dot g ((List.range c.size).map q) =
      ∑ i ∈ c.placeSet, entry g i * q i := by
    intro g hg
    rw [dot_eq_sum_placeSet (hlen g hg)]
    exact sum_congr rfl fun i hi => by rw [entry_map_range q (mem_placeSet.mp hi)]
  suffices hpoint : ∃ w : Vec, w.length = c.size ∧ dot wall w = 0 ∧
      ∀ g ∈ forms.eraseIdx k, 0 < dot g w by
    obtain ⟨r, hr, hslack, hpos⟩ := h t forms k wall ht hforms hk hpoint
    exact Configuration.wallPoint_ne_none hr hslack hpos
  refine ⟨(List.range c.size).map q, by simp, ?_, fun g hg => ?_⟩
  · rw [hdot wall (List.mem_of_getElem? hk), hb.zero]
  · obtain ⟨m, hmk, hm⟩ := List.mem_eraseIdx_iff_getElem?.mp hg
    have hgf : g ∈ forms := List.mem_of_getElem? hm
    rw [hdot g hgf]
    refine hb.pos _ (mem_formSet.mpr ⟨g, hgf, rfl⟩) fun he => hmk ?_
    have hwall := List.mem_of_getElem? hk
    rw [entry_injective ((hlen g hgf).trans (hlen wall hwall).symm) he] at hm
    exact (List.getElem?_inj (List.getElem?_eq_some_iff.mp hm).1 hw.nodup).mp (hm.trans hk.symm)

theorem mem_of_closedAt (hc : c.IsFull) (hfind : c.FindsWalls p.wall) {R : List Triangulation}
    (hreg : ∀ t ∈ R, c.IsRegular t) (hcl : ∀ t ∈ R, Search.ClosedAt c p R t)
    (hne : R ≠ []) (ht : c.IsRegular t) : t ∈ R := by
  obtain ⟨t₀, ht₀⟩ := List.exists_mem_of_ne_nil R hne
  obtain ⟨-, v, hv⟩ := hc.isRegular_iff.mp (hreg t₀ ht₀)
  obtain ⟨htc, w, hw⟩ := hc.isRegular_iff.mp ht
  have hmem : t.cells ∈ { T | ∃ t ∈ R, t.cells = T } := by
    refine mem_of_closed hc.span (c.level_pos ℚ) ?_ ⟨t₀, ht₀, rfl⟩ hv hw
    rintro _ ⟨t, htR, rfl⟩ u hu
    obtain ⟨forms, hforms, hwf, hfound⟩ := findsAcross_neighbours (p := p) hc (hreg t htR)
    refine ⟨formSet forms, hwf.cutsOut hc (hc.isRegular_iff.mp (hreg t htR)).1 hu, ?_⟩
    intro g q hb
    obtain ⟨wall, hwall, rfl⟩ := mem_formSet.mp hb.mem
    obtain ⟨k, hk⟩ := List.mem_iff_getElem?.mp hwall
    have hflip := hfound.all (hcl t htR).1 (wall, k) (List.mem_zipIdx_iff_getElem?.mpr hk)
      (hfind.wallPoint_ne_none hc (hreg t htR) hforms hwf hk hb)
    exact ⟨_, (hcl t htR).2 _ hflip, cells_flip (hwf.length hc wall hwall)⟩
  obtain ⟨t', ht', he⟩ := hmem
  exact (hc.isRegular_iff.mp (hreg t' ht')).1.ext htc he ▸ ht'

end Configuration

namespace Configuration

/-! ## Facets of a configuration -/

/-- The products of the facets with the points are words. -/
def FacetsFit (c : Configuration) : Prop :=
  ∀ f ∈ c.facets, ∀ q ∈ c.points, isWord (dotInt f.normal q) = true

/-- Facets that were found support the points if their products are words. -/
theorem IsFull.supported {c : Configuration} (hc : c.IsFull) {facets : Polytope.FacetProgram}
    (hrange : c.dim ≠ 1 → ∀ l ∈ facets c.dim c.points, ∀ i ∈ l, i < c.size) (hfit : c.FacetsFit)
    (h : (Polytope.ofPoints c.dim c.points).facets facets = .ok c.facets) : c.Supported :=
  Polytope.supports_of_mem_facets h hrange hc.length hfit

/-! ## A square -/

/-- The four corners of a square with lattice points inside, and its sides. -/
def wideSquare : Configuration :=
  ⟨[[0, 0], [4, 0], [0, 4], [4, 4]], 2, [⟨[0, -1], 0⟩, ⟨[-1, 0], 0⟩, ⟨[1, 0], 4⟩, ⟨[0, 1], 4⟩]⟩

/-- The two triangles of the square along the diagonal through its second and third corner. -/
def falling : Triangulation := [[0, 1, 2], [1, 2, 3]]

/-- Those along the diagonal through its first and last corner. -/
def rising : Triangulation := [[0, 1, 3], [0, 2, 3]]

/-- How far the ends of one diagonal lie above those of the other one. -/
def bend (w : Vec) : ℚ := entry w 0 - entry w 1 - entry w 2 + entry w 3

theorem heightsAbove_wideSquare (w : Vec) :
    wideSquare.heightsAbove w [0, 1, 2] = some [bend w] ∧
    wideSquare.heightsAbove w [0, 1, 3] = some [-bend w] ∧
    wideSquare.heightsAbove w [0, 2, 3] = some [-bend w] ∧
    wideSquare.heightsAbove w [1, 2, 3] = some [bend w] := by
  have hrow : ∀ σ j v, wideSquare.others σ = [j] →
      ((wideSquare.inverse σ).map fun inv => wideSquare.coordinatesBy inv j) = some v →
      wideSquare.heightsAbove w σ = some [entry w j - dot v (σ.map (entry w))] := by
    intro σ j v hj hv
    obtain ⟨inv, hinv, rfl⟩ := Option.map_eq_some_iff.mp hv
    rw [heightsAbove, hinv, hj]
    rfl
  refine ⟨?_, ?_, ?_, ?_⟩
  · rw [hrow _ 3 [-1, 1, 1] (by decide) (by decide_cbv)]
    simp only [dot, List.map_cons, List.map_nil, bend]
    ring_nf
  · rw [hrow _ 2 [1, -1, 1] (by decide) (by decide_cbv)]
    simp only [dot, List.map_cons, List.map_nil, bend]
    ring_nf
  · rw [hrow _ 1 [1, -1, 1] (by decide) (by decide_cbv)]
    simp only [dot, List.map_cons, List.map_nil, bend]
    ring_nf
  · rw [hrow _ 0 [1, 1, -1] (by decide) (by decide_cbv)]
    simp only [dot, List.map_cons, List.map_nil, bend]
    ring_nf

theorem subdivision_wideSquare {w : Vec} {t : Triangulation}
    (h : wideSquare.subdivision w = some t) : t = falling ∨ t = rising := by
  obtain ⟨h012, h013, h023, h123⟩ := heightsAbove_wideSquare w
  rw [subdivision, show wideSquare.simplices = [[0, 1, 2], [0, 1, 3], [0, 2, 3], [1, 2, 3]] by
    decide] at h
  simp only [lowerCells, h012, h013, h023, h123, List.any_cons, List.any_nil, Bool.or_false,
    decide_eq_true_eq, Left.neg_neg_iff, neg_eq_zero] at h
  rcases lt_trichotomy (bend w) 0 with hlt | h0 | hlt
  · simp [hlt, hlt.ne, hlt.not_gt] at h
    exact .inr h.symm
  · simp [h0] at h
  · simp [hlt, hlt.ne', hlt.not_gt] at h
    exact .inl h.symm

theorem walls_wideSquare : wideSquare.walls falling = .ok [[1, -1, -1, 1]] ∧
    wideSquare.walls rising = .ok [[-1, 1, 1, -1]] := ⟨by cbv, by cbv⟩

theorem flip_wideSquare : falling.flip [1, -1, -1, 1] = rising ∧
    rising.flip [-1, 1, 1, -1] = falling := ⟨by cbv, by cbv⟩

theorem wallPoint_wideSquare :
    ∀ g ∈ ([([1, -1, -1, 1], [-1, 1, 1, -1]), ([-1, 1, 1, -1], [1, -1, -1, 1])] : List (Vec × Vec)),
      wideSquare.wallPoint g.1 [] = some [-1, -1, -1, -1] ∧
      crosses [-1, -1, -1, -1] g.1 [g.2] (mkRat 1 8) maxHalvings = true ∧
      (proposeWallPoint 4 g.1 []).any (fun q => decide (wallSlack < q.slack)) = true := by
  decide +kernel

theorem neighbours_wideSquare : wideSquare.neighbours falling = ([rising], none) ∧
    wideSquare.neighbours rising = ([falling], none) := by
  obtain ⟨hfalling, hrising⟩ := walls_wideSquare
  obtain ⟨hflip, hflip'⟩ := flip_wideSquare
  obtain ⟨hpoint, hcross, -⟩ := wallPoint_wideSquare (_, _) (.head _)
  obtain ⟨hpoint', hcross', -⟩ := wallPoint_wideSquare (_, _) (.tail _ (.head _))
  constructor
  · have hacross : wideSquare.across falling [[1, -1, -1, 1]] 0 [1, -1, -1, 1] =
        .ok (some rising) := by
      simp only [across, List.eraseIdx_zero, List.tail_cons, Programs.exact, hpoint, hflip, hrising]
      exact if_pos hcross
    rw [Configuration.neighbours, hfalling]
    simp [acrossAll, hacross]
  · have hacross : wideSquare.across rising [[-1, 1, 1, -1]] 0 [-1, 1, 1, -1] =
        .ok (some falling) := by
      simp only [across, List.eraseIdx_zero, List.tail_cons, Programs.exact, hpoint', hflip', hfalling]
      exact if_pos hcross'
    rw [Configuration.neighbours, hrising]
    simp [acrossAll, hacross]

theorem initial_wideSquare : wideSquare.initial 0 = .ok falling := by
  have hheights : ((Twister.ofSeed 0).heights 4).1 =
      [906691060, 413654000, 813847340, 955892129] := by decide +kernel
  have hproposed : proposeCells wideSquare [906691060, 413654000, 813847340, 955892129] =
      [⟨[0, 1, 2], by decide⟩, ⟨[1, 2, 3], by decide⟩] := by decide +kernel
  have hcells : wideSquare.proposedCells [⟨[0, 1, 2], by decide⟩, ⟨[1, 2, 3], by decide⟩] =
      falling := by cbv
  have hlower : wideSquare.lowerHull [906691060, 413654000, 813847340, 955892129] =
      some falling := by
    rw [lowerHull, if_pos (by decide), hproposed, hcells]
    decide +kernel
  rw [initial, initialFrom]
  simp only [show wideSquare.size = 4 from rfl, hheights]
  simp only [List.map_cons, List.map_nil, Int.cast_natCast, Nat.cast_ofNat]
  rw [hlower]

theorem isFull_wideSquare : wideSquare.IsFull := by
  obtain ⟨inv, h⟩ := Option.isSome_iff_exists.mp
    (show (wideSquare.inverse [0, 1, 2]).isSome = true by decide_cbv)
  exact isFull_of_inverse (by decide) (by decide) h

theorem facets_wideSquare :
    (Polytope.ofPoints 2 wideSquare.points).facets = .ok wideSquare.facets := by cbv

theorem facetsFit_wideSquare : wideSquare.FacetsFit := by
  intro f hf q hq
  revert f q
  decide

theorem findsWalls_wideSquare : wideSquare.FindsWalls proposeWallPoint := by
  have hfind : ∀ wall ∈ ([[1, -1, -1, 1], [-1, 1, 1, -1]] : List Vec), ∃ q,
      proposeWallPoint 4 wall [] = some q ∧ wallSlack < q.slack := by
    intro wall hwall
    have hany : (proposeWallPoint 4 wall []).any (fun q => decide (wallSlack < q.slack)) = true := by
      rcases List.mem_pair.mp hwall with rfl | rfl
      · exact (wallPoint_wideSquare (_, _) (.head _)).2.2
      · exact (wallPoint_wideSquare (_, _) (.tail _ (.head _))).2.2
    obtain ⟨q, hq, hslack⟩ := (Option.any_eq_true _ _).mp hany
    exact ⟨q, hq, of_decide_eq_true hslack⟩
  rintro t forms k wall ⟨w, -, ht⟩ hforms hk -
  have hone : ∃ g ∈ ([[1, -1, -1, 1], [-1, 1, 1, -1]] : List Vec), forms = [g] := by
    rcases subdivision_wideSquare ht with rfl | rfl
    · exact ⟨_, by simp, Except.ok.inj (hforms.symm.trans walls_wideSquare.1)⟩
    · exact ⟨_, by simp, Except.ok.inj (hforms.symm.trans walls_wideSquare.2)⟩
  obtain ⟨g, hg, rfl⟩ := hone
  obtain ⟨rfl, rfl⟩ : k = 0 ∧ g = wall := by
    cases k with
    | zero => exact ⟨rfl, by simpa using hk⟩
    | succ k => simp at hk
  obtain ⟨q, hq, hslack⟩ := hfind g hg
  exact ⟨q, hq, hslack, by simp⟩

end Configuration

theorem Polytope.facets_ne_notCovered (p : Polytope) (program : FacetProgram) (j : ℤ) :
    p.facets program ≠ .error (.notCovered j) := by
  have hword : ∀ x : ℤ, toWord x ≠ .error (.notCovered j) := fun x => by
    rw [toWord]
    split <;> simp [fail]
  have hstored : ∀ f : Facet, f.stored ≠ .error (.notCovered j) := fun f h => by
    rcases bind_eq_error.mp h with h | ⟨_, -, h⟩
    · exact mapM_ne_error hword _ h
    · rcases bind_eq_error.mp h with h | ⟨_, -, h⟩
      · exact hword _ h
      · cases h
  rw [facets]
  split
  · simp
  split
  · simp [fail]
  split
  · exact mapM_ne_error hstored _
  · intro h
    rcases bind_eq_error.mp h with h | ⟨_, -, h⟩
    · refine foldlM_ne_error (fun acc s _ h => ?_) h
      rw [Polytope.addThrough] at h
      split at h
      · cases h
      · rcases bind_eq_error.mp h with h | ⟨_, -, h⟩
        · rcases bind_eq_error.mp h with h | ⟨_, -, h⟩
          · exact mapM_ne_error hword _ h
          · dsimp only at h
            split at h
            · cases h
            · split at h <;> cases h
        · cases h
    · exact mapM_ne_error hstored _ h

namespace Search

open Orthant.Configuration

variable {c : Configuration} {s : Search} {points : List (List ℤ)} {seed : Except Error ℤ}
  {hull : HullProgram} {facets : Polytope.FacetProgram}

/-! ## Searches from points -/

theorem ofPoints_eq_ok (h : Search.ofPoints points seed hull facets = .ok (c, s)) :
    c.points = points ∧ c.dim = (points.headD []).length ∧
      (Polytope.ofPoints c.dim c.points).facets facets = .ok c.facets ∧
      ∃ n t, c.initial n hull = .ok t ∧ s = .start t := by
  rw [Search.ofPoints] at h
  split at h
  · cases h
  obtain ⟨c', hc, h⟩ := bind_eq_ok.mp h
  obtain ⟨n, hn, h⟩ := bind_eq_ok.mp h
  obtain ⟨t, ht, h⟩ := bind_eq_ok.mp h
  cases h
  obtain ⟨fs, hfs, hc⟩ := bind_eq_ok.mp hc
  cases hc
  exact ⟨rfl, rfl, hfs, n, t, ht, rfl⟩

theorem initialFrom_ne_notCovered (rng : Twister) (fuel : ℕ) (j : ℤ) :
    c.initialFrom hull rng fuel ≠ .error (.notCovered j) := by
  induction fuel generalizing rng with
  | zero => simp [initialFrom]
  | succ fuel ih =>
    rw [initialFrom]
    dsimp only
    split
    · simp
    · split
      · simp
      · exact ih _

theorem ofPoints_ne_notCovered (points : List (List ℤ)) (seed : ℤ) (hull : HullProgram)
    (facets : Polytope.FacetProgram) (j : ℤ) :
    Search.ofPoints points (.ok seed) hull facets ≠ .error (.notCovered j) := by
  rw [Search.ofPoints]
  split
  · simp
  intro h
  rcases bind_eq_error.mp h with h | ⟨c, -, h⟩
  · rcases bind_eq_error.mp h with h | ⟨_, -, h⟩
    · exact Polytope.facets_ne_notCovered _ facets j h
    · cases h
  · rcases bind_eq_error.mp h with h | ⟨n, -, h⟩
    · cases h
    · rcases bind_eq_error.mp h with h | ⟨_, -, h⟩
      · exact initialFrom_ne_notCovered _ _ j h
      · cases h

theorem exists_start (h : Search.ofPoints points seed hull facets = .ok (c, s)) (hc : c.IsFull)
    (hhull : c.OneSided ∨ hull = proposeCells) : ∃ t, c.IsRegular t ∧ s = .start t := by
  obtain ⟨-, -, -, n, t, ht, rfl⟩ := ofPoints_eq_ok h
  exact ⟨t, isRegular_of_initialFrom hc hhull ht, rfl⟩

/-- Whatever is proposed for facets, hulls and walls, every triangulation that is handed out is the
subdivision at some heights, and no point is ever found uncovered. The facets need not be complete,
but the products of those that are found have to be words. -/
theorem regular_of_run (points : List (List ℤ)) (seed : ℤ) (p : Programs)
    (facets : Polytope.FacetProgram) (b : Bounds) (clock : Clock) (fuel : ℕ) :
    (∀ j, Search.ofPoints points (.ok seed) p.hull facets ≠ .error (.notCovered j)) ∧
      ∀ c s, Search.ofPoints points (.ok seed) p.hull facets = .ok (c, s) → c.IsFull →
        (∀ l ∈ facets c.dim c.points, ∀ i ∈ l, i < c.size) → c.FacetsFit →
          (∀ t ∈ (s.run c b clock fuel p).1, c.IsRegular t) ∧
            ∀ j, (s.run c b clock fuel p).2 ≠ .failed (.notCovered j) := by
  refine ⟨ofPoints_ne_notCovered points seed p.hull facets, fun c s h hc hrange hfit => ?_⟩
  have hsup := hc.supported (fun _ => hrange) hfit (ofPoints_eq_ok h).2.2.1
  obtain ⟨t, ht, rfl⟩ := exists_start h hc (.inl hsup.oneSided)
  exact (sound_start ht).run hc b clock fuel p

theorem ofPoints_wideSquare : Search.ofPoints wideSquare.points (.ok 0) =
    .ok (wideSquare, .start falling) := by
  have hdim : affineDimension wideSquare.points = ((wideSquare.points.headD []).length : ℤ) := by
    decide_cbv
  rw [Search.ofPoints, if_neg (not_not.mpr hdim)]
  exact bind_eq_ok.mpr ⟨wideSquare, bind_eq_ok.mpr ⟨_, facets_wideSquare, rfl⟩,
    bind_eq_ok.mpr ⟨0, rfl, bind_eq_ok.mpr ⟨_, initial_wideSquare, rfl⟩⟩⟩

/-- A search of the square that is not stopped hands out its two triangulations. -/
theorem next_wideSquare {b : Bounds} {clock : Clock} (h1 : b.refuse clock 1 = .none)
    (h2 : b.refuse clock 2 = .none) :
    (Search.start falling).next wideSquare b clock =
      .found falling ⟨[falling], [], 1, some falling⟩ ∧
    (⟨[falling], [], 1, some falling⟩ : Search).next wideSquare b clock =
      .found rising ⟨[rising, falling], [], 2, some rising⟩ ∧
    (⟨[rising, falling], [], 2, some rising⟩ : Search).next wideSquare b clock = .finished 2 := by
  obtain ⟨hfalling, hrising⟩ := neighbours_wideSquare
  refine ⟨?_, ?_, ?_⟩
  · simp [Search.next, expand, Search.start, h1]
  · have henqueue : [rising].foldl enqueue (⟨[falling], [], 1, some falling⟩ : Search) =
        ⟨[rising, falling], [rising], 1, some falling⟩ := rfl
    simp only [Search.next, expand, hfalling, henqueue, Nat.reduceAdd, h2]
  · rw [Search.next, expand]
    simp only [hrising]
    rfl

theorem run_wideSquare (clock : Clock) : (Search.start falling).run wideSquare .none clock 3 =
    ([falling, rising], .finished 2) := by
  obtain ⟨hfirst, hsecond, hend⟩ := @next_wideSquare .none clock rfl rfl
  simp only [Search.run, hfirst, hsecond, hend]

theorem regular_of_run_wideSquare : wideSquare.IsFull ∧ wideSquare.FacetsFit ∧
    Search.ofPoints wideSquare.points (.ok 0) = .ok (wideSquare, .start falling) ∧
    wideSquare.IsRegular falling ∧ wideSquare.IsRegular rising := by
  have hreg := ((regular_of_run wideSquare.points 0 .exact Polytope.facetSimplices .none (fun _ => 0)
    3).2 _ _ ofPoints_wideSquare isFull_wideSquare (fun _ => Polytope.lt_of_mem_facetSimplices)
      facetsFit_wideSquare).1
  rw [run_wideSquare] at hreg
  exact ⟨isFull_wideSquare, facetsFit_wideSquare, ofPoints_wideSquare, hreg _ (by simp),
    hreg _ (by simp)⟩

/-- What a search hands out to its end, if every wall that bounds a triangulation is found. -/
theorem mem_run_iff {p : Programs} (h : Search.ofPoints points seed p.hull facets = .ok (c, s))
    (hc : c.IsFull) (hside : c.OneSided) (hfind : c.FindsWalls p.wall)
    {clock : Clock} {fuel n : ℕ} {ts : List Triangulation}
    (hrun : s.run c .none clock fuel p = (ts, .finished n)) :
    ts.Nodup ∧ n = ts.length ∧ ∀ t, t ∈ ts ↔ c.IsRegular t := by
  obtain ⟨t₀, ht₀, rfl⟩ := exists_start h hc (.inl hside)
  have hreg := ((sound_start ht₀).run hc .none clock fuel p).1
  rw [hrun] at hreg
  obtain ⟨hnd, hn, hseen, hcl⟩ := (explored_start (c := c) (p := p) t₀).run hrun
  rw [List.nil_append] at hnd hn hseen hcl
  refine ⟨hnd, hn, fun t => ⟨hreg t, fun ht => ?_⟩⟩
  have hmem : t₀ ∈ ts := hseen t₀ (by simp [Search.start])
  exact mem_of_closedAt hc hfind hreg hcl (List.ne_nil_of_mem hmem) ht

theorem configuration_eq {c' : Configuration} {s' : Search} {seed' : Except Error ℤ}
    (h : Search.ofPoints points seed hull facets = .ok (c, s))
    (h' : Search.ofPoints points seed' hull facets = .ok (c', s')) : c' = c := by
  obtain ⟨hp, hd, hf, -⟩ := ofPoints_eq_ok h
  obtain ⟨hp', hd', hf', -⟩ := ofPoints_eq_ok h'
  obtain ⟨ps, d, fs⟩ := c
  obtain ⟨ps', d', fs'⟩ := c'
  dsimp only at *
  subst hp hp' hd hd'
  rw [Except.ok.inj (hf'.symm.trans hf)]

/-- A search without bounds that comes to its end has handed out every regular triangulation, each
once, if the sets proposed for facets lie on facets and every wall that bounds a triangulation is
found. So the seed does not matter. -/
theorem run_eq_all_regular {p : Programs}
    (h : Search.ofPoints points seed p.hull facets = .ok (c, s)) (hc : c.IsFull)
    (hfacets : c.dim ≠ 1 → Polytope.OnFacets c.dim c.points (facets c.dim c.points))
    (hfind : c.FindsWalls p.wall)
    {clock : Clock} {fuel n : ℕ} {ts : List Triangulation}
    (hrun : s.run c .none clock fuel p = (ts, .finished n)) :
    ts.Nodup ∧ (∀ t, t ∈ ts ↔ c.IsRegular t) ∧
      ∀ seed' c' s' clock' fuel' n' ts',
        Search.ofPoints points seed' p.hull facets = .ok (c', s') →
          s'.run c' .none clock' fuel' p = (ts', .finished n') → ts'.Perm ts := by
  have hside := hc.oneSided hfacets (ofPoints_eq_ok h).2.2.1
  obtain ⟨hnd, -, hmem⟩ := mem_run_iff h hc hside hfind hrun
  refine ⟨hnd, hmem, fun seed' c' s' clock' fuel' n' ts' h' hrun' => ?_⟩
  obtain rfl := configuration_eq h h'
  obtain ⟨hnd', -, hmem'⟩ := mem_run_iff h' hc hside hfind hrun'
  exact (List.perm_ext_iff_of_nodup hnd' hnd).mpr fun t => (hmem' t).trans (hmem t).symm

theorem run_eq_all_regular_wideSquare : wideSquare.FindsWalls Programs.exact.wall ∧
    Search.ofPoints wideSquare.points (.ok 0) = .ok (wideSquare, .start falling) ∧
    ((Search.start falling).run wideSquare .none (fun _ => 0) 3).1 = [falling, rising] ∧
    ∀ t, t ∈ [falling, rising] ↔ wideSquare.IsRegular t := by
  have hspan := (isFull_iff_affineSpan (c := wideSquare) (by decide)).mp isFull_wideSquare
  have hfacets : Polytope.FindsFacets 2 wideSquare.points _ :=
    Polytope.findsFacets_facetSimplices two_pos (by decide) hspan
  have hrun := run_wideSquare fun _ => 0
  exact ⟨findsWalls_wideSquare, ofPoints_wideSquare, by rw [hrun],
    (run_eq_all_regular (p := .exact) ofPoints_wideSquare isFull_wideSquare
      (fun _ => hfacets.toOnFacets) findsWalls_wideSquare hrun).2.1⟩

end Search

end Orthant
