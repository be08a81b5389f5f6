import Mathlib
import Orthant.Proofs.Lattice.Grid
import Orthant.Proofs.Separation.Scan

/-! # Fewer negative exponents

A simplex that separates some of the negative exponents separates all of them, whatever computes its
coordinates. So a search that finds no separating cell finds none for fewer exponents either, and its
answer depends only on which exponents there are.
-/

namespace Orthant

/-- The number of coordinates of the points of a grid. A single row is one point. -/
def Grid.width (g : Grid) : ℕ :=
  match g.shape with
  | _ :: width :: _ => width
  | _ => g.entries.length

namespace Separation

variable {x r : Bool} {negative fewer : List (List ℤ)} {program : CoordinateProgram}

/-! ## One simplex -/

section Simplex

variable {t : Tolerance} {tol : Except Error Tolerance} {k n : ℕ} {ls ls' : List (Option Vec)}
  {vertices : List Vec}

/-- A separation in words: one of the points is contained and one is not, and each coordinate is away
from zero at one of the contained points. -/
theorem separatesBy_iff : separatesBy t k ls = true ↔
    (∃ l, some l ∈ ls ∧ contains t l = true) ∧
    (∃ o ∈ ls, ∀ l, o = some l → contains t l = false) ∧
    ∀ i < k, ∃ l, some l ∈ ls ∧ contains t l = true ∧ vanishes t (entry l i) = false := by
  have hmem : ∀ l, l ∈ (ls.filterMap id).filter (contains t) ↔
      some l ∈ ls ∧ contains t l = true := by simp
  have hlength : ((ls.filterMap id).filter (contains t)).length = ls.length ↔
      ∀ o ∈ ls, ∃ l, o = some l ∧ contains t l = true := by
    rw [List.filter_filterMap, List.filterMap_length_eq_length]
    refine forall₂_congr fun o _ => ?_
    cases o <;> simp
  unfold separatesBy shareFacet
  generalize (ls.filterMap id).filter (contains t) = contained at hmem hlength ⊢
  simp only [Bool.and_eq_true, Bool.not_eq_true', bne_iff_ne, ne_eq, hlength, and_assoc]
  refine and_congr ?_ (and_congr ?_ ?_)
  · simp only [List.isEmpty_eq_false_iff_exists_mem, hmem]
  · simp
  · simp [hmem]

theorem separatesBy_mono (hsub : ∀ o ∈ ls', o ∈ ls) (h : separatesBy t k ls' = true) :
    separatesBy t k ls = true := by
  obtain ⟨⟨l, hl, hin⟩, ⟨o, ho, hout⟩, hfacet⟩ := separatesBy_iff.mp h
  refine separatesBy_iff.mpr ⟨⟨l, hsub _ hl, hin⟩, ⟨o, hsub _ ho, hout⟩, ?_⟩
  intro i hi
  obtain ⟨l, hl, hin, hfar⟩ := hfacet i hi
  exact ⟨l, hsub _ hl, hin, hfar⟩

theorem separatesBy_of_subset (hsub : ∀ o ∈ ls', o ∈ ls) (hall : x = true → ∀ o ∈ ls, o ∈ ls')
    (h : separatesBy t k ls = x) : separatesBy t k ls' = x := by
  cases x with
  | false =>
    by_contra hne
    rw [separatesBy_mono hsub (by simpa using hne)] at h
    cases h
  | true => exact separatesBy_mono (hall rfl) h

/-- The test of a simplex goes through when all points have coordinates. -/
theorem separates_cons_eq_ok {locate : Point → Except Error (Option Vec)} {b : List ℤ}
    {rest : List (List ℤ)} (hne : vertices.isEmpty = false)
    (hprogram : program n vertices = .ok (some locate)) :
    separates tol n vertices (.ok ((b :: rest).map fun b => .ok (pointOf b))) program = .ok x ↔
      ∃ t ls, tol = .ok t ∧ (b :: rest).mapM (fun b => locate (pointOf b)) = .ok ls ∧
        separatesBy t vertices.length ls = x := by
  have hrest : (rest.map fun b => (.ok (pointOf b) : Except Error Point)).mapM
      (fun p => do locate (← p)) = rest.mapM fun b => locate (pointOf b) := by
    rw [List.mapM_map]
    rfl
  have hsteps : separates tol n vertices (.ok ((b :: rest).map fun b => .ok (pointOf b))) program =
      (locate (pointOf b)).bind fun first => tol.bind fun t =>
        (rest.mapM fun b => locate (pointOf b)).bind fun others =>
          .ok (separatesBy t vertices.length (first :: others)) := by
    rw [separates, hne, hprogram, ← hrest]
    rfl
  rw [hsteps, List.mapM_cons]
  constructor
  · intro h
    obtain ⟨first, hfirst, h⟩ := bind_eq_ok.mp h
    obtain ⟨t, ht, h⟩ := bind_eq_ok.mp h
    obtain ⟨others, hothers, h⟩ := bind_eq_ok.mp h
    refine ⟨t, first :: others, ht, ?_, Except.ok.inj h⟩
    exact bind_eq_ok.mpr ⟨first, hfirst, bind_eq_ok.mpr ⟨others, hothers, rfl⟩⟩
  · rintro ⟨t, ls, ht, hls, hx⟩
    obtain ⟨first, hfirst, hls⟩ := bind_eq_ok.mp hls
    obtain ⟨others, hothers, hls⟩ := bind_eq_ok.mp hls
    cases hls
    exact bind_eq_ok.mpr ⟨first, hfirst, bind_eq_ok.mpr ⟨t, ht,
      bind_eq_ok.mpr ⟨others, hothers, congrArg Except.ok hx⟩⟩⟩

/-- A simplex that does not separate the negative exponents does not separate some of them either. One
that does separates the same exponents in another order. -/
theorem separates_of_subset (hsub : ∀ b ∈ fewer, b ∈ negative)
    (hall : x = true → ∀ b ∈ negative, b ∈ fewer)
    (h : separates tol n vertices (.ok (negative.map fun b => .ok (pointOf b))) program = .ok x) :
    separates tol n vertices (.ok (fewer.map fun b => .ok (pointOf b))) program = .ok x := by
  cases hempty : vertices.isEmpty with
  | true =>
    rw [separates, hempty] at h
    cases h
  | false =>
    cases hprogram : program n vertices with
    | error e =>
      rw [separates, hempty, hprogram] at h
      cases h
    | ok located =>
      cases located with
      | none =>
        rw [separates, hempty, hprogram] at h ⊢
        exact h
      | some locate =>
        cases negative with
        | nil =>
          obtain rfl := List.eq_nil_iff_forall_not_mem.mpr fun b hb =>
            List.not_mem_nil (hsub b hb)
          exact h
        | cons b rest =>
          obtain ⟨t, ls, ht, hls, hx⟩ := (separates_cons_eq_ok hempty hprogram).mp h
          cases fewer with
          | nil =>
            have hfalse : x = false := by
              by_contra hne
              exact List.not_mem_nil (hall (by simpa using hne) b List.mem_cons_self)
            rw [separates, hempty, hprogram, hfalse]
            rfl
          | cons b' rest' =>
            obtain ⟨ls', hls', hmem⟩ := exists_mapM_of_subset hls hsub
            refine (separates_cons_eq_ok hempty hprogram).mpr ⟨t, ls', ht, hls', ?_⟩
            exact separatesBy_of_subset hmem (fun htrue => mapM_subset hls' hls (hall htrue)) hx

end Simplex

/-! ## All triangulations -/

section Search

variable {tol : Value} {n : ℕ} {positive : List (List ℤ)} {cfg : Config} {clock : Clock}
  {p : Configuration.Programs}

theorem separatingCell?_of_subset {t : Triangulation} {o : Option Cell}
    (hsub : ∀ b ∈ fewer, b ∈ negative) (hall : o ≠ none → ∀ b ∈ negative, b ∈ fewer)
    (h : separatingCell? tol n positive negative t program = .ok o) :
    separatingCell? tol n positive fewer t program = .ok o := by
  induction t with
  | nil => exact h
  | cons σ t ih =>
    obtain ⟨found, hσ, h⟩ := bind_eq_ok.mp h
    have hσ' : found = false ∨ o ≠ none → separates (Tolerance.ofValue tol) n
        (σ.map fun i => toVec (positive.getD i []))
          (.ok (fewer.map fun b => .ok (pointOf b))) program = .ok found := by
      intro hcases
      refine separates_of_subset hsub (fun htrue => hall ?_) hσ
      exact hcases.resolve_left (by simp [htrue])
    cases found with
    | true =>
      obtain rfl : some σ = o := by simpa using h
      exact bind_eq_ok.mpr ⟨true, hσ' (.inr nofun), rfl⟩
    | false => exact bind_eq_ok.mpr ⟨false, hσ' (.inl rfl), ih h⟩

theorem numberedCell_of_subset {t : Triangulation} {k : ℕ} {o : Option (ℕ × Cell)}
    (hsub : ∀ b ∈ fewer, b ∈ negative) (hall : o ≠ none → ∀ b ∈ negative, b ∈ fewer)
    (h : (do .ok ((← separatingCell? tol n positive negative t program).map fun σ => (k, σ))) =
      Except.ok o) :
    (do .ok ((← separatingCell? tol n positive fewer t program).map fun σ => (k, σ))) =
      Except.ok o := by
  obtain ⟨found, hfound, h⟩ := bind_eq_ok.mp h
  have he : found.map (fun σ => (k, σ)) = o := Except.ok.inj h
  refine bind_eq_ok.mpr ⟨found, separatingCell?_of_subset hsub (fun hne => hall ?_) hfound, h⟩
  rw [← he]
  simpa using hne

end Search

end Separation

/-- A search goes the same way under another test that finds nothing where the first one finds nothing
and finds the same in the end. -/
theorem Search.firstSome_of_tests {α : Type} {c : Configuration} {b : Bounds} {clock : Clock}
    {p : Configuration.Programs} {test test' : ℕ → Triangulation → Except Error (Option α)}
    {found : α ⊕ Search.Ending} (hnone : ∀ k t, test k t = .ok none → test' k t = .ok none)
    (hsome : ∀ k t a, found = .inl a → test k t = .ok (some a) → test' k t = .ok (some a))
    {s : Search} {fuel : ℕ} (h : s.firstSome c b clock test fuel p = .ok found) :
    s.firstSome c b clock test' fuel p = .ok found := by
  induction fuel generalizing s with
  | zero => exact h
  | succ fuel ih =>
    unfold firstSome at h ⊢
    cases hnext : s.next c b clock p with
    | finished k =>
      rw [hnext] at h
      exact h
    | failed e =>
      rw [hnext] at h
      exact h
    | found t rest =>
      rw [hnext] at h
      obtain ⟨o, ho, h⟩ := bind_eq_ok.mp h
      cases o with
      | none => exact bind_eq_ok.mpr ⟨none, hnone _ _ ho, ih h⟩
      | some a => exact bind_eq_ok.mpr ⟨some a, hsome _ _ a (Except.ok.inj h).symm ho, h⟩

namespace Separation

section Verdict

variable {n : ℕ} {positive : List (List ℤ)} {cfg : Config} {clock : Clock}
  {p : Configuration.Programs} {facets : Polytope.FacetProgram}

theorem searchCells_of_subset (hsub : ∀ b ∈ fewer, b ∈ negative)
    (hall : r = false → ∀ b ∈ negative, b ∈ fewer)
    (h : (searchCells cfg clock n positive negative p program facets).2 = .ok r) :
    (searchCells cfg clock n positive fewer p program facets).2 = .ok r := by
  unfold searchCells at h ⊢
  cases hstart : Search.ofPoints positive (.ok 0) p.hull facets with
  | error e =>
    rw [hstart] at h
    cases h
  | ok start =>
    rw [hstart] at h
    dsimp only at h ⊢
    generalize hfound : start.2.firstSome start.1 cfg.bounds clock (fun number t => do
      .ok ((← separatingCell? cfg.tol n positive negative t program).map fun σ => (number, σ)))
      start.1.searchFuel p = found at h
    have hsame : ∀ a, found = .ok a → (∀ b, a = .inl b → r = false) →
        start.2.firstSome start.1 cfg.bounds clock (fun number t => do
          .ok ((← separatingCell? cfg.tol n positive fewer t program).map fun σ => (number, σ)))
          start.1.searchFuel p = .ok a := by
      rintro a rfl hinl
      refine Search.firstSome_of_tests (fun k t => ?_) (fun k t a' ha => ?_) hfound
      · exact numberedCell_of_subset hsub fun hne => absurd rfl hne
      · exact numberedCell_of_subset hsub fun _ => hall (hinl a' ha)
    cases found with
    | error e => cases h
    | ok a =>
      rw [hsame a rfl ?_]
      · exact h
      · rintro b rfl
        exact (Except.ok.inj h).symm

theorem isNonseparableIn_of_subset {hull : Polytope} (hsub : ∀ b ∈ fewer, b ∈ negative)
    (hall : r = false → ∀ b ∈ negative, b ∈ fewer)
    (h : (isNonseparableIn cfg clock hull negative p program facets).2 = .ok r) :
    (isNonseparableIn cfg clock hull fewer p program facets).2 = .ok r := by
  rw [isNonseparableIn_eq_ok_iff] at h ⊢
  rcases h with h | ⟨hfull, ⟨fs, hfs, b, hb, hout⟩, rfl⟩ | ⟨hfull, hin, h⟩
  · exact .inl h
  · exact .inr (.inl ⟨hfull, ⟨fs, hfs, b, hall rfl b hb, hout⟩, rfl⟩)
  · refine .inr (.inr ⟨hfull, fun hne => ?_, searchCells_of_subset hsub hall h⟩)
    obtain ⟨b, hb⟩ := List.exists_mem_of_ne_nil _ hne
    obtain ⟨fs, hfs, hinside⟩ := hin (List.ne_nil_of_mem (hsub b hb))
    exact ⟨fs, hfs, fun b hb => hinside b (hsub b hb)⟩

end Verdict

/-! ## Lists of exponents -/

section Grid

/-- The answer for what has been read: the hull of the positive exponents with the rows of the
negative ones, none without positive entries. -/
def answerFor (cfg : Config) (clock : Clock) (p : Configuration.Programs)
    (program : CoordinateProgram) (facets : Polytope.FacetProgram) :
    Except Error (Option (Polytope × List (List ℤ))) → Log × Except Error Bool
  | .error e => ([], .error e)
  | .ok none => ([], .ok false)
  | .ok (some (hull, rows)) => isNonseparableIn cfg clock hull rows p program facets

variable {cfg : Config} {clock : Clock} {p : Configuration.Programs}
  {facets : Polytope.FacetProgram}

theorem isNonseparableGrid_eq_ok_iff {g h : Grid} :
    (isNonseparableGrid cfg clock (.ok g) (.ok h) p program facets).2 = .ok r ↔
      (g.entries = [] ∧ r = false) ∨
      (g.entries ≠ [] ∧ ∃ rows hull, h.reshape g.width = .ok rows ∧ Polytope.ofGrid g = .ok hull ∧
        (isNonseparableIn cfg clock hull rows p program facets).2 = .ok r) := by
  have hread : isNonseparableGrid cfg clock (.ok g) (.ok h) p program facets =
      answerFor cfg clock p program facets (if g.entries.isEmpty then .ok none else
        (h.reshape g.width).bind fun rows =>
          (Polytope.ofGrid g).bind fun hull => .ok (some (hull, rows))) := rfl
  rw [hread]
  by_cases hempty : g.entries = []
  · rw [if_pos (by simpa using hempty)]
    simp only [hempty, answerFor, Except.ok.injEq, true_and, ne_eq, not_true, false_and, or_false]
    exact eq_comm
  · rw [if_neg (by simpa using hempty)]
    cases h.reshape g.width with
    | error e => simp [hempty, answerFor, Except.bind]
    | ok rows =>
      cases Polytope.ofGrid g with
      | error e => simp [hempty, answerFor, Except.bind]
      | ok hull => simp [hempty, answerFor, Except.bind]

theorem isWord_of_eq_ok {positive : Except Error Grid}
    (h : (isNonseparableGrid cfg clock positive (Value.ofPoints negative).toGrid p program facets).2 =
      .ok r) : (∃ g, positive = .ok g) ∧ ∀ b ∈ negative, ∀ a ∈ b, isWord a = true := by
  cases positive with
  | error e => cases h
  | ok g =>
    refine ⟨⟨g, rfl⟩, ?_⟩
    cases hgrid : (Value.ofPoints negative).toGrid with
    | error e =>
      rw [hgrid] at h
      cases h
    | ok grid =>
      intro b hb
      exact (toGrid_ofPoints_eq_ok (List.ne_nil_of_mem hb) hgrid).2.2 b hb

theorem isNonseparableGrid_ofPoints {g : Grid} (hlen : ∀ b ∈ negative, b.length = g.width)
    (hwords : ∀ b ∈ negative, ∀ a ∈ b, isWord a = true) :
    (isNonseparableGrid cfg clock (.ok g) (Value.ofPoints negative).toGrid p program facets).2 =
        .ok r ↔
      (g.entries = [] ∧ r = false) ∨
      (g.entries ≠ [] ∧ g.width ≠ 0 ∧ ∃ hull, Polytope.ofGrid g = .ok hull ∧
        (isNonseparableIn cfg clock hull negative p program facets).2 = .ok r) := by
  obtain ⟨shape, hgrid⟩ := toGrid_ofPoints hlen hwords
  rw [hgrid, isNonseparableGrid_eq_ok_iff, reshape_flatten hlen]
  refine or_congr_right (and_congr_right fun _ => ?_)
  by_cases hwidth : g.width = 0
  · simp [hwidth, fail]
  · simp [hwidth]

/-- A yes stays a yes when negative exponents are left out, whatever proposes facets, hulls and walls
and computes the coordinates. Any answer depends only on which negative exponents there are, not on
their order or on how often they stand. -/
theorem isNonseparableGrid_of_subset {positive : Except Error Grid}
    (hlen : ∀ g, positive = .ok g → ∀ b ∈ negative, b.length = g.width) (cfg : Config)
    (clock : Clock) (p : Configuration.Programs) (program : CoordinateProgram)
    (facets : Polytope.FacetProgram) :
    (∀ fewer, (∀ b ∈ fewer, b ∈ negative) →
      (isNonseparableGrid cfg clock positive (Value.ofPoints negative).toGrid p program facets).2 =
        .ok true →
      (isNonseparableGrid cfg clock positive (Value.ofPoints fewer).toGrid p program facets).2 =
        .ok true) ∧
    (∀ same, (∀ b, b ∈ same ↔ b ∈ negative) → ∀ r,
      (isNonseparableGrid cfg clock positive (Value.ofPoints negative).toGrid p program facets).2 =
        .ok r →
      (isNonseparableGrid cfg clock positive (Value.ofPoints same).toGrid p program facets).2 =
        .ok r) := by
  have hkeep : ∀ fewer r, (∀ b ∈ fewer, b ∈ negative) →
      (r = false → ∀ b ∈ negative, b ∈ fewer) →
      (isNonseparableGrid cfg clock positive (Value.ofPoints negative).toGrid p program facets).2 =
        .ok r →
      (isNonseparableGrid cfg clock positive (Value.ofPoints fewer).toGrid p program facets).2 =
        .ok r := by
    intro fewer r hsub hall h
    obtain ⟨⟨g, rfl⟩, hwords⟩ := isWord_of_eq_ok h
    have hlen := hlen g rfl
    rw [isNonseparableGrid_ofPoints hlen hwords] at h
    rw [isNonseparableGrid_ofPoints (fun b hb => hlen b (hsub b hb))
      fun b hb => hwords b (hsub b hb)]
    rcases h with h | ⟨hne, hwidth, hull, hhull, h⟩
    · exact .inl h
    · exact .inr ⟨hne, hwidth, hull, hhull, isNonseparableIn_of_subset hsub hall h⟩
  constructor
  · intro fewer hsub h
    exact hkeep fewer true hsub nofun h
  · intro same hset r h
    exact hkeep same r (fun b => (hset b).mp) (fun _ b => (hset b).mpr) h

theorem isNonseparableGrid_of_subset_wideSquare :
    (isNonseparableGrid ⟨.real (.rational (1 / 1000000000)), true, .none⟩ (fun _ => 0)
      (.ok ⟨[4, 2], [0, 0, 4, 0, 0, 4, 4, 4]⟩) (Value.ofPoints [[1, 2], [2, 2]]).toGrid).2 =
        .ok true ∧
    (isNonseparableGrid ⟨.real (.rational (1 / 1000000000)), true, .none⟩ (fun _ => 0)
      (.ok ⟨[4, 2], [0, 0, 4, 0, 0, 4, 4, 4]⟩) (Value.ofPoints [[1, 2], [1, 2]]).toGrid).2 =
        .ok true := by
  have hboth : (isNonseparableGrid ⟨.real (.rational (1 / 1000000000)), true, .none⟩ (fun _ => 0)
      (.ok ⟨[4, 2], [0, 0, 4, 0, 0, 4, 4, 4]⟩) (Value.ofPoints [[1, 2], [2, 2]]).toGrid).2 =
        .ok true := by
    change (isNonseparable _ _ 2 Configuration.wideSquare.points [[1, 2], [2, 2]]).2 = _
    exact isNonseparable_middle rfl rfl (.inr rfl)
  have hlen : ∀ g : Grid, (.ok ⟨[4, 2], [0, 0, 4, 0, 0, 4, 4, 4]⟩ : Except Error Grid) = .ok g →
      ∀ b ∈ ([[1, 2], [2, 2]] : List (List ℤ)), b.length = g.width := by
    intro g hg
    obtain rfl := Except.ok.inj hg
    decide
  exact ⟨hboth, (isNonseparableGrid_of_subset hlen _ _ .exact numericCoordinates
    Polytope.facetSimplices).1 [[1, 2], [1, 2]] (by decide) hboth⟩

end Grid

end Separation

end Orthant
