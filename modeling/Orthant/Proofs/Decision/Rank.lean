import Mathlib
import Orthant.Decision.Verdict
import Orthant.Proofs.Except
import Orthant.Proofs.Number.Extended

/-! # The certificate that a decision uses

Keys without `nan` are linearly ordered: by `t`, then by the real parts, then by the imaginary parts,
all as extended real numbers. A decision uses the first certified positive certificate of the least
rank and reads nothing else of the others.
-/

namespace Orthant

namespace Certificate

variable {a b : Key} {c : Certificate}

/-! ## Keys in order -/

def Key.IsNumeric (k : Key) : Prop :=
  k.t.isNaN = false ∧ (∀ x ∈ k.re, x.isNaN = false) ∧ ∀ x ∈ k.im, x.isNaN = false

/-- The key as a tuple in lexicographic order; among lists a beginning of another one is smaller. -/
noncomputable def Key.rank (k : Key) : EReal ×ₗ List EReal ×ₗ List EReal :=
  toLex (k.t.extended, toLex (k.re.map Double.extended, k.im.map Double.extended))

theorem sameList_iff {xs ys : List Double} (hxs : ∀ x ∈ xs, x.isNaN = false)
    (hys : ∀ y ∈ ys, y.isNaN = false) :
    sameList xs ys = true ↔ xs.map Double.extended = ys.map Double.extended := by
  induction xs generalizing ys with
  | nil => cases ys <;> simp [sameList]
  | cons x xs ih =>
    cases ys with
    | nil => simp [sameList]
    | cons y ys =>
      obtain ⟨hx, hxs⟩ := List.forall_mem_cons.mp hxs
      obtain ⟨hy, hys⟩ := List.forall_mem_cons.mp hys
      simp [sameList, ih hxs hys, Double.same_iff_extended_eq hx hy]

theorem ltList_iff {xs ys : List Double} (hxs : ∀ x ∈ xs, x.isNaN = false)
    (hys : ∀ y ∈ ys, y.isNaN = false) :
    ltList xs ys = true ↔ xs.map Double.extended < ys.map Double.extended := by
  induction xs generalizing ys with
  | nil => cases ys <;> simp [ltList]
  | cons x xs ih =>
    cases ys with
    | nil => simp [ltList]
    | cons y ys =>
      obtain ⟨hx, hxs⟩ := List.forall_mem_cons.mp hxs
      obtain ⟨hy, hys⟩ := List.forall_mem_cons.mp hys
      rw [ltList, List.map_cons, List.map_cons, List.cons_lt_cons_iff]
      split
      case isTrue h =>
        have he := (Double.same_iff_extended_eq hx hy).mp h
        rw [ih hxs hys, he]
        simp
      case isFalse h =>
        have hne := mt (Double.same_iff_extended_eq hx hy).mpr h
        rw [Double.lt_iff_extended_lt hx hy]
        simp [hne]

theorem Key.lt_iff_rank_lt (ha : a.IsNumeric) (hb : b.IsNumeric) :
    a.lt b = true ↔ a.rank < b.rank := by
  obtain ⟨hat, hare, haim⟩ := ha
  obtain ⟨hbt, hbre, hbim⟩ := hb
  rw [lt, rank, rank, Prod.Lex.toLex_lt_toLex, Prod.Lex.toLex_lt_toLex]
  split
  case isTrue ht =>
    have ht := (Double.same_iff_extended_eq hat hbt).mp ht
    split
    case isTrue hre =>
      have hre := (sameList_iff hare hbre).mp hre
      rw [ltList_iff haim hbim]
      simp [ht, hre]
    case isFalse hre =>
      have hre := mt (sameList_iff hare hbre).mpr hre
      rw [ltList_iff hare hbre]
      simp [ht, hre]
  case isFalse ht =>
    have ht := mt (Double.same_iff_extended_eq hat hbt).mpr ht
    rw [Double.lt_iff_extended_lt hat hbt]
    simp [ht]

theorem Key.t_le_of_rank_le (h : a.rank ≤ b.rank) : a.t.extended ≤ b.t.extended :=
  (Prod.Lex.toLex_le_toLex.mp h).elim (fun h => h.le) fun h => h.1.le

/-! ## Certificates in order -/

def IsEligible (c : Certificate) : Prop := c.positive = true ∧ c.certified = true

/-- The candidate has a `t`, and its coordinates are numbers without `nan`. -/
def IsNumeric (c : Certificate) : Prop :=
  ∃ t x, c.candidate.mapM Value.toComplex = .ok (t :: x) ∧
    ∀ z ∈ t :: x, z.re.isNaN = false ∧ z.im.isNaN = false

def key (c : Certificate) : Key :=
  match c.selectionKey with
  | .ok k => k
  | .error _ => ⟨.nan, [], []⟩

noncomputable def rank (c : Certificate) : EReal ×ₗ List EReal ×ₗ List EReal := c.key.rank

theorem rank_congr {d : Certificate} (h : c.candidate = d.candidate) : c.rank = d.rank := by
  unfold rank key selectionKey tMidpoint
  rw [h]

theorem IsNumeric.spec (h : c.IsNumeric) : c.selectionKey = .ok c.key ∧ c.key.IsNumeric ∧
    ∃ t, c.tMidpoint = .ok t ∧ c.key.t = t.re := by
  obtain ⟨t, x, hz, hnum⟩ := h
  cases hc : c.candidate with
  | nil =>
    rw [hc] at hz
    cases hz
  | cons v rest =>
    rw [hc, List.mapM_cons] at hz
    obtain ⟨t', ht, hz⟩ := bind_eq_ok.mp hz
    obtain ⟨x', hx, hz⟩ := bind_eq_ok.mp hz
    cases hz
    have hmid : c.tMidpoint = .ok t := by rw [tMidpoint, hc]; exact ht
    have hkey : c.selectionKey = .ok ⟨t.re, x.map Complex.re, x.map Complex.im⟩ := by
      rw [selectionKey, hc]
      exact bind_eq_ok.mpr ⟨x, hx, bind_eq_ok.mpr ⟨t, hmid, rfl⟩⟩
    have he : c.key = ⟨t.re, x.map Complex.re, x.map Complex.im⟩ := by rw [key, hkey]
    obtain ⟨ht, hx⟩ := List.forall_mem_cons.mp hnum
    rw [he]
    refine ⟨hkey, ⟨ht.1, ?_, ?_⟩, t, hmid, rfl⟩
    · simpa using fun z hz => (hx z hz).1
    · simpa using fun z hz => (hx z hz).2

end Certificate

namespace Decision

open Certificate

variable {cs : List Certificate} {i : ℕ} {c : Certificate} {method : Method}
  {preferRefined : Bool}

/-! ## The selection -/

/-- The certificate at a place is eligible and has the least rank of the eligible ones; those before
it have a greater one. -/
structure IsSelected (cs : List Certificate) (i : ℕ) (c : Certificate) : Prop where
  get : cs[i]? = some c
  isEligible : c.IsEligible
  least : ∀ (j : ℕ) (d : Certificate), cs[j]? = some d → d.IsEligible → c.rank ≤ d.rank
  first : ∀ j < i, ∀ d : Certificate, cs[j]? = some d → d.IsEligible → c.rank < d.rank

theorem IsSelected.unique {j : ℕ} {d : Certificate} (hc : IsSelected cs i c)
    (hd : IsSelected cs j d) : i = j ∧ c = d := by
  obtain rfl : i = j := by
    rcases lt_trichotomy i j with hij | rfl | hji
    · exact absurd (hd.first i hij c hc.get hc.isEligible) (hc.least j d hd.get hd.isEligible).not_gt
    · rfl
    · exact absurd (hc.first j hji d hd.get hd.isEligible) (hd.least i c hc.get hc.isEligible).not_gt
  exact ⟨rfl, Option.some.inj (hc.get.symm.trans hd.get)⟩

theorem isSelected_head {rest : List Certificate} (hc : c.IsEligible)
    (hrest : ∀ d ∈ rest, ¬ d.IsEligible) : IsSelected (c :: rest) 0 c := by
  refine ⟨rfl, hc, fun j d hget hel => ?_, fun j hj => absurd hj (Nat.not_lt_zero j)⟩
  cases j with
  | zero =>
    obtain rfl := Option.some.inj hget
    exact le_rfl
  | succ j => exact absurd hel (hrest d (List.mem_of_getElem? hget))

theorem IsSelected.of_map {α : Type} {l : List α} {f g : α → Certificate} {a : α}
    (hcandidate : ∀ a ∈ l, (f a).candidate = (g a).candidate)
    (heligible : ∀ a ∈ l, (f a).IsEligible ↔ (g a).IsEligible) (ha : l[i]? = some a)
    (h : IsSelected (l.map f) i (f a)) : IsSelected (l.map g) i (g a) := by
  have hmem := List.mem_of_getElem? ha
  have hplace : ∀ {j : ℕ} {d : Certificate}, (l.map g)[j]? = some d → d.IsEligible →
      ∃ b, (l.map f)[j]? = some (f b) ∧ (f b).IsEligible ∧ (f b).rank = d.rank := by
    intro j d hd hel
    rw [List.getElem?_map] at hd
    obtain ⟨b, hb, rfl⟩ := Option.map_eq_some_iff.mp hd
    have hb' := List.mem_of_getElem? hb
    refine ⟨b, ?_, (heligible b hb').mpr hel, rank_congr (hcandidate b hb')⟩
    rw [List.getElem?_map, hb]
    rfl
  have hrank := rank_congr (hcandidate a hmem)
  constructor
  · rw [List.getElem?_map, ha]
    rfl
  · exact (heligible a hmem).mp h.isEligible
  · intro j d hd hel
    obtain ⟨b, hb, hb', he⟩ := hplace hd hel
    rw [← hrank, ← he]
    exact h.least j _ hb hb'
  · intro j hj d hd hel
    obtain ⟨b, hb, hb', he⟩ := hplace hd hel
    rw [← hrank, ← he]
    exact h.first j hj _ hb hb'

theorem least_eq_first {α : Type} (best : α × Key) (l : List (α × Key))
    (hnum : ∀ d ∈ best :: l, d.2.IsNumeric) :
    ∃ before d after, best :: l = before ++ d :: after ∧ least best l = d.1 ∧
      (∀ e ∈ before, d.2.rank < e.2.rank) ∧ ∀ e ∈ after, d.2.rank ≤ e.2.rank := by
  induction l generalizing best with
  | nil => exact ⟨[], best, [], rfl, rfl, by simp, by simp⟩
  | cons x l ih =>
    obtain ⟨hbest, hnum⟩ := List.forall_mem_cons.mp hnum
    obtain ⟨hx, hl⟩ := List.forall_mem_cons.mp hnum
    have hlt := Key.lt_iff_rank_lt hx hbest
    unfold least
    split
    case isTrue h =>
      obtain ⟨before, d, after, hsplit, hd, hbefore, hafter⟩ := ih x hnum
      have hdx : d.2.rank ≤ x.2.rank := by
        have hmem : x ∈ before ++ d :: after := hsplit ▸ List.mem_cons_self
        rcases List.mem_append.mp hmem with hmem | hmem
        · exact (hbefore x hmem).le
        · rcases List.mem_cons.mp hmem with rfl | hmem
          · exact le_rfl
          · exact hafter x hmem
      refine ⟨best :: before, d, after, by rw [hsplit]; rfl, hd, ?_, hafter⟩
      exact List.forall_mem_cons.mpr ⟨hdx.trans_lt (hlt.mp h), hbefore⟩
    case isFalse h =>
      have hle : best.2.rank ≤ x.2.rank := not_lt.mp (mt hlt.mpr h)
      obtain ⟨before, d, after, hsplit, hd, hbefore, hafter⟩ :=
        ih best (List.forall_mem_cons.mpr ⟨hbest, hl⟩)
      cases before with
      | nil =>
        obtain ⟨rfl, rfl⟩ := List.cons.inj hsplit
        exact ⟨[], best, x :: l, rfl, hd, by simp, List.forall_mem_cons.mpr ⟨hle, hafter⟩⟩
      | cons b before =>
        obtain ⟨rfl, rfl⟩ := List.cons.inj hsplit
        obtain ⟨hb, hbefore⟩ := List.forall_mem_cons.mp hbefore
        refine ⟨best :: x :: before, d, after, rfl, hd, ?_, hafter⟩
        exact List.forall_mem_cons.mpr ⟨hb, List.forall_mem_cons.mpr ⟨hb.trans_le hle, hbefore⟩⟩

/-! ## Eligible certificates -/

/-- The certified positive certificates in their order. -/
def eligible (cs : List Certificate) : List Certificate :=
  cs.filter fun c => c.positive && c.certified

theorem mem_eligible_iff : c ∈ eligible cs ↔ c ∈ cs ∧ c.IsEligible := by
  rw [eligible, List.mem_filter, IsEligible, Bool.and_eq_true]

theorem map_fst_positives (cs : List Certificate) : (positives cs).map Prod.fst = eligible cs := by
  have h := List.filter_map (f := Prod.fst) (p := fun c : Certificate => c.positive && c.certified)
    (l := cs.zipIdx)
  rw [List.zipIdx_map_fst] at h
  exact h.symm

theorem positives_eq_nil_iff : positives cs = [] ↔ eligible cs = [] := by
  rw [← map_fst_positives, List.map_eq_nil_iff]

theorem IsSelected.mem_eligible (h : IsSelected cs i c) : c ∈ eligible cs :=
  mem_eligible_iff.mpr ⟨List.mem_of_getElem? h.get, h.isEligible⟩

theorem IsSelected.rank_le (h : IsSelected cs i c) {d : Certificate} (hd : d ∈ eligible cs) :
    c.rank ≤ d.rank := by
  obtain ⟨hmem, hel⟩ := mem_eligible_iff.mp hd
  obtain ⟨j, hj⟩ := List.mem_iff_getElem?.mp hmem
  exact h.least j d hj hel

theorem mem_positives_iff : (c, i) ∈ positives cs ↔ cs[i]? = some c ∧ c.IsEligible := by
  rw [positives, List.mem_filter, List.mem_zipIdx_iff_getElem?, IsEligible, Bool.and_eq_true]

theorem pairwise_positives (cs : List Certificate) :
    (positives cs).Pairwise fun p q => p.2 < q.2 := by
  have hplaces : (cs.zipIdx.map Prod.snd).Pairwise (· < ·) := by
    rw [List.zipIdx_map_snd]
    exact List.pairwise_lt_range'
  exact (List.pairwise_map.mp hplaces).sublist List.filter_sublist

def withKey (p : Certificate × ℕ) : Certificate × Key := (p.1, p.1.key)

theorem keyed_of_isNumeric {p : Certificate × ℕ} (h : p.1.IsNumeric) :
    keyed p.1 = .ok (withKey p) :=
  bind_eq_ok.mpr ⟨p.1.key, h.spec.1, rfl⟩

theorem exists_isSelected {p : Certificate × ℕ} {rest : List (Certificate × ℕ)}
    (hpos : positives cs = p :: rest) (hnum : ∀ q ∈ p :: rest, q.1.IsNumeric) :
    ∃ c i, least (withKey p) (rest.map withKey) = c ∧ IsSelected cs i c := by
  have hkeys : ∀ k ∈ (p :: rest).map withKey, k.2.IsNumeric := by
    intro k hk
    obtain ⟨q, hq, rfl⟩ := List.mem_map.mp hk
    exact (hnum q hq).spec.2.1
  obtain ⟨before, d, after, hsplit, hleast, hbefore, hafter⟩ := least_eq_first _ _ hkeys
  rw [← List.map_cons] at hsplit
  obtain ⟨pre, tail, hlist, rfl, htail⟩ := List.map_eq_append_iff.mp hsplit
  obtain ⟨⟨c, i⟩, post, rfl, rfl, rfl⟩ := List.map_eq_cons_iff.mp htail
  have hsel := mem_positives_iff.mp (show (c, i) ∈ positives cs by simp [hpos, hlist])
  have hlt : ∀ q ∈ pre, c.rank < q.1.rank := fun q hq => hbefore _ (List.mem_map_of_mem hq)
  have hle : ∀ q ∈ post, c.rank ≤ q.1.rank := fun q hq => hafter _ (List.mem_map_of_mem hq)
  have hpair := pairwise_positives cs
  rw [hpos, hlist] at hpair
  have hpost : ∀ q ∈ post, i < q.2 :=
    (List.pairwise_cons.mp (List.pairwise_append.mp hpair).2.1).1
  refine ⟨c, i, hleast, hsel.1, hsel.2, fun j d hget hel => ?_, fun j hj d hget hel => ?_⟩
  all_goals
    have hd : (d, j) ∈ pre ++ (c, i) :: post :=
      hlist ▸ hpos ▸ mem_positives_iff.mpr ⟨hget, hel⟩
  · rcases List.mem_append.mp hd with hd | hd
    · exact (hlt _ hd).le
    · rcases List.mem_cons.mp hd with he | hd
      · exact (congrArg (fun q => Certificate.rank q.1) he).ge
      · exact hle _ hd
  · rcases List.mem_append.mp hd with hd | hd
    · exact hlt _ hd
    · rcases List.mem_cons.mp hd with he | hd
      · cases he
        exact absurd hj (lt_irrefl _)
      · exact absurd hj (hpost _ hd).not_gt

/-- The decision of numeric certificates: no for lack of eligible ones, and otherwise what the selected
one says. -/
theorem ofCertificates_cases (hnum : ∀ c ∈ cs, c.IsEligible → c.IsNumeric) (method : Method)
    (preferRefined : Bool) :
    (eligible cs = [] ∧
      ofCertificates cs method preferRefined = .ok ⟨.fails, method, .nan, [], none, cs⟩) ∨
    ∃ i c, IsSelected cs i c ∧ ofCertificates cs method preferRefined =
      (c.tInterval preferRefined).map fun b =>
        ⟨verdict c.key.t b, method, c.key.t, (positives cs).map Prod.snd, b, cs⟩ := by
  have hmem : ∀ p ∈ positives cs, p.1.IsNumeric := by
    rintro ⟨c, i⟩ hp
    obtain ⟨hget, hel⟩ := mem_positives_iff.mp hp
    exact hnum c (List.mem_of_getElem? hget) hel
  unfold ofCertificates
  split
  case h_1 hpos => exact .inl ⟨positives_eq_nil_iff.mp hpos, rfl⟩
  case h_2 p rest hpos =>
    right
    rw [hpos] at hmem
    obtain ⟨hp, hrest⟩ := List.forall_mem_cons.mp hmem
    have hkeys : rest.mapM (fun d => keyed d.1) = .ok (rest.map withKey) :=
      mapM_eq_ok fun d hd => keyed_of_isNumeric (hrest d hd)
    obtain ⟨c, i, hleast, hsel⟩ := exists_isSelected hpos hmem
    obtain ⟨-, -, t, ht, hkt⟩ := (hnum c (List.mem_of_getElem? hsel.get) hsel.isEligible).spec
    refine ⟨i, c, hsel, ?_⟩
    rw [keyed_of_isNumeric hp, hkeys, hpos, hkt]
    change (least (withKey p) (rest.map withKey)).tMidpoint.bind _ = _
    rw [hleast, ht]
    cases c.tInterval preferRefined <;> rfl

end Decision

end Orthant
