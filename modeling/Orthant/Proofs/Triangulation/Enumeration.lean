import Mathlib
import Orthant.Proofs.Triangulation.Flip

/-! # What the enumeration hands out

Every triangulation that is handed out is regular, whatever is proposed for hulls and walls. When
every wall that bounds a triangulation is found, a search that comes to its end has handed out all
regular triangulations, each once.
-/

namespace Orthant

open Finset Lifting

namespace Configuration

variable {c : Configuration} {t : Triangulation} {p : Programs} {forms : List Vec}

/-! ## Neighbours -/

theorem IsFull.exists_walls (hc : c.IsFull) (ht : c.IsRegular t) :
    ∃ forms, c.walls t = .ok forms ∧ c.IsWalls t forms := by
  obtain ⟨htc, w, hw⟩ := hc.isRegular_iff.mp ht
  exact walls_eq_ok hc (isCover_of_induces hc htc hw)

/-- Across a wall there is nothing, or a regular triangulation that may be missed by the steps across
the wall. -/
theorem across_cases (hc : c.IsFull) (ht : c.IsRegular t) (hw : c.IsWalls t forms) {k : ℕ}
    {wall : Vec} (hk : forms[k]? = some wall) :
    (c.wallPoint wall (forms.eraseIdx k) p.wall = none ∧ c.across t forms k wall p = .ok none) ∨
      (c.IsRegular (t.flip wall) ∧ (c.across t forms k wall p = .ok (some (t.flip wall)) ∨
        c.across t forms k wall p = .error (.flipNotRegular k t.length))) := by
  rw [across]
  split
  case h_1 h => exact Or.inl ⟨h, rfl⟩
  case h_2 w h =>
    have hwall : wall ∈ forms := List.mem_of_getElem? hk
    have hb := bounds_of_wallPoint (hw.length hc) hk (hw.exists_ne_zero hc hwall) h
    have hreg := isRegular_flip hc ht hw hwall hb
    obtain ⟨forms', hforms', -⟩ := hc.exists_walls hreg
    refine Or.inr ⟨hreg, ?_⟩
    dsimp only
    rw [hforms']
    by_cases hcross : crosses w wall forms' (mkRat 1 8) maxHalvings = true
    · exact Or.inl (if_pos hcross)
    · exact Or.inr (if_neg hcross)

/-- The triangulations across walls are regular, and none is left out when no step fails. -/
structure FindsAcross (c : Configuration) (p : Programs) (t : Triangulation) (forms : List Vec)
    (walls : List (Vec × ℕ)) (found : List Triangulation × Option Error) : Prop where
  regular : ∀ t' ∈ found.1, c.IsRegular t'
  failure : ∀ e, found.2 = some e → ∃ k n, e = .flipNotRegular k n
  all : found.2 = none → ∀ q ∈ walls,
    c.wallPoint q.1 (forms.eraseIdx q.2) p.wall ≠ none → t.flip q.1 ∈ found.1

theorem findsAcross_acrossAll (hc : c.IsFull) (ht : c.IsRegular t) (hw : c.IsWalls t forms)
    {walls : List (Vec × ℕ)} (hwalls : ∀ q ∈ walls, forms[q.2]? = some q.1) :
    c.FindsAcross p t forms walls (c.acrossAll p t forms walls) := by
  induction walls with
  | nil => exact ⟨by simp [acrossAll], by simp [acrossAll], by simp⟩
  | cons q walls ih =>
    obtain ⟨wall, k⟩ := q
    obtain ⟨hreg, hfail, hall⟩ := ih fun q hq => hwalls q (List.mem_cons_of_mem _ hq)
    rcases across_cases (p := p) hc ht hw (hwalls (wall, k) List.mem_cons_self) with
      ⟨hnone, ha⟩ | ⟨hflip, ha | ha⟩
    · simp only [acrossAll, ha, Option.toList_none, List.nil_append]
      exact ⟨hreg, hfail, fun he q hq hp => by
        rcases List.mem_cons.mp hq with rfl | hq
        · exact absurd hnone hp
        · exact hall he q hq hp⟩
    · simp only [acrossAll, ha, Option.toList_some, List.singleton_append]
      refine ⟨fun t' ht' => ?_, hfail, fun he q hq hp => ?_⟩
      · rcases List.mem_cons.mp ht' with rfl | ht'
        · exact hflip
        · exact hreg t' ht'
      · rcases List.mem_cons.mp hq with rfl | hq
        · exact List.mem_cons_self
        · exact List.mem_cons_of_mem _ (hall he q hq hp)
    · simp only [acrossAll, ha]
      exact ⟨by simp, fun e he => ⟨k, t.length, (Option.some.inj he).symm⟩, by simp⟩

theorem findsAcross_neighbours (hc : c.IsFull) (ht : c.IsRegular t) : ∃ forms,
    c.walls t = .ok forms ∧ c.IsWalls t forms ∧
      c.FindsAcross p t forms forms.zipIdx (c.neighbours t p) := by
  obtain ⟨forms, hforms, hw⟩ := hc.exists_walls ht
  refine ⟨forms, hforms, hw, ?_⟩
  rw [neighbours, hforms]
  exact findsAcross_acrossAll hc ht hw fun q hq => List.mem_zipIdx_iff_getElem?.mp hq

end Configuration

namespace Search

variable {c : Configuration} {p : Configuration.Programs} {b : Bounds} {clock : Clock}
  {s s' : Search} {t : Triangulation} {ts done : List Triangulation}

/-! ## Soundness -/

/-- Only regular triangulations wait to be handed out or looked around. -/
structure Sound (c : Configuration) (s : Search) : Prop where
  queue : ∀ t ∈ s.queue, c.IsRegular t
  pending : ∀ t, s.pending = some t → c.IsRegular t

theorem enqueue_cases (s : Search) (t : Triangulation) : (t ∈ s.seen ∧ s.enqueue t = s) ∨
    (t ∉ s.seen ∧ s.enqueue t = { s with seen := t :: s.seen, queue := s.queue ++ [t] }) := by
  rw [enqueue]
  split
  case isTrue h => exact Or.inl ⟨by simpa using h, rfl⟩
  case isFalse h => exact Or.inr ⟨by simpa using h, rfl⟩

theorem Sound.enqueue (hs : s.Sound c) (ht : c.IsRegular t) : (s.enqueue t).Sound c := by
  rcases s.enqueue_cases t with ⟨-, h⟩ | ⟨-, h⟩ <;> rw [h]
  · exact hs
  · refine ⟨fun t' ht' => ?_, hs.pending⟩
    rcases List.mem_append.mp ht' with ht' | ht'
    · exact hs.queue t' ht'
    · exact List.mem_singleton.mp ht' ▸ ht

theorem Sound.foldl_enqueue (hs : s.Sound c) (hts : ∀ t ∈ ts, c.IsRegular t) :
    (ts.foldl Search.enqueue s).Sound c := by
  induction ts generalizing s with
  | nil => exact hs
  | cons t ts ih =>
    exact ih (hs.enqueue (hts t List.mem_cons_self)) fun t' ht' =>
      hts t' (List.mem_cons_of_mem _ ht')

/-- Looking around a regular triangulation keeps the search sound and fails only at a flip. -/
theorem Sound.expand (hc : c.IsFull) (hs : s.Sound c) :
    (∀ s', s.expand c p = .ok s' → s'.Sound c) ∧
      ∀ e, s.expand c p = .error e → ∃ k n, e = .flipNotRegular k n := by
  rw [Search.expand]
  split
  case h_1 => exact ⟨fun s' h => Except.ok.inj h ▸ hs, by simp⟩
  case h_2 t ht =>
    obtain ⟨forms, -, -, hreg, hfail, -⟩ :=
      Configuration.findsAcross_neighbours (p := p) hc (hs.pending t ht)
    split
    case h_1 ts hn =>
      refine ⟨fun s' h => ?_, by simp⟩
      obtain rfl := Except.ok.inj h
      have hsound := hs.foldl_enqueue fun t' ht' => hreg t' (by rw [hn]; exact ht')
      exact ⟨hsound.queue, by simp⟩
    case h_2 e hn => exact ⟨by simp, fun e' h => Except.error.inj h ▸ hfail e (by rw [hn])⟩

theorem refuse_ne_notCovered (b : Bounds) (clock : Clock) (number : ℕ) (j : ℤ) :
    b.refuse clock number ≠ some (.notCovered j) := by
  have hlate : b.late clock number ≠ some (.notCovered j) := by
    rw [Bounds.late]
    split
    · simp
    · split <;> simp
    · simp
  rw [Bounds.refuse]
  split
  · exact hlate
  · split
    · simp
    · exact hlate
  · simp

/-- The next triangulation is regular. What fails is a flip or a bound. -/
theorem Sound.next (hc : c.IsFull) (hs : s.Sound c) (b : Bounds) (clock : Clock)
    (p : Configuration.Programs) :
    (∀ t rest, s.next c b clock p = .found t rest → c.IsRegular t ∧ rest.Sound c) ∧
      ∀ e, s.next c b clock p = .failed e → (∃ k n, e = .flipNotRegular k n) ∨
        ∃ number, b.refuse clock number = some e := by
  obtain ⟨hok, herr⟩ := hs.expand (p := p) hc
  rw [Search.next]
  split
  case h_1 e he => exact ⟨by simp, fun e' h => Or.inl (Progress.failed.inj h ▸ herr e he)⟩
  case h_2 s' hs' =>
    have hsound := hok s' hs'
    split
    · exact ⟨by simp, by simp⟩
    case h_2 t rest hq =>
      have ht := hsound.queue t (hq ▸ List.mem_cons_self)
      split
      case h_1 e he => exact ⟨by simp, fun e' h => Or.inr ⟨_, Progress.failed.inj h ▸ he⟩⟩
      case h_2 =>
        refine ⟨fun t' rest' h => ?_, by simp⟩
        obtain ⟨rfl, rfl⟩ := Progress.found.inj h
        refine ⟨ht, fun t' ht' => hsound.queue t' (hq ▸ List.mem_cons_of_mem _ ht'), fun t' h => ?_⟩
        exact Option.some.inj h ▸ ht

theorem Sound.run_failed (hc : c.IsFull) (hs : s.Sound c) (b : Bounds) (clock : Clock) (fuel : ℕ)
    (p : Configuration.Programs) {e : Error} (h : (s.run c b clock fuel p).2 = .failed e) :
    (∃ k n, e = .flipNotRegular k n) ∨ ∃ number, b.refuse clock number = some e := by
  induction fuel generalizing s with
  | zero => cases h
  | succ fuel ih =>
    obtain ⟨hfound, hfail⟩ := hs.next hc b clock p
    rw [Search.run] at h
    split at h
    · cases h
    case h_2 e' he => exact hfail e (Ending.failed.inj h ▸ he)
    case h_3 t rest he => exact ih (hfound t rest he).2 h

theorem Sound.run (hc : c.IsFull) (hs : s.Sound c) (b : Bounds) (clock : Clock) (fuel : ℕ)
    (p : Configuration.Programs) :
    (∀ t ∈ (s.run c b clock fuel p).1, c.IsRegular t) ∧
      ∀ j, (s.run c b clock fuel p).2 ≠ .failed (.notCovered j) := by
  refine ⟨?_, fun j h => ?_⟩
  · induction fuel generalizing s with
    | zero => simp [Search.run]
    | succ fuel ih =>
      rw [Search.run]
      split
      · simp
      · simp
      case h_3 t rest he =>
        obtain ⟨ht, hrest⟩ := (hs.next hc b clock p).1 t rest he
        intro t' ht'
        rcases List.mem_cons.mp ht' with rfl | ht'
        · exact ht
        · exact ih hrest t' ht'
  · rcases hs.run_failed hc b clock fuel p h with ⟨_, _, he⟩ | ⟨number, he⟩
    · cases he
    · exact refuse_ne_notCovered b clock number j he

theorem sound_start (ht : c.IsRegular t) : (Search.start t).Sound c :=
  ⟨by simpa [Search.start] using ht, by simp [Search.start]⟩

/-! ## Completeness -/

/-- Nothing failed around the triangulation, and all its neighbours are in a list. -/
def ClosedAt (c : Configuration) (p : Configuration.Programs) (seen : List Triangulation)
    (t : Triangulation) : Prop :=
  (c.neighbours t p).2 = none ∧ ∀ t' ∈ (c.neighbours t p).1, t' ∈ seen

/-- What has been seen has been handed out or waits for it, nothing twice, and around all that has
been handed out but the last everything has been seen. -/
structure Explored (c : Configuration) (p : Configuration.Programs) (s : Search)
    (done : List Triangulation) : Prop where
  nodup : (done ++ s.queue).Nodup
  seen : ∀ t, t ∈ s.seen ↔ t ∈ done ++ s.queue
  closed : ∀ t ∈ done, s.pending = some t ∨ ClosedAt c p s.seen t
  count : s.count = done.length

theorem ClosedAt.mono {seen seen' : List Triangulation} (h : ClosedAt c p seen t)
    (hsub : ∀ t ∈ seen, t ∈ seen') : ClosedAt c p seen' t :=
  ⟨h.1, fun t' ht' => hsub t' (h.2 t' ht')⟩

theorem seen_subset_enqueue (t : Triangulation) : ∀ t' ∈ s.seen, t' ∈ (s.enqueue t).seen := by
  rcases s.enqueue_cases t with ⟨-, h⟩ | ⟨-, h⟩ <;> rw [h]
  · exact fun _ h => h
  · exact fun _ h => List.mem_cons_of_mem _ h

theorem mem_seen_enqueue (t : Triangulation) : t ∈ (s.enqueue t).seen := by
  rcases s.enqueue_cases t with ⟨h, h'⟩ | ⟨-, h'⟩ <;> rw [h']
  · exact h
  · exact List.mem_cons_self

theorem pending_enqueue (t : Triangulation) : (s.enqueue t).pending = s.pending := by
  rcases s.enqueue_cases t with ⟨-, h⟩ | ⟨-, h⟩ <;> rw [h]

theorem Explored.enqueue (h : s.Explored c p done) (t : Triangulation) :
    (s.enqueue t).Explored c p done := by
  have hsub := seen_subset_enqueue (s := s) t
  rcases s.enqueue_cases t with ⟨-, he⟩ | ⟨hn, he⟩
  · rwa [he]
  · rw [h.seen] at hn
    rw [he] at hsub ⊢
    refine ⟨?_, fun t' => ?_, fun t' ht' => (h.closed t' ht').imp_right fun hcl => hcl.mono hsub,
      h.count⟩
    · rw [← List.append_assoc]
      exact List.nodup_append.mpr ⟨h.nodup, List.nodup_singleton t, fun x hx y hy he => by
        rw [List.mem_singleton.mp hy] at he
        exact hn (he ▸ hx)⟩
    · rw [← List.append_assoc, List.mem_append, List.mem_singleton, List.mem_cons, h.seen, or_comm]

theorem Explored.foldl_enqueue (h : s.Explored c p done) (ts : List Triangulation) :
    (ts.foldl Search.enqueue s).Explored c p done ∧
      (ts.foldl Search.enqueue s).pending = s.pending ∧
      (∀ t ∈ s.seen, t ∈ (ts.foldl Search.enqueue s).seen) ∧
      ∀ t ∈ ts, t ∈ (ts.foldl Search.enqueue s).seen := by
  induction ts generalizing s with
  | nil => exact ⟨h, rfl, fun _ h => h, by simp⟩
  | cons t ts ih =>
    obtain ⟨hex, hpend, hsub, hmem⟩ := ih (h.enqueue t)
    refine ⟨hex, hpend.trans (pending_enqueue t),
      fun t' ht' => hsub t' (seen_subset_enqueue t t' ht'), fun t' ht' => ?_⟩
    rcases List.mem_cons.mp ht' with rfl | ht'
    · exact hsub t' (mem_seen_enqueue t')
    · exact hmem t' ht'

/-- After looking around the last triangulation nothing is pending. -/
theorem Explored.expand (h : s.Explored c p done) (hs : s.expand c p = .ok s') :
    s'.Explored c p done ∧ s'.pending = none ∧ ∀ t ∈ s.seen, t ∈ s'.seen := by
  rw [Search.expand] at hs
  split at hs
  case h_1 hp =>
    obtain rfl := Except.ok.inj hs
    exact ⟨h, hp, fun _ h => h⟩
  case h_2 t hp =>
    split at hs
    case h_2 => cases hs
    case h_1 ts hn =>
      obtain rfl := Except.ok.inj hs
      obtain ⟨hex, hpend, hsub, hmem⟩ := h.foldl_enqueue ts
      refine ⟨⟨hex.nodup, hex.seen, fun t' ht' => Or.inr ?_, hex.count⟩, rfl, hsub⟩
      rcases hex.closed t' ht' with he | hcl
      · obtain rfl : t = t' := Option.some.inj (hp.symm.trans (hpend.symm.trans he))
        exact ⟨by rw [hn], fun t' ht' => hmem t' (by rwa [hn] at ht')⟩
      · exact hcl

/-- The next triangulation has not been handed out before. -/
theorem Explored.next (h : s.Explored c p done) {rest : Search}
    (hnext : s.next c b clock p = .found t rest) :
    rest.Explored c p (done ++ [t]) ∧ ∀ t ∈ s.seen, t ∈ rest.seen := by
  rw [Search.next] at hnext
  split at hnext
  · cases hnext
  case h_2 s' hs' =>
    obtain ⟨hex, hpend, hsub⟩ := h.expand hs'
    split at hnext
    · cases hnext
    case h_2 t' queue hq =>
      split at hnext
      · cases hnext
      cases hnext
      have hnd := hex.nodup
      have hseen := hex.seen
      rw [hq] at hnd hseen
      have happ : done ++ t :: queue = done ++ [t] ++ queue := by simp
      refine ⟨⟨happ ▸ hnd, fun t' => happ ▸ hseen t', fun t' ht' => ?_, by simp [hex.count]⟩, hsub⟩
      rcases List.mem_append.mp ht' with ht' | ht'
      · rcases hex.closed t' ht' with he | hcl
        · rw [hpend] at he; cases he
        · exact Or.inr hcl
      · exact Or.inl (by rw [List.mem_singleton.mp ht'])

theorem Explored.nodup_run (h : s.Explored c p done) (b : Bounds) (clock : Clock) (fuel : ℕ) :
    (done ++ (s.run c b clock fuel p).1).Nodup := by
  induction fuel generalizing s done with
  | zero => simpa [Search.run] using (List.nodup_append.mp h.nodup).1
  | succ fuel ih =>
    rw [Search.run]
    split
    · simpa using (List.nodup_append.mp h.nodup).1
    · simpa using (List.nodup_append.mp h.nodup).1
    case h_3 t rest hnext => simpa using ih (h.next hnext).1

/-- A search that comes to its end has handed out all neighbours of what it handed out. -/
theorem Explored.run (h : s.Explored c p done) {fuel n : ℕ}
    (hrun : s.run c b clock fuel p = (ts, .finished n)) :
    (done ++ ts).Nodup ∧ n = (done ++ ts).length ∧ (∀ t ∈ s.seen, t ∈ done ++ ts) ∧
      ∀ t ∈ done ++ ts, ClosedAt c p (done ++ ts) t := by
  induction fuel generalizing s done ts with
  | zero => cases hrun
  | succ fuel ih =>
    rw [Search.run] at hrun
    split at hrun
    case h_2 => cases hrun
    case h_1 m hnext =>
      cases hrun
      rw [Search.next] at hnext
      split at hnext
      · cases hnext
      case h_2 s' hs' =>
        obtain ⟨hex, hpend, hsub⟩ := h.expand hs'
        split at hnext
        case h_2 => split at hnext <;> cases hnext
        case h_1 hq =>
          cases hnext
          have hnd := hex.nodup
          have hseen := hex.seen
          rw [hq] at hnd hseen
          refine ⟨hnd, by rw [hex.count, List.append_nil], fun t ht => (hseen t).mp (hsub t ht),
            fun t ht => ?_⟩
          rw [List.append_nil] at ht
          rcases hex.closed t ht with he | hcl
          · rw [hpend] at he; cases he
          · exact hcl.mono fun t ht => (hseen t).mp ht
    case h_3 t rest hnext =>
      cases hr : rest.run c b clock fuel p with
      | mk ts' e =>
        rw [hr] at hrun
        cases hrun
        obtain ⟨hex, hsub⟩ := h.next hnext
        obtain ⟨hnd, hn, hall, hcl⟩ := ih hex hr
        have happ : done ++ t :: ts' = done ++ [t] ++ ts' := by simp
        rw [happ]
        exact ⟨hnd, hn, fun t ht => hall t (hsub t ht), hcl⟩

theorem explored_start (t : Triangulation) : (Search.start t).Explored c p [] :=
  ⟨by simp [Search.start], by simp [Search.start], by simp, rfl⟩

end Search

end Orthant
