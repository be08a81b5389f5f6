import Mathlib
import Orthant.Proofs.Decision.Soundness

/-! # Refined boxes

The selection does not look at boxes, and a rectangle inside another one contains 1 only if the other
one does. So refined boxes leave every definite verdict as it is, and they can turn an unknown one into
any of the three.
-/

namespace Orthant

def Rectangle.IsInside (r s : Rectangle) : Prop :=
  ∀ x y, r.contains x y = true → s.contains x y = true

namespace Certificate

/-- The coarse box is not empty. Nor is a refined one, and its rectangle of `t` lies inside the coarse
one. -/
def IsNested (c : Certificate) : Prop :=
  ∃ r rs, c.interval = some (r :: rs) ∧
    ∀ box, c.refined = some box → ∃ s ss, box = s :: ss ∧ s.IsInside r

variable {c : Certificate}

/-- The two rectangles of `t` that are preferred with and without refined boxes. -/
theorem IsNested.tInterval (h : c.IsNested) : ∃ r s, c.tInterval false = .ok (some r) ∧
    c.tInterval true = .ok (some s) ∧ s.IsInside r := by
  obtain ⟨r, rs, hr, hrefined⟩ := h
  unfold Certificate.tInterval box
  rw [hr]
  cases hbox : c.refined with
  | none => exact ⟨r, r, rfl, rfl, fun _ _ h => h⟩
  | some box =>
    obtain ⟨s, ss, rfl, hinside⟩ := hrefined box hbox
    exact ⟨r, s, rfl, rfl, hinside⟩

end Certificate

namespace Decision

open Certificate

variable {cs : List Certificate} {d : Decision}

theorem verdict_of_inside {t : Double} {r s : Rectangle} (hinside : s.IsInside r)
    (h : verdict t (some r) ≠ .unknown) : verdict t (some s) = verdict t (some r) := by
  have hr : r.contains 1 0 = false := by
    by_contra hone
    exact h (if_pos (by simpa using hone))
  have hs : s.contains 1 0 = false := by
    by_contra hone
    rw [hinside 1 0 (by simpa using hone)] at hr
    cases hr
  simp only [verdict, Option.any_some, hr, hs]

theorem least_mem {α : Type} (best : α × Key) (l : List (α × Key)) :
    least best l ∈ (best :: l).map Prod.fst := by
  induction l generalizing best with
  | nil => exact List.mem_singleton.mpr rfl
  | cons x l ih =>
    unfold least
    have hmem := ih (if x.2.lt best.2 then x else best)
    rw [List.map_cons, List.mem_cons] at hmem
    rcases hmem with hmem | hmem
    · rw [hmem]
      split
      · exact List.mem_cons_of_mem _ List.mem_cons_self
      · exact List.mem_cons_self
    · exact List.mem_cons_of_mem _ (List.mem_cons_of_mem _ hmem)

theorem ofCertificates_cons {p : Certificate × ℕ} {rest : List (Certificate × ℕ)}
    (hpos : positives cs = p :: rest) (method : Method) (preferRefined : Bool) :
    ofCertificates cs method preferRefined =
      (keyed p.1).bind fun first => (rest.mapM fun q => keyed q.1).bind fun others =>
        (least first others).tMidpoint.bind fun t =>
          ((least first others).tInterval preferRefined).bind fun b =>
            .ok ⟨verdict t.re b, method, t.re, (p :: rest).map Prod.snd, b, cs⟩ := by
  unfold ofCertificates
  rw [hpos]
  rfl

theorem ofCertificates_boxes (cs : List Certificate) (method : Method) :
    (∃ r, ∀ preferRefined, ofCertificates cs method preferRefined = r) ∨
    ∃ c ∈ cs, ∃ t places, ∀ preferRefined, ofCertificates cs method preferRefined =
      (c.tInterval preferRefined).bind fun b => .ok ⟨verdict t b, method, t, places, b, cs⟩ := by
  cases hpos : positives cs with
  | nil =>
    refine .inl ⟨.ok ⟨.fails, method, .nan, [], none, cs⟩, fun _ => ?_⟩
    rw [ofCertificates, hpos]
  | cons p rest =>
    have heq := ofCertificates_cons hpos method
    cases hfirst : keyed p.1 with
    | error e => exact .inl ⟨.error e, fun _ => by rw [heq, hfirst]; rfl⟩
    | ok first =>
      cases hothers : rest.mapM fun q => keyed q.1 with
      | error e => exact .inl ⟨.error e, fun _ => by rw [heq, hfirst, hothers]; rfl⟩
      | ok others =>
        rw [hfirst, hothers] at heq
        dsimp only [Except.bind] at heq
        cases ht : (least first others).tMidpoint with
        | error e => exact .inl ⟨.error e, fun _ => by rw [heq, ht]⟩
        | ok t =>
          have hkeys : (positives cs).mapM (fun q => keyed q.1) = .ok (first :: others) := by
            rw [hpos, List.mapM_cons]
            exact bind_eq_ok.mpr ⟨first, hfirst, bind_eq_ok.mpr ⟨others, hothers, rfl⟩⟩
          obtain ⟨k, hk, hkey⟩ := List.mem_map.mp (least_mem first others)
          obtain ⟨q, hq, hqk⟩ := (mapM_mem hkeys).2 k hk
          have hmem : least first others ∈ cs := by
            rw [← hkey, (keyed_eq_ok hqk).1]
            exact (mem_positives hq).1
          rw [ht] at heq
          exact .inr ⟨_, hmem, t.re, _, heq⟩

/-- A certificate on the real line with two rectangles. -/
def twice (t lo hi lo' hi' : ℚ) : Certificate :=
  { onLine t lo hi with refined := some [⟨lo', hi', 0, 0⟩] }

theorem isNested_twice {t lo hi lo' hi' : ℚ} (hlo : lo ≤ lo') (hhi : hi' ≤ hi) :
    (twice t lo hi lo' hi').IsNested := by
  refine ⟨_, [], rfl, ?_⟩
  intro box hbox
  obtain rfl := Option.some.inj hbox
  refine ⟨_, [], rfl, ?_⟩
  intro x y hin
  simp only [Rectangle.contains, Bool.and_eq_true, decide_eq_true_eq] at hin ⊢
  exact ⟨⟨⟨hlo.trans hin.1.1.1, hin.1.1.2.trans hhi⟩, hin.1.2⟩, hin.2⟩

/-- Refined boxes inside the coarse ones keep a definite verdict, with its `t` and its positive
certificates, and they bring no failure about. An unknown verdict can become any of the three. -/
theorem decided_of_refined (h : ∀ c ∈ cs, c.IsNested) (method : Method) :
    (∀ e, ofCertificates cs method true = .error e ↔ ofCertificates cs method false = .error e) ∧
    (∀ d, ofCertificates cs method false = .ok d → ∃ d', ofCertificates cs method true = .ok d' ∧
      d'.tMin = d.tMin ∧ d'.positive = d.positive ∧
        (d.copositive ≠ .unknown → d'.copositive = d.copositive)) ∧
    ∀ v, ∃ cs d d', (∀ c ∈ cs, c.IsNested) ∧ ofCertificates cs method false = .ok d ∧
      d.copositive = .unknown ∧ ofCertificates cs method true = .ok d' ∧ d'.copositive = v := by
  refine ⟨?_, ?_, ?_⟩
  · intro e
    rcases ofCertificates_boxes cs method with ⟨r, hr⟩ | ⟨c, hc, t, places, hd⟩
    · rw [hr, hr]
    · obtain ⟨r, s, hr, hs, -⟩ := (h c hc).tInterval
      rw [hd, hd, hr, hs]
      exact iff_of_false nofun nofun
  · intro d hcoarse
    rcases ofCertificates_boxes cs method with ⟨r, hr⟩ | ⟨c, hc, t, places, hd⟩
    · rw [hr] at hcoarse
      exact ⟨d, (hr true).trans hcoarse, rfl, rfl, fun _ => rfl⟩
    · obtain ⟨r, s, hr, hs, hinside⟩ := (h c hc).tInterval
      rw [hd, hr] at hcoarse
      cases hcoarse
      refine ⟨⟨verdict t (some s), method, t, places, some s, cs⟩, ?_, rfl, rfl, ?_⟩
      · rw [hd, hs]
        rfl
      · exact verdict_of_inside hinside
  · intro v
    cases v with
    | holds =>
      refine ⟨[twice 3 0 4 2 4], _, _, ?_, rfl, rfl, rfl, rfl⟩
      exact List.forall_mem_singleton.mpr (isNested_twice (by norm_num) (by norm_num))
    | fails =>
      refine ⟨[twice 0 (-1) 2 (-1) 0], _, _, ?_, rfl, rfl, rfl, rfl⟩
      exact List.forall_mem_singleton.mpr (isNested_twice (by norm_num) (by norm_num))
    | unknown =>
      refine ⟨[twice 1 0 2 0 2], _, _, ?_, rfl, rfl, rfl, rfl⟩
      exact List.forall_mem_singleton.mpr (isNested_twice (by norm_num) (by norm_num))

theorem decided_of_refined_pair :
    (∀ c ∈ [twice 4 0 8 3 5, onLine 3 2 4], c.IsNested) ∧
    ∃ d, ofCertificates [twice 4 0 8 3 5, onLine 3 2 4] .general true = .ok d ∧
      d.tMin = .finite 3 ∧ d.positive = [0, 1] ∧ d.copositive = .holds := by
  have hnested : ∀ c ∈ [twice 4 0 8 3 5, onLine 3 2 4], c.IsNested := by
    intro c hc
    rcases List.mem_pair.mp hc with rfl | rfl
    · exact isNested_twice (by norm_num) (by norm_num)
    · exact ⟨_, [], rfl, nofun⟩
  have hcoarse : ofCertificates [twice 4 0 8 3 5, onLine 3 2 4] .general false =
      .ok ⟨.holds, .general, .finite 3, [0, 1], some ⟨2, 4, 0, 0⟩,
        [twice 4 0 8 3 5, onLine 3 2 4]⟩ := rfl
  obtain ⟨d, hd, ht, hplaces, hverdict⟩ := (decided_of_refined hnested .general).2.1 _ hcoarse
  exact ⟨hnested, d, hd, ht, hplaces, hverdict nofun⟩

end Decision

end Orthant
