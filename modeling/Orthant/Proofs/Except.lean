import Mathlib

/-! # Computations that can fail

What a computation did before it returned, and what a loop keeps and collects when all of its steps
return.
-/

namespace Orthant

variable {ε α β γ : Type}

@[simp] theorem bind_eq_ok {x : Except ε α} {f : α → Except ε β} {b : β} :
    x.bind f = .ok b ↔ ∃ a, x = .ok a ∧ f a = .ok b := by
  cases x <;> simp [Except.bind]

theorem bind_eq_error {x : Except ε α} {f : α → Except ε β} {e : ε} :
    x.bind f = .error e ↔ x = .error e ∨ ∃ a, x = .ok a ∧ f a = .error e := by
  cases x <;> simp [Except.bind]

theorem map_bind (x : Except ε α) (f : α → Except ε β) (g : β → γ) :
    (x.bind f).map g = x.bind fun a => (f a).map g := by
  cases x <;> rfl

theorem foldlM_congr {f g : β → α → Except ε β} {l : List α} (h : ∀ b, ∀ a ∈ l, f b a = g b a)
    (b : β) : l.foldlM f b = l.foldlM g b := by
  induction l generalizing b with
  | nil => rfl
  | cons a l ih =>
    rw [List.foldlM_cons, List.foldlM_cons, h b a List.mem_cons_self]
    exact congrArg _ (funext fun b' => ih (fun b a ha => h b a (List.mem_cons_of_mem _ ha)) b')

/-- A property that every step keeps holds after the loop. -/
theorem foldlM_keeps {f : β → α → Except ε β} {P : β → Prop} {l : List α} {b r : β}
    (hstep : ∀ b, ∀ a ∈ l, ∀ b', P b → f b a = .ok b' → P b') (hb : P b)
    (h : l.foldlM f b = .ok r) : P r := by
  induction l generalizing b with
  | nil => cases h; exact hb
  | cons a l ih =>
    obtain ⟨b', hb', h⟩ := bind_eq_ok.mp h
    exact ih (fun b a ha => hstep b a (List.mem_cons_of_mem _ ha))
      (hstep b a List.mem_cons_self b' hb hb') h

/-- A loop returns when every step does in the states that are kept. -/
theorem foldlM_returns {f : β → α → Except ε β} {P : β → Prop} {l : List α} {b : β}
    (hstep : ∀ b, ∀ a ∈ l, P b → ∃ b', f b a = .ok b' ∧ P b') (hb : P b) :
    ∃ r, l.foldlM f b = .ok r ∧ P r := by
  induction l generalizing b with
  | nil => exact ⟨b, rfl, hb⟩
  | cons a l ih =>
    obtain ⟨b', hb', hP⟩ := hstep b a List.mem_cons_self hb
    obtain ⟨r, hr, hPr⟩ := ih (fun b a ha => hstep b a (List.mem_cons_of_mem _ ha)) hP
    exact ⟨r, bind_eq_ok.mpr ⟨b', hb', hr⟩, hPr⟩

/-- What a step does to every state that comes after it is there at the end. -/
theorem foldlM_collects {f : β → α → Except ε β} {Q : α → β → Prop} {l : List α} {b r : β}
    (hdo : ∀ b, ∀ a ∈ l, ∀ b', f b a = .ok b' → Q a b')
    (hkeep : ∀ b, ∀ a ∈ l, ∀ b', f b a = .ok b' → ∀ a', Q a' b → Q a' b')
    (h : l.foldlM f b = .ok r) : ∀ a ∈ l, Q a r := by
  induction l generalizing b with
  | nil => simp
  | cons a l ih =>
    obtain ⟨b', hb', hl⟩ := bind_eq_ok.mp h
    intro a' ha'
    rcases List.mem_cons.mp ha' with rfl | ha'
    · exact foldlM_keeps (fun b x hx b'' hQ hs => hkeep b x (List.mem_cons_of_mem _ hx) b'' hs
        a' hQ) (hdo b a' List.mem_cons_self b' hb') hl
    · exact ih (fun b x hx => hdo b x (List.mem_cons_of_mem _ hx))
        (fun b x hx => hkeep b x (List.mem_cons_of_mem _ hx)) hl a' ha'

theorem eq_map_of_mapM {f : α → Except ε β} {g : α → β} (hf : ∀ a b, f a = .ok b → b = g a)
    {l : List α} {r : List β} (h : l.mapM f = .ok r) : r = l.map g := by
  induction l generalizing r with
  | nil => simpa [pure, Except.pure, eq_comm] using h
  | cons a l ih =>
    rw [List.mapM_cons] at h
    obtain ⟨b, hb, h⟩ := bind_eq_ok.mp h
    obtain ⟨r', hr, h⟩ := bind_eq_ok.mp h
    cases h
    rw [hf a b hb, ih hr, List.map_cons]

theorem mapM_eq_self {f : α → Except ε α} (hf : ∀ a b, f a = .ok b → b = a) {l r : List α}
    (h : l.mapM f = .ok r) : r = l := by
  simpa using eq_map_of_mapM (g := id) hf h

theorem mapM_eq_ok {f : α → Except ε β} {g : α → β} {l : List α} (h : ∀ a ∈ l, f a = .ok (g a)) :
    l.mapM f = .ok (l.map g) := by
  induction l with
  | nil => rfl
  | cons a l ih =>
    obtain ⟨ha, hl⟩ := List.forall_mem_cons.mp h
    rw [List.mapM_cons, ha, ih hl]
    rfl

theorem mapM_map_eq_ok {f : β → Except ε α} {g : α → β} (h : ∀ a, f (g a) = .ok a) (l : List α) :
    (l.map g).mapM f = .ok l := by
  induction l with
  | nil => rfl
  | cons a l ih =>
    rw [List.map_cons, List.mapM_cons, h a, ih]
    rfl

theorem mapM_forall₂ {f : α → Except ε β} {R : α → β → Prop} {l : List α}
    (h : ∀ a ∈ l, ∃ b, f a = .ok b ∧ R a b) : ∃ r, l.mapM f = .ok r ∧ List.Forall₂ R l r := by
  induction l with
  | nil => exact ⟨[], rfl, .nil⟩
  | cons a l ih =>
    obtain ⟨⟨b, hb, hR⟩, hl⟩ := List.forall_mem_cons.mp h
    obtain ⟨r, hr, hall⟩ := ih hl
    refine ⟨b :: r, ?_, .cons hR hall⟩
    rw [List.mapM_cons, hb, hr]
    rfl

/-- What a computation of each element returned belongs to the elements. -/
theorem mapM_mem {f : α → Except ε β} {l : List α} {r : List β} (h : l.mapM f = .ok r) :
    (∀ a ∈ l, ∃ b ∈ r, f a = .ok b) ∧ ∀ b ∈ r, ∃ a ∈ l, f a = .ok b := by
  induction l generalizing r with
  | nil =>
    obtain rfl : [] = r := by simpa [pure, Except.pure] using h
    simp
  | cons a l ih =>
    rw [List.mapM_cons] at h
    obtain ⟨b, hb, h⟩ := bind_eq_ok.mp h
    obtain ⟨r', hr, h⟩ := bind_eq_ok.mp h
    cases h
    obtain ⟨hl, hr⟩ := ih hr
    refine ⟨List.forall_mem_cons.mpr ⟨⟨b, List.mem_cons_self, hb⟩, fun a' ha' => ?_⟩,
      List.forall_mem_cons.mpr ⟨⟨a, List.mem_cons_self, hb⟩, fun b' hb' => ?_⟩⟩
    · obtain ⟨b', hb', he⟩ := hl a' ha'
      exact ⟨b', List.mem_cons_of_mem _ hb', he⟩
    · obtain ⟨a', ha', he⟩ := hr b' hb'
      exact ⟨a', List.mem_cons_of_mem _ ha', he⟩

theorem mapM_subset {f : α → Except ε β} {l l' : List α} {r r' : List β} (h : l.mapM f = .ok r)
    (h' : l'.mapM f = .ok r') (hsub : ∀ a ∈ l', a ∈ l) : ∀ b ∈ r', b ∈ r := by
  intro b hb
  obtain ⟨a, ha, hab⟩ := (mapM_mem h').2 b hb
  obtain ⟨b', hb', hab'⟩ := (mapM_mem h).1 a (hsub a ha)
  rwa [Except.ok.inj (hab.symm.trans hab')]

theorem exists_mapM_of_subset {f : α → Except ε β} {l l' : List α} {r : List β}
    (h : l.mapM f = .ok r) (hsub : ∀ a ∈ l', a ∈ l) :
    ∃ r', l'.mapM f = .ok r' ∧ ∀ b ∈ r', b ∈ r := by
  obtain ⟨r', hr', -⟩ := mapM_forall₂ (R := fun _ _ => True) fun a ha =>
    let ⟨b, _, hb⟩ := (mapM_mem h).1 a (hsub a ha)
    ⟨b, hb, trivial⟩
  exact ⟨r', hr', mapM_subset h hr' hsub⟩

theorem foldlM_ne_error {f : β → α → Except ε β} {e : ε} {l : List α} {b : β}
    (hf : ∀ b, ∀ a ∈ l, f b a ≠ .error e) : l.foldlM f b ≠ .error e := by
  induction l generalizing b with
  | nil => simp [pure, Except.pure]
  | cons a l ih =>
    intro h
    rcases bind_eq_error.mp h with h | ⟨b', -, h⟩
    · exact hf b a List.mem_cons_self h
    · exact ih (fun b x hx => hf b x (List.mem_cons_of_mem _ hx)) h

theorem mapM_eq_error_iff {f : α → Except ε β} {e : ε} {l : List α} : l.mapM f = .error e ↔
    ∃ done a rest, l = done ++ a :: rest ∧ (∀ x ∈ done, ∃ b, f x = .ok b) ∧ f a = .error e := by
  induction l with
  | nil => simp [pure, Except.pure]
  | cons x l ih =>
    have hcons : (x :: l).mapM f = .error e ↔ f x = .error e ∨
        ∃ b, f x = .ok b ∧ l.mapM f = .error e := by
      rw [List.mapM_cons]
      refine bind_eq_error.trans (or_congr_right (exists_congr fun b => and_congr_right fun _ => ?_))
      refine bind_eq_error.trans (or_iff_left ?_)
      rintro ⟨bs, -, h⟩
      cases h
    rw [hcons, ih]
    constructor
    · rintro (h | ⟨b, hb, done, a, rest, rfl, hdone, ha⟩)
      · exact ⟨[], x, l, rfl, List.forall_mem_nil _, h⟩
      · exact ⟨x :: done, a, rest, rfl, List.forall_mem_cons.mpr ⟨⟨b, hb⟩, hdone⟩, ha⟩
    · rintro ⟨done, a, rest, hl, hdone, ha⟩
      cases done with
      | nil =>
        obtain ⟨rfl, rfl⟩ := List.cons.inj hl
        exact .inl ha
      | cons y done =>
        obtain ⟨rfl, rfl⟩ := List.cons.inj hl
        obtain ⟨⟨b, hb⟩, hdone⟩ := List.forall_mem_cons.mp hdone
        exact .inr ⟨b, hb, done, a, rest, rfl, hdone, ha⟩

theorem mapM_ne_error {f : α → Except ε β} {e : ε} (hf : ∀ a, f a ≠ .error e) (l : List α) :
    l.mapM f ≠ .error e := by
  intro h
  obtain ⟨-, a, -, -, -, ha⟩ := mapM_eq_error_iff.mp h
  exact hf a ha

end Orthant
