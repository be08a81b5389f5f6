import Mathlib
import Orthant.Proofs.Box.Ball
import Orthant.Proofs.Decision.Order
import Orthant.Proofs.Decision.Soundness
import Orthant.Proofs.Solver.Session

/-! # From printed balls to the verdict

The engine prints the balls of a box as texts. On the way from these texts to the verdict nothing is
rounded: whether a verdict is unknown can be read off from the numbers that stand in the two balls of
`t`. Entries that are not certified leave no trace. A run of digits that is too long for an integer is
the one thing that the client cannot read in a finite ball.
-/

namespace Orthant

/-! ## Balls and rectangles -/

namespace Ball

/-- The text is a finite ball, its radius not negative. -/
def Describes (s : String) (q ρ : ℚ) : Prop := 0 ≤ ρ ∧ ∃ k, Writes s q ρ k

/-- All runs of digits are short enough for integers. -/
def IsShort (s : String) : Prop := ∀ q ρ k, Writes s q ρ k → k ≤ digitLimit

variable {s : String} {q ρ : ℚ} {k : ℕ}

theorem Describes.bounds_eq (h : Describes s q ρ) (hs : IsShort s) :
    bounds s = .ok (q - ρ, q + ρ) := by
  obtain ⟨-, k, hk⟩ := h
  obtain ⟨cs, hcs⟩ := Ball.bounds_eq hk
  rw [hcs, if_pos (hs q ρ k hk)]

theorem isShort_of_writes (h : Writes s q ρ k) (hk : k ≤ digitLimit) : IsShort s := by
  intro q' ρ' k' h'
  obtain ⟨_, hcs⟩ := Ball.bounds_eq h
  obtain ⟨_, hcs'⟩ := Ball.bounds_eq h'
  by_contra hlong
  rw [hcs, if_pos hk, if_neg hlong] at hcs'
  cases hcs'

end Ball

namespace Client

open Ball Decision

section Rectangles

variable {re im : String} {q ρ q' ρ' : ℚ} {k : ℕ}

theorem readRectangle_eq (hre : Describes re q ρ) (him : Describes im q' ρ') (hre' : IsShort re)
    (him' : IsShort im) : readRectangle re im = .ok ⟨q - ρ, q + ρ, q' - ρ', q' + ρ'⟩ := by
  have hsides : ¬ (q + ρ < q - ρ ∨ q' + ρ' < q' - ρ') := by
    have := hre.1
    have := him.1
    rintro (h | h) <;> linarith
  have hrectangle : Rectangle.ofBalls re im = .ok ⟨q - ρ, q + ρ, q' - ρ', q' + ρ'⟩ := by
    unfold Rectangle.ofBalls
    rw [hre.bounds_eq hre', him.bounds_eq him']
    change Rectangle.checked _ = _
    unfold Rectangle.checked
    rw [if_neg hsides]
  unfold readRectangle
  rw [hrectangle]

theorem readRectangle_of_long (h : Writes re q ρ k) (hk : digitLimit < k) (im : String) :
    ∃ text, readRectangle re im = .error (.boxNotFinite text) := by
  obtain ⟨cs, hcs⟩ := Ball.bounds_eq h
  have herror : Rectangle.ofBalls re im = .error (.ballNotFinite (String.ofList cs)) := by
    unfold Rectangle.ofBalls
    rw [hcs, if_neg (not_le.mpr hk)]
    rfl
  unfold readRectangle
  rw [herror]
  exact ⟨_, rfl⟩

theorem holdsReal_one_iff :
    Rectangle.HoldsReal ⟨q - ρ, q + ρ, q' - ρ', q' + ρ'⟩ 1 ↔ |1 - q| ≤ ρ ∧ |q'| ≤ ρ' := by
  rw [abs_le, abs_le]
  simp only [Rectangle.HoldsReal]
  norm_cast
  constructor
  · rintro ⟨h₁, h₂, h₃, h₄⟩
    exact ⟨⟨by linarith, by linarith⟩, by linarith, by linarith⟩
  · rintro ⟨⟨h₁, h₂⟩, h₃, h₄⟩
    exact ⟨by linarith, by linarith, by linarith, by linarith⟩

end Rectangles

end Client

open Ball

/-! ## Entries -/

/-- All balls are finite, and there is one for `t`. -/
structure Balls.AreFinite (b : Balls) : Prop where
  re_ne_nil : b.re ≠ []
  im_ne_nil : b.im ≠ []
  describes : ∀ s ∈ b.re ++ b.im, ∃ q ρ, Describes s q ρ

namespace Entry

variable {e : Entry} {preferRefined : Bool}

/-- The candidate has a `t`, and its coordinates are numbers without `nan`. -/
def IsNumeric (e : Entry) : Prop :=
  ∃ t x, e.candidate.toComplexes = .ok (t :: x) ∧ ∀ z ∈ t :: x, z.re.isNaN = false ∧ z.im.isNaN = false

/-- The boxes that are there have finite balls. -/
def HasBalls (e : Entry) : Prop := ∀ b, e.interval = some b ∨ e.refined = some b → b.AreFinite

/-- The balls have no run of digits that is too long for an integer. -/
def IsShort (e : Entry) : Prop :=
  ∀ b, e.interval = some b ∨ e.refined = some b → ∀ s ∈ b.re ++ b.im, Ball.IsShort s

/-- The balls of the preferred box: the refined one if it is wanted and present. -/
def balls (e : Entry) (preferRefined : Bool) : Option Balls :=
  if preferRefined && e.refined.isSome then e.refined else e.interval

/-- The two balls of `t` reach over the number 1. -/
def HoldsOne (e : Entry) (preferRefined : Bool) : Prop :=
  ∃ b re im q ρ q' ρ', e.balls preferRefined = some b ∧ b.re.head? = some re ∧
    b.im.head? = some im ∧ Describes re q ρ ∧ Describes im q' ρ' ∧ |1 - q| ≤ ρ ∧ |q'| ≤ ρ'

/-- The certificate of an entry as far as the balls do not matter. -/
def outline (e : Entry) : Certificate where
  candidate := match e.candidate.toComplexes with
    | .ok z => z.map Value.complex
    | .error _ => []
  positive := e.positive
  certified := e.certified
  interval := none
  refined := none

end Entry

/-! ## Reading -/

namespace Client

open Decision

section Reading

variable {e : Entry} {b : Balls} {preferRefined : Bool}

/-- The rectangle of `t` in a box, if there is a box, is that of its first two balls. -/
inductive ReadsBox : Option Balls → Option (List Rectangle) → Prop
  | missing : ReadsBox none none
  | present {b : Balls} {re im : String} {r : Rectangle} {rs : List Rectangle} :
      b.re.head? = some re → b.im.head? = some im → readRectangle re im = .ok r →
        ReadsBox (some b) (some (r :: rs))

/-- The certificate has the candidate and the marks of the entry, and its boxes where it is
certified. -/
structure Reads (e : Entry) (c : Certificate) : Prop where
  candidate : c.candidate = e.outline.candidate
  positive : c.positive = e.positive
  certified : c.certified = e.certified
  interval : e.certified = true → ReadsBox e.interval c.interval
  refined : e.certified = true → ReadsBox e.refined c.refined

theorem exists_readBox {box : Option Balls} (hb : ∀ b, box = some b → b.AreFinite)
    (hs : ∀ b, box = some b → ∀ s ∈ b.re ++ b.im, Ball.IsShort s) :
    ∃ rs, readBox box = .ok rs ∧ ReadsBox box rs := by
  cases box with
  | none => exact ⟨none, rfl, .missing⟩
  | some b =>
    obtain ⟨re, res, hre⟩ := List.exists_cons_of_ne_nil (hb b rfl).re_ne_nil
    obtain ⟨im, ims, him⟩ := List.exists_cons_of_ne_nil (hb b rfl).im_ne_nil
    have hread : ∀ p ∈ b.re.zip b.im, ∃ r, readRectangle p.1 p.2 = .ok r ∧
        readRectangle p.1 p.2 = .ok r := by
      rintro ⟨x, y⟩ hp
      obtain ⟨hx, hy⟩ := List.of_mem_zip hp
      have hx := List.mem_append_left b.im hx
      have hy := List.mem_append_right b.re hy
      obtain ⟨q, ρ, hq⟩ := (hb b rfl).describes x hx
      obtain ⟨q', ρ', hq'⟩ := (hb b rfl).describes y hy
      have h := readRectangle_eq hq hq' (hs b rfl x hx) (hs b rfl y hy)
      exact ⟨_, h, h⟩
    obtain ⟨rs, hrs, hall⟩ := mapM_forall₂ hread
    rw [hre, him, List.zip_cons_cons] at hall
    cases hall with
    | @cons _ r _ rs hr hall =>
      refine ⟨some (r :: rs), ?_, ReadsBox.present (by rw [hre]; rfl) (by rw [him]; rfl) hr⟩
      unfold readBox
      dsimp only
      rw [hrs]
      rfl

theorem exists_readEntry (hnum : e.IsNumeric) (hb : e.certified = true → e.HasBalls)
    (hs : e.certified = true → e.IsShort) : ∃ c, readEntry e = .ok c ∧ Reads e c := by
  obtain ⟨t, x, hz, -⟩ := hnum
  have hcandidate : e.outline.candidate = (t :: x).map Value.complex := by
    simp only [Entry.outline, hz]
  unfold readEntry
  rw [hz]
  cases hcert : e.certified with
  | false =>
    refine ⟨⟨(t :: x).map Value.complex, e.positive, false, none, none⟩, rfl,
      hcandidate.symm, rfl, hcert.symm, ?_, ?_⟩ <;>
    · intro h
      rw [hcert] at h
      cases h
  | true =>
    obtain ⟨rs, hrs, hreads⟩ := exists_readBox (fun b h => hb hcert b (.inl h))
      fun b h => hs hcert b (.inl h)
    obtain ⟨rs', hrs', hreads'⟩ := exists_readBox (fun b h => hb hcert b (.inr h))
      fun b h => hs hcert b (.inr h)
    refine ⟨⟨(t :: x).map Value.complex, e.positive, true, rs, rs'⟩, ?_,
      hcandidate.symm, rfl, hcert.symm, fun _ => hreads, fun _ => hreads'⟩
    change ((readBox e.interval).bind fun i => (readBox e.refined).bind fun r =>
      .ok (⟨(t :: x).map Value.complex, e.positive, true, i, r⟩ : Certificate)) = _
    rw [hrs, hrs']
    rfl

theorem readEntry_ne_ok {re im : String} {q ρ : ℚ} {k : ℕ} (hcert : e.certified = true)
    (hb : e.interval = some b) (hmem : (re, im) ∈ b.re.zip b.im) (hre : Writes re q ρ k)
    (hk : digitLimit < k) (c : Certificate) : readEntry e ≠ .ok c := by
  intro h
  obtain ⟨z, -, h⟩ := bind_eq_ok.mp h
  rw [hcert, if_pos rfl] at h
  obtain ⟨i, hi, -⟩ := bind_eq_ok.mp h
  rw [hb] at hi
  obtain ⟨rs, hrs, -⟩ := bind_eq_ok.mp hi
  obtain ⟨r, -, hr⟩ := (mapM_mem hrs).1 _ hmem
  obtain ⟨text, htext⟩ := readRectangle_of_long hre hk im
  rw [htext] at hr
  cases hr

theorem ReadsBox.isSome_eq {box : Option Balls} {rs : Option (List Rectangle)}
    (h : ReadsBox box rs) : rs.isSome = box.isSome := by
  cases h <;> rfl

theorem Reads.box {c : Certificate} (h : Reads e c) (hcert : e.certified = true)
    (preferRefined : Bool) : ReadsBox (e.balls preferRefined) (c.box preferRefined) := by
  unfold Entry.balls Certificate.box
  rw [(h.refined hcert).isSome_eq]
  split
  · exact h.refined hcert
  · exact h.interval hcert

theorem Reads.holdsOne_iff {c : Certificate} (h : Reads e c) (hcert : e.certified = true)
    (hb : e.HasBalls) (hs : e.IsShort) : ∃ r, c.tInterval preferRefined = .ok r ∧
      (e.HoldsOne preferRefined ↔ ∃ r', r = some r' ∧ r'.HoldsReal 1) := by
  have hbox := h.box hcert preferRefined
  have hmem : ∀ b, e.balls preferRefined = some b → e.interval = some b ∨ e.refined = some b := by
    intro b h
    unfold Entry.balls at h
    split at h
    · exact .inr h
    · exact .inl h
  unfold Certificate.tInterval Entry.HoldsOne
  generalize e.balls preferRefined = balls at hbox hmem
  generalize c.box preferRefined = rs at hbox
  cases hbox with
  | missing => exact ⟨none, rfl, by simp⟩
  | @present b re im r rs hre him hr =>
    have hread : ∀ q ρ q' ρ', Describes re q ρ → Describes im q' ρ' →
        r = ⟨q - ρ, q + ρ, q' - ρ', q' + ρ'⟩ := by
      intro q ρ q' ρ' hq hq'
      have hre := hs b (hmem b rfl) re (List.mem_append_left _ (List.mem_of_head? hre))
      have him := hs b (hmem b rfl) im (List.mem_append_right _ (List.mem_of_head? him))
      exact Except.ok.inj (hr.symm.trans (readRectangle_eq hq hq' hre him))
    have hfinite := hb b (hmem b rfl)
    obtain ⟨q, ρ, hq⟩ := hfinite.describes re (List.mem_append_left _ (List.mem_of_head? hre))
    obtain ⟨q', ρ', hq'⟩ := hfinite.describes im (List.mem_append_right _ (List.mem_of_head? him))
    refine ⟨some r, rfl, ?_⟩
    constructor
    · rintro ⟨b', re', im', q, ρ, q', ρ', hb', hre', him', hq, hq', h⟩
      obtain rfl := Option.some.inj hb'
      obtain rfl := Option.some.inj (hre.symm.trans hre')
      obtain rfl := Option.some.inj (him.symm.trans him')
      refine ⟨r, rfl, ?_⟩
      rw [hread q ρ q' ρ' hq hq']
      exact holdsReal_one_iff.mpr h
    · rintro ⟨r', hr', h⟩
      obtain rfl := Option.some.inj hr'
      rw [hread q ρ q' ρ' hq hq'] at h
      exact ⟨b, re, im, q, ρ, q', ρ', rfl, hre, him, hq, hq', holdsReal_one_iff.mp h⟩

end Reading

/-! ## Readable entries -/

section Readable

variable {entries : List Entry}

def certificateOf (e : Entry) : Certificate :=
  match readEntry e with
  | .ok c => c
  | .error _ => e.outline

/-- The entries can be read: their candidates are numeric, and the balls of the certified ones are
finite and short. -/
structure AreReadable (entries : List Entry) : Prop where
  numeric : ∀ e ∈ entries, e.IsNumeric
  hasBalls : ∀ e ∈ entries, e.certified = true → e.HasBalls
  isShort : ∀ e ∈ entries, e.certified = true → e.IsShort

theorem AreReadable.reads (h : AreReadable entries) {e : Entry} (he : e ∈ entries) :
    readEntry e = .ok (certificateOf e) ∧ Reads e (certificateOf e) := by
  obtain ⟨c, hc, hreads⟩ := exists_readEntry (h.numeric e he) (h.hasBalls e he) (h.isShort e he)
  have hof : certificateOf e = c := by rw [certificateOf, hc]
  rw [hof]
  exact ⟨hc, hreads⟩

theorem AreReadable.mapM_eq (h : AreReadable entries) :
    entries.mapM readEntry = .ok (entries.map certificateOf) :=
  mapM_eq_ok fun _ he => (h.reads he).1

theorem AreReadable.isEligible_iff (h : AreReadable entries) {e : Entry} (he : e ∈ entries) :
    (certificateOf e).IsEligible ↔ e.outline.IsEligible := by
  unfold Certificate.IsEligible
  rw [(h.reads he).2.positive, (h.reads he).2.certified]
  rfl

theorem AreReadable.isNumeric (h : AreReadable entries) :
    ∀ c ∈ entries.map certificateOf, c.IsNumeric := by
  intro c hc
  obtain ⟨e, he, rfl⟩ := List.mem_map.mp hc
  obtain ⟨t, x, hz, hnum⟩ := h.numeric e he
  refine ⟨t, x, ?_, hnum⟩
  rw [(h.reads he).2.candidate, Entry.outline, hz]
  exact mapM_map_eq_ok (f := Value.toComplex) (g := Value.complex) (fun _ => rfl) (t :: x)

theorem AreReadable.isSelected_iff (h : AreReadable entries) {i : ℕ} {e : Entry}
    (he : entries[i]? = some e) :
    IsSelected (entries.map certificateOf) i (certificateOf e) ↔
      IsSelected (entries.map Entry.outline) i e.outline := by
  constructor
  · exact IsSelected.of_map (fun e he => (h.reads he).2.candidate)
      (fun e he => h.isEligible_iff he) he
  · exact IsSelected.of_map (fun e he => (h.reads he).2.candidate.symm)
      (fun e he => (h.isEligible_iff he).symm) he

theorem AreReadable.eligible_eq (h : AreReadable entries) :
    eligible (entries.map certificateOf) =
      ((entries.filter Entry.certified).filter Entry.positive).map certificateOf := by
  unfold eligible
  rw [List.filter_map, List.filter_filter]
  congr 1
  apply List.filter_congr
  intro e he
  simp [(h.reads he).2.positive, (h.reads he).2.certified]

/-- The verdict on readable entries is unknown if and only if the two balls of the selected entry reach
over 1. -/
theorem AreReadable.unknown_iff (h : AreReadable entries) (method : Method) (preferRefined : Bool) :
    ∃ d, ofCertificates (entries.map certificateOf) method preferRefined = .ok d ∧
      (d.copositive = .unknown ↔ ∃ i e, entries[i]? = some e ∧
        IsSelected (entries.map Entry.outline) i e.outline ∧ e.HoldsOne preferRefined) := by
  have hnum := fun c hc (_ : c.IsEligible) => h.isNumeric c hc
  rcases ofCertificates_cases hnum method preferRefined with ⟨hnil, hd⟩ | ⟨i, c, hsel, hd⟩
  · refine ⟨_, hd, nofun, ?_⟩
    rintro ⟨i, e, he, hsel, -⟩
    exact absurd (hnil ▸ ((h.isSelected_iff he).mpr hsel).mem_eligible) List.not_mem_nil
  · have hget := hsel.get
    rw [List.getElem?_map] at hget
    obtain ⟨e, he, rfl⟩ := Option.map_eq_some_iff.mp hget
    have hmem := List.mem_of_getElem? he
    have hcert : e.certified = true := ((h.isEligible_iff hmem).mp hsel.isEligible).2
    obtain ⟨r, hr, hone⟩ := (h.reads hmem).2.holdsOne_iff hcert (h.hasBalls e hmem hcert)
      (h.isShort e hmem hcert)
    rw [hr] at hd
    refine ⟨_, hd, ?_⟩
    rw [verdict_eq_unknown_iff, ← hone]
    constructor
    · intro hholds
      exact ⟨i, e, he, (h.isSelected_iff he).mp hsel, hholds⟩
    · rintro ⟨j, e', he', hsel', hholds⟩
      obtain ⟨rfl, -⟩ := hsel.unique ((h.isSelected_iff he').mpr hsel')
      obtain rfl := Option.some.inj (he.symm.trans he')
      exact hholds

end Readable

/-! ## A ball around 1 -/

section Around

/-- An engine without failures. -/
def answering (entries : List Entry) : Engine where
  load _ := none
  system _ := none
  solve _ := .ok []
  track _ := .ok []
  certify _ := .ok entries

theorem answers_answering (entries : List Entry) : (answering entries).Answers entries :=
  ⟨fun _ => rfl, fun _ => rfl, fun _ => rfl⟩

/-- An entry with `t = 1` and one ball around it. -/
def entryAround (re : String) : Entry where
  candidate := .list [.complex ⟨.one, .zero⟩]
  positive := true
  certified := true
  interval := some ⟨[re], ["0"]⟩
  refined := none

def entryInfinite : Entry := { entryAround "[+/- inf]" with certified := false }

theorem isNumeric_entryAround (re : String) : (entryAround re).IsNumeric :=
  ⟨⟨.one, .zero⟩, [], rfl, by decide⟩

theorem writes_zero : Writes "0" 0 0 1 := by
  have h := literal_integer (digits_singleton digitValue?_zero) Nat.one_pos
  rw [Nat.cast_zero] at h
  exact ⟨[], ['0'], [], rfl, List.forall_mem_nil _, .exact h, List.forall_mem_nil _⟩

/-- The ball around 1 with radius one half, with `k` zeros after the point. -/
def zerosText (k : ℕ) : String := String.ofList ('[' :: ('1' :: '.' :: List.replicate k '0') ++
  " +/- 0.5]".toList)

theorem writes_zerosText (k : ℕ) : Writes (zerosText k) 1 (1 / 2) (max (max 1 k) 1) := by
  have hmid : Literal ('1' :: '.' :: List.replicate k '0') 1 (max 1 k) := by
    have hone : digitValue? '1' = some 1 := rfl
    simpa using literal_decimal (digits_singleton hone) (digits_zeros k) (by simp)
  have hrad : Literal ['0', '.', '5'] (1 / 2) 1 := by
    have hfive : digitValue? '5' = some 5 := rfl
    have h := literal_decimal (digits_singleton digitValue?_zero) (digits_singleton hfive) (by simp)
    norm_num at h ⊢
    exact h
  have hblank : Blanks [' '] := by simp [Blanks]; decide
  have hnil : Blanks [] := List.forall_mem_nil _
  have hball := Bare.ball hnil (.literal hmid) hblank hblank hrad hnil
  refine ⟨[], _, [], ?_, hnil, hball, hnil⟩
  simp [zerosText]

theorem hasBalls_entryAround (k : ℕ) : (entryAround (zerosText k)).HasBalls := by
  rintro b (hb | hb)
  · obtain rfl := Option.some.inj hb
    refine ⟨List.cons_ne_nil _ _, List.cons_ne_nil _ _, fun s hs => ?_⟩
    rcases List.mem_pair.mp hs with rfl | rfl
    · exact ⟨1, 1 / 2, by norm_num, _, writes_zerosText k⟩
    · exact ⟨0, 0, le_rfl, _, writes_zero⟩
  · cases hb

theorem isShort_entryAround {k : ℕ} (hk : k ≤ digitLimit) : (entryAround (zerosText k)).IsShort := by
  have hone : 1 ≤ digitLimit := by simp [digitLimit]
  rintro b (hb | hb) s hs
  · obtain rfl := Option.some.inj hb
    rcases List.mem_pair.mp hs with rfl | rfl
    · exact isShort_of_writes (writes_zerosText k) (max_le (max_le hone hk) hone)
    · exact isShort_of_writes writes_zero hone
  · cases hb

theorem holdsOne_entryAround (k : ℕ) (b : Bool) : (entryAround (zerosText k)).HoldsOne b := by
  refine ⟨⟨[zerosText k], ["0"]⟩, zerosText k, "0", 1, 1 / 2, 0, 0, by cases b <;> rfl, rfl, rfl,
    ⟨by norm_num, _, writes_zerosText k⟩, ⟨le_rfl, _, writes_zero⟩, ?_, ?_⟩ <;> norm_num

end Around

/-! ## The verdict of a client -/

section Verdict

variable {engine : Engine} {entries : List Entry} {s : EquationSystem} {c : Connection}

/-- A client that certifies with finite balls, their radii not negative and their runs of digits short
enough for integers, leads to a verdict. It is unknown if and only if the two balls of `t` in the
preferred box of the selected entry reach over 1 by the numbers printed in them. Entries that are not
certified make no difference. -/
theorem unknown_iff_of_certify (hengine : engine.Answers entries) (hs : s.parameters = [])
    (hflat : ∃ flat, s.flat = .ok flat) (hc : c.client.attached = true) (h : AreReadable entries)
    (solutions : List Solution) (method : Method) (preferRefined : Bool) :
    ∃ cs d, ((certify engine s solutions).runFrom c).1 = .ok cs ∧
      ofCertificates cs method preferRefined = .ok d ∧
      (d.copositive = .unknown ↔ ∃ i e, entries[i]? = some e ∧
        IsSelected (entries.map Entry.outline) i e.outline ∧ e.HoldsOne preferRefined) ∧
      ∀ engine' entries', Engine.Answers engine' entries' → (∀ e ∈ entries', e.IsNumeric) →
        entries'.filter Entry.certified = entries.filter Entry.certified →
        ∃ cs' d', ((certify engine' s solutions).runFrom c).1 = .ok cs' ∧
          ofCertificates cs' method preferRefined = .ok d' ∧
            Decision.outcome d' = Decision.outcome d := by
  obtain ⟨flat, hflat⟩ := hflat
  obtain ⟨d, hd, hunknown⟩ := h.unknown_iff method preferRefined
  refine ⟨_, d, (certify_eq hengine hs hflat hc solutions).trans h.mapM_eq, hd, hunknown, ?_⟩
  intro engine' entries' hengine' hnum hfilter
  have h' : AreReadable entries' := by
    have hmem : ∀ e ∈ entries', e.certified = true → e ∈ entries := fun e he hcert =>
      (List.mem_filter.mp (hfilter ▸ List.mem_filter.mpr ⟨he, hcert⟩)).1
    exact ⟨hnum, fun e he hcert => h.hasBalls e (hmem e he hcert) hcert,
      fun e he hcert => h.isShort e (hmem e he hcert) hcert⟩
  obtain ⟨d', hd', -⟩ := h'.unknown_iff method preferRefined
  refine ⟨_, d', (certify_eq hengine' hs hflat hc solutions).trans h'.mapM_eq, hd', ?_⟩
  have heligible : eligible (entries'.map certificateOf) = eligible (entries.map certificateOf) := by
    rw [h.eligible_eq, h'.eligible_eq, hfilter]
  have houtcome := map_outcome_ofCertificates (entries'.map certificateOf) method preferRefined
  rw [heligible, ← map_outcome_ofCertificates, hd, hd'] at houtcome
  exact Except.ok.inj houtcome

theorem unknown_iff_of_certify_half : ∃ cs d,
    ((certify (answering [entryAround (zerosText 1), entryInfinite]) ⟨["t"], [], []⟩ []).runFrom
        (.start true ⟨false, []⟩)).1 = .ok cs ∧
      ofCertificates cs .general true = .ok d ∧ d.copositive = .unknown := by
  have hreadable : AreReadable [entryAround (zerosText 1), entryInfinite] := by
    constructor
    · intro e he
      rcases List.mem_pair.mp he with rfl | rfl
      · exact isNumeric_entryAround _
      · exact isNumeric_entryAround "[+/- inf]"
    · intro e he hcert
      rcases List.mem_pair.mp he with rfl | rfl
      · exact hasBalls_entryAround 1
      · cases hcert
    · intro e he hcert
      rcases List.mem_pair.mp he with rfl | rfl
      · exact isShort_entryAround (by simp [digitLimit])
      · cases hcert
  obtain ⟨cs, d, hcs, hd, hunknown, -⟩ := unknown_iff_of_certify (s := ⟨["t"], [], []⟩)
    (c := .start true ⟨false, []⟩) (answers_answering [entryAround (zerosText 1), entryInfinite]) rfl
    ⟨[], rfl⟩ rfl hreadable [] .general true
  refine ⟨cs, d, hcs, hd, hunknown.mpr ⟨0, _, rfl, isSelected_head ⟨rfl, rfl⟩ ?_, ?_⟩⟩
  · intro c hc hel
    obtain rfl := List.mem_singleton.mp hc
    cases hel.2
  · exact holdsOne_entryAround 1 true

/-- A ball with more digits than an integer may have stops the client, although it is finite and reaches
over 1. -/
theorem certify_fails_long :
    (∀ e ∈ [entryAround (zerosText 4301)], e.IsNumeric ∧ e.HasBalls) ∧
      (∃ i e, [entryAround (zerosText 4301)][i]? = some e ∧
        IsSelected ([entryAround (zerosText 4301)].map Entry.outline) i e.outline ∧
          e.HoldsOne true) ∧
      ∀ cs, ((certify (answering [entryAround (zerosText 4301)]) ⟨["t"], [], []⟩ []).runFrom
        (.start true ⟨false, []⟩)).1 ≠ .ok cs := by
  refine ⟨?_, ⟨0, _, rfl, isSelected_head ⟨rfl, rfl⟩ (by simp), holdsOne_entryAround 4301 true⟩, ?_⟩
  · intro e he
    obtain rfl := List.mem_singleton.mp he
    exact ⟨isNumeric_entryAround _, hasBalls_entryAround 4301⟩
  · intro cs hcs
    have hflat : (⟨["t"], [], []⟩ : EquationSystem).flat = .ok [] := rfl
    rw [certify_eq (answers_answering _) rfl hflat rfl] at hcs
    obtain ⟨c, -, hc⟩ := (mapM_mem hcs).1 _ List.mem_cons_self
    exact readEntry_ne_ok rfl rfl List.mem_cons_self (writes_zerosText 4301) (by simp [digitLimit]) c hc

end Verdict

end Client

end Orthant
