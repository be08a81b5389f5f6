import Mathlib
import Orthant.Proofs.EquationSystem.Homotopy

/-! # The names of a homotopy

The deformation parameter and the parameters of a homotopy are named after its variables, by loops that
stop whatever the variables are called. So no name can make the homotopy fail, and no two names are alike
but those of variables that the support names alike.
-/

namespace Orthant

namespace Homotopy

variable {s : Support} {program : Balance.Program} {h : Homotopy}

/-! ## Other names for the variables -/

theorem checked_rename (hs : s.checked = .ok s) (names : List String) :
    ({ s with names := names } : Support).checked = .ok { s with names := names } := by
  unfold Support.checked at hs ⊢
  split at hs
  · cases hs
  · split at hs
    · cases hs
    · rw [if_neg ‹_›, if_neg ‹_›]

theorem build_rename (hb : build s program = .ok h) (names : List String) :
    build { s with names := names } program =
      .ok (ofWeights { s with names := names } h.weights) := by
  obtain ⟨hs, hsmooth, b, rest, w, hneg, hw, rfl⟩ := build_eq_ok_iff.mp hb
  exact build_of_weights (checked_rename hs names) hneg hw hsmooth

/-- Fresh names are found: the loop that looks for a name, and the loop that looks for numbered names,
stop for every stem and all taken names, with the fewest underscores that make the names new. Hence the
names of a homotopy are apart: whatever its variables are called, it is built, its deformation parameter
and its parameters are new and distinct, and all names are distinct exactly if the variables are. -/
theorem names_settle_apart :
    (∀ (name : String) (taken : List String), ∃ k ≤ taken.length,
      Settles (· ∈ taken) k name (freshName name taken) ∧
        IsLeast {k | name ++ underscores k ∉ taken} k ∧
        freshName name taken = name ++ underscores k) ∧
    (∀ (stem : String) (count : ℕ) (taken : List String), ∃ k ≤ taken.length,
      Settles (fun stem => ∃ i < count, stem ++ toString i ∈ taken) k stem (stem ++ underscores k) ∧
        IsLeast {k | ∀ i < count, stem ++ underscores k ++ toString i ∉ taken} k ∧
        freshNames stem count taken =
          (List.range count).map (fun i => stem ++ underscores k ++ toString i) ∧
        (freshNames stem count taken).length = count ∧ (freshNames stem count taken).Nodup) ∧
    ∀ (s : Support) (program : Balance.Program) (h : Homotopy), build s program = .ok h →
      ∀ names : List String, ∃ h', build { s with names := names } program = .ok h' ∧
        h'.system.unknowns = h'.system.t :: names ∧
        h'.system.t = freshName "t" names ∧
        h'.system.parameters =
          freshNames "p" (s.positiveExponents.length + s.negativeExponents.length)
            (names ++ [h'.system.t]) ∧
        h'.system.t ∉ names ∧ h'.system.t ∉ h'.system.parameters ∧
        (∀ x ∈ names, x ∉ h'.system.parameters) ∧ h'.system.parameters.Nodup ∧
        ((h'.system.unknowns ++ h'.system.parameters).Nodup ↔ names.Nodup) := by
  refine ⟨settles_freshName, fun stem count taken => ?_, ?_⟩
  · obtain ⟨k, hk, hsettles, hleast, hnames⟩ := settles_freshNames stem count taken
    exact ⟨k, hk, hsettles, hleast, hnames, length_freshNames _ _ _, nodup_freshNames _ _ _⟩
  · intro s program h hb names
    set s' : Support := { s with names := names }
    obtain ⟨hnodup, hdisjoint⟩ := parametric_names s'
    have hcount : s.positiveExponents.length + s.negativeExponents.length =
        s'.positiveTerms.length + s'.negativeTerms.length := by
      rw [Support.positiveExponents, Support.negativeExponents, List.length_map, List.length_map]
      rfl
    refine ⟨ofWeights s' h.weights, build_rename hb names, rfl, rfl, ?_, freshName_notMem _ _,
      hdisjoint _ List.mem_cons_self, ?_, hnodup, nodup_parametric_iff s'⟩
    · rw [hcount]
      rfl
    · intro x hx
      exact hdisjoint x (List.mem_cons_of_mem _ hx)

/-- Five terms, the negative one inside the simplex of the others. -/
def quartic : Support :=
  ⟨["x", "y", "z"], [[4, 0, 0], [1, 1, 1], [0, 4, 0], [0, 0, 4], [0, 0, 0]],
    [.exact 1, .exact (-5), .exact 1, .exact 1, .exact 1], true⟩

/-- With variables named like the deformation parameter, like the first parameter, and like the last
one behind an underscore, both loops turn. -/
theorem names_settle_apart_quartic :
    Settles (· ∈ ["t_", "x", "t"]) 2 "t" "t__" ∧ ∃ h h', build quartic = .ok h ∧
      build { quartic with names := ["t", "p0", "p_4"] } = .ok h' ∧
      h'.system.unknowns = ["t_", "t", "p0", "p_4"] ∧
      h'.system.parameters = ["p__0", "p__1", "p__2", "p__3", "p__4"] ∧
      (h'.system.unknowns ++ h'.system.parameters).Nodup := by
  have hb : build quartic = .ok (ofWeights quartic [1 / 4, 1 / 4, 1 / 4, 1 / 4, 1]) :=
    build_of_weights rfl (show quartic.negativeExponents = [[1, 1, 1]] by decide +kernel)
      (by decide +kernel) rfl
  obtain ⟨hname, -, hbuild⟩ := names_settle_apart
  obtain ⟨k, -, hsettles, -, hk⟩ := hname "t" ["t_", "x", "t"]
  obtain ⟨h', hb', hunknowns, ht, hparameters, -, -, -, -, hnodup⟩ :=
    hbuild quartic _ _ hb ["t", "p0", "p_4"]
  have hfresh : freshName "t" ["t_", "x", "t"] = "t" ++ underscores 2 := by decide +kernel
  have hfirst : freshName "t" ["t", "p0", "p_4"] = "t_" := by decide +kernel
  obtain rfl : k = 2 := append_underscores_inj (hk.symm.trans hfresh)
  refine ⟨?_, _, h', hb, hb', ?_, ?_, hnodup.mpr (by decide)⟩
  · rwa [hfresh] at hsettles
  · rw [hunknowns, ht, hfirst]
  · rw [hparameters, ht, hfirst]
    decide +kernel

end Homotopy

end Orthant
