import PacketSmith.Proofs.StreamsInStep
import PacketSmith.Proofs.Turns.Peers

/-!
# As many solutions in each

Two streams that have come to one path ask for its solutions one after the other. The formulas differ, but not how
many choices of lengths are left (`Asked`): each solution takes one away, unless none of several lengths may be as
before (`Engine.Sure`). So one stream finds another solution if and only if the other one does (`Open.vary`).
-/

namespace PacketSmith

open List PathSolver Explore Assignment Term

namespace PathSolver

variable {s s' t t' : PathSolver} {parser : ParserPath} {path : ControlPath}

/-- Two path solvers have come to one point, with the same formulas. -/
structure Alongside (s t : PathSolver) : Prop where
  standing : t.standing = s.standing
  fresh : t.fresh = s.fresh
  formulas : t.formulas = s.formulas

namespace Alongside

theorem lengthTerms (h : Alongside s t) : t.lengthTerms = s.lengthTerms := by
  rw [PathSolver.lengthTerms, PathSolver.lengthTerms, show t.tally = s.tally from congrArg Standing.tally h.standing]

theorem reachable (h : Alongside s t) : t.reachable = s.reachable := by
  rw [PathSolver.reachable, PathSolver.reachable, h.formulas, h.lengthTerms]

theorem of_same (h : Same s t) : Alongside s t := ⟨h.standing, h.fresh, formulas_of_same h⟩

end Alongside

end PathSolver

/-- How many solutions a path has does not depend on those that the solver picks: at most one length
varies on a path if none may be as before. -/
def Engine.Sure (engine : Engine) : Prop :=
  engine.options.variation = some "or" → ∀ ⦃parser control⦄ ⦃s : Standing⦄ ⦃n : Nat⦄,
    Trail engine.setting parser control s n → s.tally.lengths.values.length ≤ 1

/-- Constraints are kept, the solver decides, and its picks do not matter. -/
structure Engine.Steady (engine : Engine) : Prop where
  uniform : engine.setting.Uniform
  decides : engine.solver.Decides
  keeps : engine.options.incremental = true
  sure : engine.Sure

/-- As much is left for two path solvers on one path. -/
def Asked (s s' : PathSolver) : Prop := s.reachable.encard = s'.reachable.encard

section Asked

variable {engine : Engine} {parser : ParserPath} {path : ControlPath} {s s' t t' : PathSolver}

theorem Asked.alongside (h : Asked s s') (ht : Alongside s t) (ht' : Alongside s' t') : Asked t t' := by
  rw [Asked, ht.reachable, ht'.reachable]
  exact h

/-- The last answers of two path solvers on one path. -/
structure Open (s s' : PathSolver) : Prop where
  asked : Asked s s'
  sat : ∃ ρ, s.model? = some ρ ∧ ρ.Satisfies s.formulas
  sat' : ∃ ρ, s'.model? = some ρ ∧ ρ.Satisfies s'.formulas

theorem Asked.satisfiable (h : Asked s s') : Satisfiable s'.formulas ↔ Satisfiable s.formulas := by
  rw [← valuesUnder_nonempty s'.formulas s'.lengthTerms, ← valuesUnder_nonempty s.formulas s.lengthTerms,
    ← Set.encard_ne_zero, ← Set.encard_ne_zero]
  change s'.reachable.encard ≠ 0 ↔ s.reachable.encard ≠ 0
  rw [h]

theorem Asked.first (henv : engine.setting.Uniform) (hpeers : Peers engine.setting parser path s s')
    (hs : s.formulas = s.constraints.flatten) (hs' : s'.formulas = s'.constraints.flatten) : Asked s s' := by
  rw [Asked, reachable, reachable, hs, hs', hpeers.lengths henv]

theorem Open.vary (hengine : engine.Steady) (hpeers : Peers engine.setting parser path s s') (h : Open s s')
    {varied varied' : Bool} (hs : s.varyLengths engine.options.variation = .ok (varied, t))
    (hs' : s'.varyLengths engine.options.variation = .ok (varied', t')) : varied' = varied ∧ Asked t t' := by
  have hlengths := hpeers.lengths_length hengine.uniform
  have hnil : s'.lengthTerms = [] ↔ s.lengthTerms = [] := by
    rw [← length_eq_zero_iff, hlengths, length_eq_zero_iff]
  obtain ⟨ρ, hρ, hsat⟩ := h.sat
  obtain ⟨ρ', hρ', hsat'⟩ := h.sat'
  rcases varyLengths_cases hs with ⟨rfl, rfl, hnone⟩ | ⟨rfl, hterms, ρ₁, hmodel, hvary⟩ <;>
    rcases varyLengths_cases hs' with ⟨rfl, rfl, hnone'⟩ | ⟨rfl, hterms', ρ₁', hmodel', hvary'⟩
  · exact ⟨rfl, h.asked⟩
  · rcases hnone with hnone | hempty
    · rcases hvary' with ⟨hand, -⟩ | ⟨hor, -⟩
      · cases hnone.symm.trans hand
      · cases hnone.symm.trans hor
    · exact absurd (hnil.mpr hempty) hterms'
  · rcases hnone' with hnone | hempty
    · rcases hvary with ⟨hand, -⟩ | ⟨hor, -⟩
      · cases hnone.symm.trans hand
      · cases hnone.symm.trans hor
    · exact absurd (hnil.mp hempty) hterms
  · refine ⟨rfl, ?_⟩
    obtain rfl : ρ₁ = ρ := Option.some.inj (hmodel.symm.trans hρ)
    obtain rfl : ρ₁' = ρ' := Option.some.inj (hmodel'.symm.trans hρ')
    -- each solution takes one choice of lengths away
    have hfewer {t : PathSolver} {ρ : Assignment} {left : Set (List Nat)} (hsat : ρ.Satisfies t.formulas)
        (hleft : left = t.reachable \ {t.lengthsAt ρ}) : left.encard + 1 = t.reachable.encard := by
      rw [hleft]
      exact Set.encard_sdiff_singleton_add_one ⟨ρ, hsat, rfl⟩
    have hcards {left left' : Set (List Nat)} (hleft : left = s.reachable \ {s.lengthsAt ρ₁})
        (hleft' : left' = s'.reachable \ {s'.lengthsAt ρ₁'}) : left.encard = left'.encard := by
      have hsame : s.reachable.encard = s'.reachable.encard := h.asked
      rw [← hfewer hsat hleft, ← hfewer hsat' hleft'] at hsame
      exact ENat.add_left_injective_of_ne_top ENat.one_ne_top hsame
    have hexclusive (hand : engine.options.variation = some "and") : engine.options.variation ≠ some "or" := by
      rw [hand]
      decide
    rcases hvary with ⟨hand, rfl⟩ | ⟨hor, rfl⟩ <;> rcases hvary' with ⟨hand', rfl⟩ | ⟨hor', rfl⟩
    · exact hcards (s.reachable_notAll ρ₁) (s'.reachable_notAll ρ₁')
    · exact absurd hor' (hexclusive hand)
    · exact absurd hor (hexclusive hand')
    · have hone : s.lengthTerms.length = 1 :=
        le_antisymm (hengine.sure hor hpeers.trail) (length_pos_iff.mpr hterms)
      exact hcards (s.reachable_notAny_single hone ρ₁) (s'.reachable_notAny_single (hlengths.trans hone) ρ₁')

end Asked

/-! ## Taking solutions -/

namespace Explore

variable {engine : Engine} {m m' : PathModel} {s s' t t' : PathSolver} {ρ ρ' : Assignment} {fs fs' : List Formula}
  {parser : ParserPath} {path : ControlPath}

theorem Solves.released (hinc : engine.options.incremental = true) (h : Solves engine m s ρ fs t) :
    Alongside s (released engine m t) ∧ (released engine m t).model? = some ρ := by
  unfold Explore.released
  cases h with
  | short short model =>
    rw [if_neg (by simp [short])]
    exact ⟨⟨rfl, rfl, rfl⟩, model⟩
  | drawn complete draw sat =>
    rw [if_pos complete]
    have habove := above_fixed engine.solver s (s.randomConstraints draw)
    refine ⟨⟨by rw [standing_pop, habove.standing], habove.fresh, ?_⟩, ?_⟩
    · rw [PathSolver.formulas, PathSolver.pop, if_pos hinc, habove.frames, PathSolver.formulas]
    · change model? ((s.push.assert (s.randomConstraints draw)).solve engine.solver).2 = some ρ
      rw [model?, answer_solve, formulas_assert, formulas_push, sat]
      rfl

theorem Solves.sat (h : Solves engine m s ρ fs t) (hanswer : s.answer = some (engine.solver s.formulas)) :
    engine.solver (s.formulas ++ fs) = .sat ρ := by
  cases h with
  | short short model =>
    rw [model?, hanswer] at model
    rw [append_nil]
    exact sat_of_model model
  | drawn complete draw sat => exact sat

theorem Solves.unison (henv : engine.setting.Uniform) (hpeers : Peers engine.setting parser path s s')
    (hlike : m.Like m') (h : Solves engine m s ρ fs t) (h' : Solves engine m' s' ρ' fs' t') :
    SameOutcomes (Explore.released engine m t) (Explore.released engine m' t') := by
  unfold Explore.released
  rw [hlike.complete]
  cases h with
  | short short model =>
    cases h' with
    | short => simpa [short] using hpeers.outcomes
    | drawn complete =>
      rw [hlike.complete, short] at complete
      cases complete
  | drawn complete draw sat =>
    cases h' with
    | short short =>
      rw [hlike.complete, complete] at short
      cases short
    | drawn complete' draw' sat' =>
      rw [if_pos complete, if_pos complete]
      refine SameOutcomes.pop (SameOutcomes.solve (s := s.push.assert _) ⟨?_, ?_⟩ ?_) _
      · exact hpeers.outcomes.push.levels
      · exact hpeers.outcomes.base
      · -- both are satisfiable, and what is amiss in the contexts is the same
        have houtcome {s : PathSolver} {fs : List Formula} {ρ : Assignment}
            (hsat : engine.solver (s.formulas ++ fs) = .sat ρ) :
            ((s.push.assert fs).solve engine.solver).1 = if !s.context.uninitializedReads.isEmpty then .uninitializedRead
              else if !s.context.invalidWrites.isEmpty then .invalidHeaderWrite else .success := by
          have hisSat : ((s.push.assert fs).check engine.solver).isSat = true := by
            rw [PathSolver.check, formulas_assert, PathSolver.formulas_push, hsat]
            rfl
          change ((s.push.assert fs).check engine.solver).outcome = _
          rw [PathSolver.outcome, hisSat]
          rfl
        rw [houtcome sat, houtcome sat', (hpeers.accesses henv).1, (hpeers.accesses henv).2]

theorem Solves.opens (hengine : engine.Steady) (hpeers : Peers engine.setting parser path s s')
    (hasked : Asked s s') (hanswer : s.answer = some (engine.solver s.formulas))
    (hanswer' : s'.answer = some (engine.solver s'.formulas)) (hlike : m.Like m')
    (h : Solves engine m s ρ fs t) (h' : Solves engine m' s' ρ' fs' t') :
    Peers engine.setting parser path (Explore.released engine m t) (Explore.released engine m' t') ∧
      Open (Explore.released engine m t) (Explore.released engine m' t') := by
  obtain ⟨halong, hmodel⟩ := h.released hengine.keeps
  obtain ⟨halong', hmodel'⟩ := h'.released hengine.keeps
  have hholds {fs gs : List Formula} {ρ : Assignment} (h : engine.solver (fs ++ gs) = .sat ρ) :
      ρ.Satisfies fs := (satisfies_append.mp ((hengine.decides.1 _).1 ρ h)).1
  refine ⟨⟨?_, ?_, h.unison hengine.uniform hpeers hlike h'⟩, hasked.alongside halong halong',
    ⟨ρ, hmodel, ?_⟩, ⟨ρ', hmodel', ?_⟩⟩
  · rw [halong.standing, halong.fresh]
    exact hpeers.trail
  · rw [halong'.standing, halong'.fresh]
    exact hpeers.trail'
  · rw [halong.formulas]
    exact hholds (h.sat hanswer)
  · rw [halong'.formulas]
    exact hholds (h'.sat hanswer')

theorem solve_unison (henv : engine.setting.Uniform) (hsolver : engine.solver.Decides)
    (hpeers : Peers engine.setting parser path s s') (hasked : Asked s s') :
    (s'.solve engine.solver).1 = (s.solve engine.solver).1 ∧
      Peers engine.setting parser path (s.solve engine.solver).2 (s'.solve engine.solver).2 ∧
      Asked (s.solve engine.solver).2 (s'.solve engine.solver).2 := by
  have hsame := same_solve engine.solver s
  have hsame' := same_solve engine.solver s'
  have hchecked : Peers engine.setting parser path (s.check engine.solver) (s'.check engine.solver) :=
    ⟨hpeers.trail, hpeers.trail', hpeers.outcomes.levels, hpeers.outcomes.base⟩
  have hsat : (s'.check engine.solver).isSat = (s.check engine.solver).isSat := by
    rw [Bool.eq_iff_iff, hsolver.isSat_check, hsolver.isSat_check]
    exact hasked.satisfiable
  have houtcome : (s'.solve engine.solver).1 = (s.solve engine.solver).1 := hchecked.outcome henv hsat
  refine ⟨houtcome, ⟨?_, ?_, hpeers.outcomes.solve houtcome⟩, hasked.alongside (.of_same hsame) (.of_same hsame')⟩
  · rw [hsame.standing, hsame.fresh]
    exact hpeers.trail
  · rw [hsame'.standing, hsame'.fresh]
    exact hpeers.trail'

theorem Furthers.unison (hengine : engine.Steady)
    (hpeers : Peers engine.setting parser path s s') (hopen : Open s s') (hlike : m.Like m')
    {again again' : Bool} (h : Furthers engine m s again t) (h' : Furthers engine m' s' again' t') :
    again' = again ∧ (again = false → Peers engine.setting parser path t t') ∧
      (again = true → Peers engine.setting parser path (released engine m t) (released engine m' t') ∧
      Open (released engine m t) (released engine m' t')) := by
  have hvaries {varied varied' : Bool} {u u' : PathSolver}
      (hvary : s.varyLengths engine.options.variation = .ok (varied, u))
      (hvary' : s'.varyLengths engine.options.variation = .ok (varied', u')) :
      varied' = varied ∧ Peers engine.setting parser path u u' ∧ Asked u u' := by
    obtain ⟨hvaried, hasked⟩ := hopen.vary hengine hpeers hvary hvary'
    refine ⟨hvaried, ?_, hasked⟩
    rcases varyLengths_ok hvary with rfl | ⟨f, rfl⟩ <;>
      rcases varyLengths_ok hvary' with rfl | ⟨f', rfl⟩ <;>
      exact ⟨hpeers.trail, hpeers.trail', hpeers.outcomes.levels, hpeers.outcomes.base⟩
  have hwanted {varied : Bool} (h : varied = true ∨ wantsMore engine = true) (hvaried : varied = false)
      (hwants : wantsMore engine = false) : False := by simp_all
  cases h with
  | unwanted vary wants =>
    cases h' with
    | unwanted vary' => exact ⟨rfl, fun _ => (hvaries vary vary').2.1, by simp⟩
    | refuted vary' wants' | solves vary' wants' => exact (hwanted wants' (hvaries vary vary').1 wants).elim
  | refuted vary wants unsat =>
    cases h' with
    | unwanted vary' wants' => exact (hwanted wants (hvaries vary vary').1.symm wants').elim
    | refuted vary' =>
      obtain ⟨-, hpeers', hasked⟩ := hvaries vary vary'
      exact ⟨rfl, fun _ => (solve_unison hengine.uniform hengine.decides hpeers' hasked).2.1, by simp⟩
    | solves vary' _ sat' =>
      obtain ⟨-, hpeers', hasked⟩ := hvaries vary vary'
      exact absurd ((solve_unison hengine.uniform hengine.decides hpeers' hasked).1.trans unsat) sat'
  | solves vary wants sat solves =>
    cases h' with
    | unwanted vary' wants' => exact (hwanted wants (hvaries vary vary').1.symm wants').elim
    | refuted vary' _ unsat' =>
      obtain ⟨-, hpeers', hasked⟩ := hvaries vary vary'
      exact absurd ((solve_unison hengine.uniform hengine.decides hpeers' hasked).1.symm.trans unsat') sat
    | solves vary' _ _ solves' =>
      obtain ⟨-, hpeers', hasked⟩ := hvaries vary vary'
      obtain ⟨-, hsolved, hleft⟩ := solve_unison hengine.uniform hengine.decides hpeers' hasked
      refine ⟨rfl, by simp, fun _ => ?_⟩
      have hanswer (s : PathSolver) : (s.solve engine.solver).2.answer =
          some (engine.solver (s.solve engine.solver).2.formulas) := by
        rw [answer_solve, formulas_of_same (same_solve _ s)]
      exact solves.opens hengine hsolved hleft (hanswer _) (hanswer _) hlike solves'

end Explore

end PacketSmith
