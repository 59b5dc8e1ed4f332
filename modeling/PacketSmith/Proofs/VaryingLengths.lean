import PacketSmith.Proofs.IdealSolver
import PacketSmith.Proofs.Turns.Solutions

/-!
# All lengths of a path

Between two solutions of a path the lengths of the last one are ruled out: all of them together, or each of them.
What is left to be found gets less with every solution (`Round`), so the solutions of a path come to an end, and if
only the lengths together are ruled out, nothing is left then (`solutions_vary_lengths`).
-/

namespace PacketSmith

open List SolutionStream PathSolver Assignment Term

namespace PathSolver

variable {s r : PathSolver} {mode : String} {before : List Assignment}

/-- Lengths that may come after others: not all of them are as before, or none of them. -/
def Differ (mode : String) (v a : List Nat) : Prop := if mode = "and" then v ≠ a else ¬ Meets v a

/-- Rules out the lengths under an assignment. -/
def blocks (s : PathSolver) (mode : String) (ρ : Assignment) : Formula :=
  .not (if mode = "and" then all (s.sameLengths ρ) else any (s.sameLengths ρ))

/-- The lengths that are left after those under some assignments. -/
def left (s : PathSolver) (mode : String) (before : List Assignment) : Set (List Nat) :=
  { v ∈ s.reachable | ∀ ρ ∈ before, Differ mode v (s.lengthsAt ρ) }

theorem eval_blocks (s : PathSolver) (mode : String) (ρ ρ' : Assignment) :
    (s.blocks mode ρ).eval ρ' = true ↔ Differ mode (s.lengthsAt ρ') (s.lengthsAt ρ) := by
  rw [blocks, Differ, eval, Bool.not_eq_true', ← Bool.not_eq_true]
  split
  · rw [eval_allSame]
  · rw [eval_anySame]

theorem not_differ (mode : String) (hv : v ≠ []) : ¬ Differ mode v v := by
  rw [Differ]
  split
  · simp
  · obtain ⟨n, v, rfl⟩ := exists_cons_of_ne_nil hv
    simp [Meets]

theorem satisfies_blocks : ρ.Satisfies (s.formulas ++ before.map (s.blocks mode)) ↔
    ρ.Satisfies s.formulas ∧ ∀ ρ' ∈ before, Differ mode (s.lengthsAt ρ) (s.lengthsAt ρ') := by
  rw [satisfies_append]
  refine and_congr_right fun _ => ?_
  rw [Assignment.Satisfies, forall_mem_map]
  exact forall₂_congr fun ρ' _ => eval_blocks s mode ρ' ρ

theorem finite_lengths (bs : List Bits) : { v | ∃ ρ : Assignment, bs.map (Bits.evalNat ρ) = v }.Finite := by
  induction bs with
  | nil => exact (Set.finite_singleton []).subset fun v ⟨_, hv⟩ => hv.symm
  | cons b bs ih =>
    refine ((Set.finite_lt_nat (2 ^ b.width)).image2 List.cons ih).subset ?_
    rintro _ ⟨ρ, rfl⟩
    exact ⟨_, Bits.evalNat_lt ρ b, _, ⟨ρ, rfl⟩, rfl⟩

theorem left_finite (s : PathSolver) (mode : String) (before : List Assignment) : (s.left mode before).Finite :=
  (finite_lengths s.lengthTerms).subset fun _ ⟨⟨ρ, _, hv⟩, _⟩ => ⟨ρ, hv⟩

theorem left_concat_lt (hterms : s.lengthTerms ≠ []) (h : ρ.Satisfies (s.formulas ++ before.map (s.blocks mode))) :
    (s.left mode (before ++ [ρ])).ncard < (s.left mode before).ncard := by
  obtain ⟨hformulas, hdiffer⟩ := satisfies_blocks.mp h
  refine Set.ncard_lt_ncard ⟨fun v hv => ⟨hv.1, fun ρ' hρ' => hv.2 ρ' (mem_append_left _ hρ')⟩, fun hall => ?_⟩
    (s.left_finite mode before)
  have hnew := (hall ⟨⟨ρ, hformulas, rfl⟩, hdiffer⟩).2 ρ (by simp)
  exact not_differ mode (by simpa [lengthTerms] using hterms) hnew

theorem varyLengths_eq (hterms : r.lengthTerms ≠ []) (hmode : mode = "and" ∨ mode = "or")
    (hanswer : r.answer = some (.sat ρ)) : r.varyLengths (some mode) = .ok (true, r.assert [r.blocks mode ρ]) := by
  have hsome : r.tally.lengths.entries.isEmpty = false := by
    simpa [lengthTerms, Dict.values] using hterms
  simp only [varyLengths, hanswer, hsome, model?]
  rcases hmode with rfl | rfl <;> rfl

/-- The path solver of a path between two solutions. -/
structure Round (s : PathSolver) (mode : String) (before : List Assignment) (r : PathSolver) : Prop where
  standing : r.standing = s.standing
  formulas : r.formulas = s.formulas ++ before.map (s.blocks mode)

end PathSolver

namespace Explore

variable {engine : Engine} {m : PathModel} {s r : PathSolver} {mode : String} {before : List Assignment}
  {x : Exploration}

/-- The draws for a solution of a path do not get in the way: constraints are kept or there are no draws, and fixing
them leaves something to be found. -/
structure Fixable (engine : Engine) (mode : String) (s : PathSolver) : Prop where
  keeps : engine.options.incremental = true ∨ s.packet.displacements ++ s.context.displacements = []
  fixes : ∀ (before : List Assignment) (draw : Nat → Nat), Satisfiable (s.formulas ++ before.map (s.blocks mode)) →
    Satisfiable (s.formulas ++ before.map (s.blocks mode) ++ s.randomConstraints draw)

theorem randomConstraints_of_standing (h : r.standing = s.standing) (draw : Nat → Nat) :
    r.randomConstraints draw = s.randomConstraints draw := by
  rw [randomConstraints, randomConstraints, ← standing_context,
    ← standing_context, h, show r.packet = s.packet from congrArg Standing.packet h]

theorem solution_of_fixed (hfix : (fixDraws engine m).exec x p = .ok ((fs, y), q)) (hmodel : y.solver.model? = some ρ) :
    ∃ sol, (solution engine m).exec x p = .ok ((sol, y), q) ∧ sol.model = ρ := by
  refine ⟨⟨m.path, m.outcome, y.solver.constraints ++ [fs], y.solver.context, y.solver.packet, ρ⟩, ?_, rfl⟩
  refine exec_bind_ok.2 ⟨fs, y, q, hfix, ?_⟩
  rw [exec_get_bind]
  dsimp only
  rw [hmodel]
  rfl

theorem solution_exec (hsolver : engine.solver.Decides) (hfix : m.path.complete = true → Fixable engine mode s)
    (hround : Round s mode before x.solver) (hsat : Satisfiable x.solver.formulas)
    (hanswer : x.solver.answer = some (engine.solver x.solver.formulas)) (p : Progress) :
    ∃ sol t p', (solution engine m).exec x p = .ok ((sol, { x with solver := t }), p') ∧
      Round s mode before (released engine m t) ∧ (released engine m t).answer = some (.sat sol.model) ∧
      sol.model.Satisfies x.solver.formulas := by
  obtain ⟨ρ, hρ, hholds⟩ := hsolver.exists_sat hsat
  rw [hρ] at hanswer
  cases hcomplete : m.path.complete with
  | false =>
    have hfixed : (fixDraws engine m).exec x p = .ok (([], x), p) := by
      rw [fixDraws, hcomplete]
      rfl
    obtain ⟨sol, hexec, rfl⟩ := solution_of_fixed hfixed (ρ := ρ) (by rw [model?, hanswer]; rfl)
    exact ⟨sol, x.solver, p, hexec, by simpa [released, hcomplete] using hround,
      by simpa [released, hcomplete] using hanswer, hholds⟩
  | true =>
    have hfix := hfix hcomplete
    let draw := fun i => engine.draw (p.drawn + i)
    let u := x.solver.push.assert (x.solver.push.randomConstraints draw)
    have hformulas : u.formulas = x.solver.formulas ++ s.randomConstraints draw := by
      rw [formulas_assert, formulas_push]
      exact congrArg _ (randomConstraints_of_standing (r := x.solver) hround.standing draw)
    obtain ⟨ρ', hρ', hholds'⟩ := hsolver.exists_sat (hfix.fixes before draw (hround.formulas ▸ hsat))
    rw [← hround.formulas] at hρ' hholds'
    have hsolved : (u.solve engine.solver).2.answer = some (.sat ρ') := by
      rw [answer_solve, hformulas, hρ']
    have habove : PathSolver.Above x.solver (u.solve engine.solver).2 := above_fixed _ _ _
    have hfixed : ∃ q, (fixDraws engine m).exec x p =
        .ok ((x.solver.push.randomConstraints draw, { x with solver := (u.solve engine.solver).2 }), q) := by
      have hbefore : x.solver.push.isSat = true := by
        change (x.solver.answer.map _).getD false = true
        rw [hanswer]
        rfl
      have hafter : (u.solve engine.solver).2.isSat = true := by
        rw [isSat, hsolved]
        rfl
      rw [fixDraws, if_pos hcomplete, exec_fixRandom]
      rw [if_pos hbefore, if_pos hafter]
      exact ⟨_, rfl⟩
    obtain ⟨q, hfixed⟩ := hfixed
    obtain ⟨sol, hexec, rfl⟩ := solution_of_fixed hfixed (ρ := ρ') (by rw [model?, hsolved]; rfl)
    refine ⟨sol, _, _, hexec, ⟨?_, ?_⟩, ?_, (satisfies_append.mp hholds').1⟩
    · rw [released, if_pos hcomplete, standing_pop, habove.standing, hround.standing]
    · rw [released, if_pos hcomplete, ← hround.formulas, formulas, pop]
      split
      · rw [habove.frames, formulas]
      · next hdrops =>
        -- without draws nothing was asserted that would have to be taken back
        have hnone : s.randomConstraints draw = [] := by
          rw [randomConstraints, hfix.keeps.resolve_left hdrops]
          rfl
        change (u.solve engine.solver).2.formulas = _
        rw [formulas_of_same (same_solve _ _), hformulas, hnone, append_nil]
    · rw [released, if_pos hcomplete]
      exact hsolved

theorem outcome_of_standing (hr : r.isSat = true) (hs : s.isSat = true) (h : r.standing = s.standing) :
    r.outcome = s.outcome := by
  have hcontext : r.context = s.context := by
    rw [← standing_context, h, standing_context]
  rw [outcome, outcome, hr, hs, hcontext]

theorem another_exec (hsolver : engine.solver.Decides) (hfix : m.path.complete = true → Fixable engine mode s)
    (hvariation : engine.options.variation = some mode) (hmode : mode = "and" ∨ mode = "or")
    (hterms : s.lengthTerms ≠ []) (hsat : s.isSat = true) (houtcome : m.outcome = s.outcome)
    (hround : Round s mode before (released engine m x.solver))
    (hanswer : (released engine m x.solver).answer = some (.sat ρ)) (p : Progress) :
    (∃ t p', (another engine m).exec x p = .ok ((none, { x with solver := t }), p') ∧
      ¬ Satisfiable (s.formulas ++ (before ++ [ρ]).map (s.blocks mode))) ∨
    ∃ sol t p', (another engine m).exec x p = .ok ((some sol, { x with solver := t }), p') ∧
      Round s mode (before ++ [ρ]) (released engine m t) ∧ (released engine m t).answer = some (.sat sol.model) ∧
      sol.model.Satisfies (s.formulas ++ (before ++ [ρ]).map (s.blocks mode)) := by
  set r := released engine m x.solver with hr
  have htally : r.tally = s.tally := congrArg Standing.tally hround.standing
  have hblocks : r.blocks mode ρ = s.blocks mode ρ := by
    rw [blocks, blocks, sameLengths, sameLengths, htally]
  have hvary := varyLengths_eq (r := r) (by rwa [lengthTerms, htally]) hmode hanswer
  let v := r.assert [s.blocks mode ρ]
  let u := (v.solve engine.solver).2
  have hsame : PathSolver.Same v u := same_solve engine.solver v
  have hnext : Round s mode (before ++ [ρ]) u := by
    refine ⟨hsame.standing.trans hround.standing, ?_⟩
    rw [formulas_of_same hsame, formulas_assert, hround.formulas, map_append,
      append_assoc]
    rfl
  have hsat_iff : (v.check engine.solver).isSat = true ↔ Satisfiable u.formulas := by
    rw [hsolver.isSat_check, formulas_of_same hsame]
  obtain ⟨q, hexec⟩ : ∃ q, (another engine m).exec x p =
      (if (v.check engine.solver).outcome == .noPacketFound then pure none else do
        require ((v.check engine.solver).outcome == m.outcome)
        return some (← solution engine m) : Explore (Option Solution)).exec { x with solver := u } q := by
    rw [another, exec_release_bind, exec_get_bind, exec_lift_bind, hvariation]
    dsimp only
    rw [← hr, hvary, hblocks]
    exact ⟨_, rfl⟩
  rw [hexec]
  by_cases hleft : Satisfiable u.formulas
  · have hgoes : (v.check engine.solver).outcome = m.outcome := by
      rw [houtcome]
      exact outcome_of_standing (hsat_iff.mpr hleft) hsat hround.standing
    have hfound : (m.outcome == Outcome.noPacketFound) = false := by
      rw [houtcome, outcome, hsat]
      cases s.context.uninitializedReads.isEmpty <;> cases s.context.invalidWrites.isEmpty <;> rfl
    obtain ⟨sol, t, p', hsolution, hround', hanswer', hholds⟩ := solution_exec (m := m) (x := { x with solver := u })
      hsolver hfix hnext hleft (by rw [answer_solve, formulas_of_same hsame]) q
    refine .inr ⟨sol, t, p', ?_, hround', hanswer', hnext.formulas ▸ hholds⟩
    rw [hgoes, hfound, beq_self_eq_true]
    exact exec_bind_ok.2 ⟨(), _, _, rfl, exec_bind_ok.2 ⟨sol, _, _, hsolution, rfl⟩⟩
  · refine .inl ⟨u, q, ?_, hnext.formulas ▸ hleft⟩
    have hlost : (v.check engine.solver).outcome = .noPacketFound := by
      rw [outcome, Bool.eq_false_of_not_eq_true (hsat_iff.not.mpr hleft)]
      rfl
    rw [hlost]
    rfl

end Explore

/-! ## One after the other -/

open Explore

variable {engine : Engine} {m : PathModel} {w : Walk Label ControlStep} {s : PathSolver} {mode : String}

/-- The further solutions of a path after so many of them, until the stream leaves the path. -/
inductive Yields (engine : Engine) (w : Walk Label ControlStep) (m : PathModel) :
    Exploration → Progress → Nat → List Solution → Prop where
  | leaves (step : (step engine (.yielded w m n)).exec x p = .ok (((none, .walking w), x'), p')) :
    Yields engine w m x p n []
  | solves (step : (step engine (.yielded w m n)).exec x p =
      .ok (((some sol, .yielded w m (n + 1)), x'), p')) (rest : Yields engine w m x' p' (n + 1) sols) :
    Yields engine w m x p n (sol :: sols)

section

variable (hsolver : engine.solver.Decides) (hmode : mode = "and" ∨ mode = "or")
  (hvariation : engine.options.variation = some mode) (hterms : s.lengthTerms ≠ [])
  (hsat : s.isSat = true) (houtcome : m.outcome = s.outcome) (hfix : m.path.complete = true → Fixable engine mode s)
include hsolver hmode hvariation hterms hsat houtcome hfix

theorem yields_left {before : List Assignment} {first : Solution} {x : Exploration}
    (hround : Round s mode before (released engine m x.solver))
    (hanswer : (released engine m x.solver).answer = some (.sat first.model))
    (hfirst : first.model.Satisfies (s.formulas ++ before.map (s.blocks mode))) (p : Progress) (n : Nat) :
    ∃ rest, Yields engine w m x p (n + 1) rest ∧
      (∀ sol ∈ first :: rest, sol.model.Satisfies (s.formulas ++ before.map (s.blocks mode))) ∧
      (first :: rest).Pairwise (fun a b => Differ mode (s.lengthsAt b.model) (s.lengthsAt a.model)) ∧
      ((∀ k, engine.options.maxTestCasesPerPath = some k → k = 0) → mode = "and" →
        ∀ v ∈ s.left mode before, ∃ sol ∈ first :: rest, s.lengthsAt sol.model = v) := by
  induction hn : (s.left mode before).ncard using Nat.strong_induction_on generalizing before first x p n with
  | _ N ih =>
    by_cases hlimit : engine.options.maxTestCasesPerPath = some (n + 1)
    · have hleaves : (step engine (.yielded w m (n + 1))).exec x p =
          .ok (((none, .walking w), { x with solver := released engine m x.solver }), p) := by
        rw [step, if_pos hlimit, exec_release_bind]
        rfl
      exact ⟨[], .leaves hleaves, by simpa using hfirst, pairwise_singleton ..,
        fun hk => absurd (hk _ hlimit) (by omega)⟩
    have hstep {found : Option Solution} {y : Exploration} {q : Progress}
        (h : (another engine m).exec x p = .ok ((found, y), q)) :
        (step engine (.yielded w m (n + 1))).exec x p =
          .ok (((found, if found.isSome then .yielded w m (n + 1 + 1) else .walking w), y), q) := by
      rw [step, if_neg hlimit]
      refine exec_bind_ok.2 ⟨_, _, _, h, ?_⟩
      cases found <;> rfl
    have hother : mode = "and" → ∀ v ∈ s.left mode before, s.lengthsAt first.model ≠ v →
        v ∈ s.left mode (before ++ [first.model]) := by
      rintro rfl v ⟨hv, hdiffer⟩ hne
      refine ⟨hv, forall_mem_append.mpr ⟨hdiffer, forall_mem_singleton.mpr ?_⟩⟩
      rw [Differ, if_pos rfl]
      exact hne.symm
    rcases another_exec hsolver hfix hvariation hmode hterms hsat houtcome hround hanswer p with
      ⟨t, p', hanother, hnone⟩ | ⟨sol, t, p', hanother, hround', hanswer', hholds⟩
    · refine ⟨[], .leaves (hstep hanother), by simpa using hfirst,
        pairwise_singleton .., fun _ hand v hv => ⟨first, mem_cons_self, ?_⟩⟩
      by_contra hne
      obtain ⟨⟨ρ, hρ, rfl⟩, hdiffer⟩ := hother hand v hv hne
      exact hnone ⟨ρ, satisfies_blocks.mpr ⟨hρ, hdiffer⟩⟩
    · obtain ⟨rest, hyields, hrest, hpairs, hall⟩ := ih _ (hn ▸ left_concat_lt hterms hfirst)
        (x := { x with solver := t }) hround' hanswer' hholds p'
        (n + 1) rfl
      have hlater (sol' : Solution) (hsol' : sol' ∈ sol :: rest) := satisfies_blocks.mp (hrest sol' hsol')
      refine ⟨sol :: rest, .solves (hstep hanother) hyields, ?_, ?_, ?_⟩
      · refine forall_mem_cons.mpr ⟨hfirst, fun sol' hsol' => satisfies_blocks.mpr ⟨(hlater sol' hsol').1, ?_⟩⟩
        exact fun ρ hρ => (hlater sol' hsol').2 ρ (mem_append_left _ hρ)
      · exact pairwise_cons.mpr ⟨fun sol' hsol' => (hlater sol' hsol').2 first.model (by simp), hpairs⟩
      · intro hk hand v hv
        by_cases hsame : s.lengthsAt first.model = v
        · exact ⟨first, mem_cons_self, hsame⟩
        · obtain ⟨sol', hsol', hlengths⟩ := hall hk hand v (hother hand v hv hsame)
          exact ⟨sol', mem_cons_of_mem _ hsol', hlengths⟩

end

/-- With lengths that vary, a path that can be taken has finitely many solutions. They satisfy its constraints, and no
two of them agree in all lengths or, in the other mode, in any length. If there is no limit and only all lengths
together are ruled out, every choice of lengths comes up. -/
theorem solutions_vary_lengths {x : Exploration} (hsolver : engine.solver.Decides) (hmode : mode = "and" ∨ mode = "or")
    (hvariation : engine.options.variation = some mode) (hterms : x.solver.lengthTerms ≠ [])
    (hanswer : x.solver.answer = some (engine.solver x.solver.formulas)) (hsat : x.solver.isSat = true)
    (houtcome : m.outcome = x.solver.outcome) (hfix : m.path.complete = true → Fixable engine mode x.solver)
    (p : Progress) (w : Walk Label ControlStep) :
    ∃ first x' p' rest, (solution engine m).exec x p = .ok ((first, x'), p') ∧ Yields engine w m x' p' 1 rest ∧
      (∀ sol ∈ first :: rest, sol.model.Satisfies x.solver.formulas) ∧
      (first :: rest).Pairwise (fun a b => Differ mode (x.solver.lengthsAt b.model) (x.solver.lengthsAt a.model)) ∧
      ((∀ k, engine.options.maxTestCasesPerPath = some k → k = 0) → mode = "and" →
        ∀ v ∈ x.solver.reachable, ∃ sol ∈ first :: rest, x.solver.lengthsAt sol.model = v) := by
  have hsatisfiable : Satisfiable x.solver.formulas := by
    rwa [PathSolver.isSat, hanswer, Option.map_some, Option.getD_some, hsolver.isSat_iff] at hsat
  have hstart : Round x.solver mode [] x.solver := ⟨rfl, (append_nil _).symm⟩
  obtain ⟨first, t, p', hfirst, hround, hmodel, hholds⟩ := solution_exec hsolver hfix hstart hsatisfiable hanswer p
  obtain ⟨rest, hyields, hrest, hpairs, hall⟩ := yields_left (w := w) (x := { x with solver := t }) hsolver hmode hvariation
    hterms hsat houtcome hfix hround hmodel (by simpa using hholds) p' 0
  exact ⟨first, _, p', rest, hfirst, hyields, by simpa using hrest, hpairs,
    fun hk hand v hv => hall hk hand v ⟨hv, by simp⟩⟩

namespace Varying

/-- An extraction with two bits of length. -/
def path (shifts : List (Variable × Nat)) : Exploration where
  solver := {
    tally.lengths := .ofList [((.text "h", .text "f"), ⟨2, .var "n" 2⟩)]
    base.context.displacements := shifts
    answer := some (.sat fun _ _ => 0) }
  parserPath := []

noncomputable def run (keep : Bool) : Engine :=
  { Small.engine ⟨{ incremental := keep, extractVlVariation := some "and", maxTestCasesPerPath := some 0 },
      Small.program [] [], Small.pipeline [] [], {}⟩ "" [] with
    solver := .ideal [fun _ _ => 0, fun x _ => if x = "n" then 1 else 0]
    draw := id }

def model : PathModel := ⟨⟨1, [], [], true⟩, .success⟩

def drawn (b : BitVec 1) : Formula := .rel .eq (.var "s" 1) (.const b)

theorem variation (keep : Bool) : (run keep).options.variation = some "and" := by
  cases keep <;> decide +kernel

end Varying

open Varying

theorem solutions_vary_lengths_all : ∃ first x p rest,
    (solution (run true) model).exec (path []) {} = .ok ((first, x), p) ∧ Yields (run true) default model x p 1 rest ∧
      ∀ n < 4, ∃ sol ∈ first :: rest, (path []).solver.lengthsAt sol.model = [n] := by
  have hfix : Fixable (run true) "and" (path []).solver :=
    ⟨.inl rfl, fun before draw h => (append_nil (_ ++ _)).symm ▸ h⟩
  obtain ⟨first, x, p, rest, hfirst, hrest, -, -, hall⟩ := solutions_vary_lengths (x := path []) (m := model)
    (Solver.ideal_decides _) (.inl rfl) (variation true) (by decide) rfl rfl rfl (fun _ => hfix) {} default
  refine ⟨first, x, p, rest, hfirst, hrest, fun n hn => hall (by rintro _ ⟨⟩; rfl) rfl [n] ⟨fun _ _ => n, ?_, ?_⟩⟩
  · simp [Assignment.Satisfies, PathSolver.formulas, path]
  · have hvalue : (⟨2, .var "n" 2⟩ : Bits).evalNat (fun _ _ => n) = n := by
      simp [Bits.evalNat, Term.eval, hn]
    exact congrArg (fun n => [n]) hvalue

theorem Explore.solution_refused {x : Exploration} (hsolver : engine.solver.Decides) (hcomplete : m.path.complete = true)
    (hsat : x.solver.isSat = true)
    (h : ¬ Satisfiable (x.solver.formulas ++ x.solver.randomConstraints fun i => engine.draw (p.drawn + i))) :
    (solution engine m).exec x p = .error .violated := by
  rw [solution, exec_bind, fixDraws, if_pos hcomplete, exec_fixRandom]
  rw [if_pos (show x.solver.push.isSat = true from hsat), if_neg]
  · rfl
  · rw [isSat, answer_solve, formulas_assert, formulas_push]
    exact (hsolver.isSat_iff _).not.mpr h

/-- Without keeping constraints the draws for the first solution stay asserted, and others cannot be fixed. -/
theorem second_draw_refused : ∃ first x p,
    (solution (run false) model).exec (path [("s", 1)]) {} = .ok ((first, x), p) ∧
      (another (run false) model).exec x p = .error .violated := by
  have hunsat (g : Formula) : ¬ Satisfiable [drawn 0, g, drawn 1] := by
    rintro ⟨ρ, hρ⟩
    have h₀ : ρ "s" 1 = 0 := beq_iff_eq.mp (hρ (drawn 0) (by simp))
    have h₁ : ρ "s" 1 = 1 := beq_iff_eq.mp (hρ (drawn 1) (by simp))
    exact absurd (h₀.symm.trans h₁) (by decide)
  refine ⟨_, _, _, rfl, ?_⟩
  rw [another, exec_release_bind, exec_get_bind, exec_lift_bind, variation]
  change (solution (run false) model >>= fun s => pure (some s)).exec _ _ = _
  rw [exec_bind, solution_refused (Solver.ideal_decides _) rfl rfl]
  · rfl
  · exact hunsat _

end PacketSmith
