import PacketSmith.Proofs.Levels

/-!
# Paths that a packet takes

A path is `Feasible` if a new path solver can follow it, its constraints can be
satisfied, and nothing on it is read that was not set or written that is not valid.

This is said without a solver. `PathSolver.Solid.solve_success` says that a solver which
decides satisfiability finds it out, whatever paths the path solver has followed before.
-/

namespace PacketSmith

open List Standing Symbolic
open Numbered (renum)

structure Standing.Passable (s : Standing) : Prop where
  satisfiable : Satisfiable s.constraints.flatten
  reads : s.context.uninitializedReads = []
  writes : s.context.invalidWrites = []

/-- A packet takes a path. -/
def Feasible (env : Setting) (parser : ParserPath) (path : ControlPath) : Prop :=
  ∃ r, PathSolver.replay env parser path = .ok r ∧ r.standing.Passable

theorem Standing.passable_renum (σ : ℕ ↪o ℕ) (s : Standing) : (renum σ s).Passable ↔ s.Passable := by
  have hsat : Satisfiable (renum σ s).constraints.flatten ↔ Satisfiable s.constraints.flatten := by
    rw [constraints_renum, flatten_renum]
    exact satisfiable_renumber σ _
  constructor
  · rintro ⟨h, hreads, hwrites⟩
    rw [context_renum] at hreads hwrites
    exact ⟨hsat.mp h, hreads, hwrites⟩
  · rintro ⟨h, hreads, hwrites⟩
    refine ⟨hsat.mpr h, ?_, ?_⟩
    · rwa [context_renum]
    · rwa [context_renum]

section Trails

variable {env : Setting} {parser : ParserPath} {path : ControlPath} {n : Nat} {s : Standing}

theorem Trail.passable_pop (h : Trail env parser path s n) (hs : s.Passable) : s.shortened.Passable := by
  cases h with
  | start => exact hs
  | @edge path s c _ e added t before run bound =>
    have hgrows := ((PathSolver.lastConstraints_regular (c := false) env.uniformAt_refl (path ++ [e])).does
      (s.state c)).grows
    rw [run] at hgrows
    obtain ⟨hsat, hreads, hwrites⟩ := hs
    rw [constraints_extended, flatten_append] at hsat
    refine ⟨hsat.mono (subset_append_left _ _), ?_, ?_⟩
    · exact prefix_nil.mp (hreads ▸ hgrows.reads)
    · exact prefix_nil.mp (hwrites ▸ hgrows.writes)

open PathSolver in
theorem PathSolver.trail_of_replay {r : PathSolver} (h : replay env parser path = .ok r) :
    Trail env parser path r.standing r.fresh := by
  induction path using List.reverseRecOn generalizing r with
  | nil =>
    rw [replay] at h
    cases hstart : ({} : PathSolver).start env parser with
    | error f =>
      rw [hstart] at h
      cases h
    | ok started =>
      obtain ⟨possible, s⟩ := started
      rw [hstart] at h
      obtain rfl : s = r := Except.ok.inj (require_bind_ok h)
      cases possible with
      | false => cases h
      | true => exact ((idle_new env.options).start hstart).trail
  | append_singleton path e ih =>
    rw [replay_concat] at h
    cases hreplay : replay env parser path with
    | error f =>
      rw [hreplay] at h
      cases h
    | ok r' =>
      rw [hreplay] at h
      have htrail := ih hreplay
      have hlength : r'.levels.length = path.length := by
        simpa [standing] using htrail.length_levels
      have hextend := extend_push env (path ++ [e]) r' ([] :: r'.frames) fun _ => by simp [hlength]
      replace h := hextend.symm.trans h
      rcases hrun : (lastConstraints env (path ++ [e])).result (r'.standing.state r'.fresh)
        with ⟨f | added, t⟩
      · rw [hrun] at h
        cases h
      · rw [hrun] at h
        cases h
        exact .edge htrail hrun le_rfl

theorem Trail.feasible_iff (henv : env.Uniform) (h : Trail env parser path s n) :
    Feasible env parser path ↔ s.Passable := by
  obtain ⟨r, σ, hreplay, hreplayed⟩ := h.replay henv
  have himage : s = renum σ r.standing := hreplayed.reflects.image σ fun _ _ => rfl
  rw [himage, passable_renum]
  constructor
  · rintro ⟨r', hr', hpassable⟩
    obtain rfl := Except.ok.inj (hreplay.symm.trans hr')
    exact hpassable
  · exact fun hpassable => ⟨r, hreplay, hpassable⟩

theorem Feasible.dropLast (henv : env.Uniform) (h : Feasible env parser path) : Feasible env parser path.dropLast := by
  obtain ⟨r, hreplay, hpassable⟩ := h
  have htrail := PathSolver.trail_of_replay hreplay
  exact ((htrail.pop).feasible_iff henv).mpr (htrail.passable_pop hpassable)

theorem Feasible.of_append (henv : env.Uniform)
    (h : Feasible env parser (path ++ rest)) : Feasible env parser path := by
  induction rest using List.reverseRecOn with
  | nil => rwa [append_nil] at h
  | append_singleton rest e ih =>
    have hdrop := h.dropLast henv
    rw [← append_assoc, dropLast_concat] at hdrop
    exact ih hdrop

open PathSolver in
theorem Trail.not_impossible {st : Standing} {n : Nat} (h : Trail env parser path st n)
    {s s' : PathSolver} : s.start env parser ≠ .ok (false, s') := by
  induction h with
  | @start c _ ctx fs t context run bound =>
    intro hstart
    obtain ⟨-, ctx', t', hctx', ⟨-, -, hnone⟩ | ⟨fs, htrue, -⟩⟩ := start_ok hstart
    · obtain rfl := Except.ok.inj (context.symm.trans hctx')
      -- both runs are the one that counts from zero, under other numbers
      obtain ⟨τ, -, hsome⟩ := parserPath_mirrors parser context c
      obtain ⟨τ', -, hresult⟩ := parserPath_mirrors parser context s.fresh
      have hsome := hsome τ fun _ _ => rfl
      have hresult := hresult τ' fun _ _ => rfl
      rw [run] at hsome
      rw [hnone] at hresult
      cases hzero : ((parserPath env parser).result { context := ctx }).1 with
      | error f =>
        rw [hzero] at hsome
        cases hsome
      | ok found =>
        rw [hzero] at hsome hresult
        cases found with
        | none => cases hsome
        | some fs => cases hresult
    · cases htrue
  | edge before run bound ih => exact ih

theorem Feasible.not_impossible (h : Feasible env parser path) {s s' : PathSolver} :
    s.start env parser ≠ .ok (false, s') := by
  obtain ⟨r, hreplay, -⟩ := h
  exact (PathSolver.trail_of_replay hreplay).not_impossible

end Trails

variable {engine : Engine} {solver : Solver} {parser : ParserPath}
  {complete : Bool} {outcome : Outcome} {x x' : Exploration}

/-- Nothing is left asserted when a parser path is started, if constraints are kept or the path solver
is new. -/
theorem HandedOn.formulas_renew (h : HandedOn engine s)
    (hs : engine.options.incremental = true ∨ s = {}) : (s.renew engine.options).formulas = [] := by
  rcases hs with hinc | rfl
  · have hbelow := (h.idle).below hinc
    rw [flatten_eq_nil_iff] at hbelow
    simp only [PathSolver.renew, if_pos hinc, PathSolver.formulas, reverse_cons,
      flatten_append, flatten_eq_nil_iff, append_eq_nil_iff]
    exact ⟨fun l hl => hbelow l (mem_reverse.mp hl), by simp⟩
  · cases hinc : engine.options.incremental <;> simp [PathSolver.renew, hinc, PathSolver.formulas]

/-! ## Solvers that decide -/

theorem Solver.Decides.isSat_iff (h : solver.Decides) (fs : List Formula) :
    (solver fs).isSat = true ↔ Satisfiable fs := by
  obtain ⟨hsound, hanswers⟩ := h
  cases hanswer : solver fs with
  | sat ρ => exact iff_of_true rfl ⟨ρ, (hsound _).1 ρ hanswer⟩
  | unsat => exact iff_of_false (by simp [Answer.isSat]) fun ⟨ρ, hρ⟩ => (hsound _).2 hanswer ρ hρ
  | unknown => exact absurd hanswer (hanswers _)

theorem Solver.Decides.exists_sat (h : solver.Decides) (hfs : Satisfiable fs) :
    ∃ ρ, solver fs = .sat ρ ∧ ρ.Satisfies fs := by
  have hsat := (h.isSat_iff fs).mpr hfs
  cases hanswer : solver fs with
  | sat ρ => exact ⟨ρ, rfl, (h.1 fs).1 ρ hanswer⟩
  | _ => simp [hanswer, Answer.isSat] at hsat

theorem Solver.Decides.isSat_check (h : solver.Decides) (s : PathSolver) :
    (s.check solver).isSat = true ↔ Satisfiable s.formulas :=
  h.isSat_iff s.formulas

theorem PathSolver.Solid.solve_success (henv : env.Uniform) (h : Solid env parser path s)
    (hformulas : s.formulas = s.constraints.flatten) (hsolver : solver.Decides) (hpath : Feasible env parser path) :
    (s.solve solver).1 = .success := by
  obtain ⟨hsat, hreads, hwrites⟩ := (h.trail.feasible_iff henv).mp hpath
  rw [standing_constraints, ← hformulas, ← hsolver.isSat_check] at hsat
  rw [standing_context] at hreads hwrites
  have hcontext : (s.check solver).context = s.context := rfl
  change (s.check solver).outcome = .success
  rw [outcome, hsat, hcontext, hreads, hwrites]
  rfl

theorem Explore.Judged.success (h : Judged engine parser path complete s outcome model s')
    (hs : (s.solve engine.solver).1 = .success) : outcome = .success := by
  cases h with
  | quick known => exact (PathSolver.quick_ok known).2.1
  | solved => exact hs

variable (henv : engine.setting.Uniform) (hsolver : engine.solver.Decides)

include henv hsolver

theorem Explore.Visited.success
    (h : Visited engine (front ++ [e]) complete { x with solver := s.push } p outcome model x' p')
    (hs : PathSolver.Solid engine.setting x.parserPath front s)
    (hpath : Feasible engine.setting x.parserPath (front ++ [e])) : outcome = .success := by
  obtain ⟨s', hextend, hjudged⟩ := h.judged
  obtain ⟨hsolid, hformulas⟩ := hs.extend hextend
  exact hjudged.success (hsolid.solve_success henv hformulas hsolver hpath)

theorem Begins.started_of_feasible (h : Begins engine x p stage x' p') (hidle : x.solver.Idle engine.options)
    (hclean : (x.solver.renew engine.options).formulas = []) (hpath : Feasible engine.setting x.parserPath path) :
    ∃ s, x' = { x with solver := s } ∧
      stage = .walking { pending := ((Explore.firstEdges engine x).map fun e => [e]).reverse } ∧
      p'.findings = .parser x.parserPath true :: p.findings := by
  cases h with
  | impossible start => exact absurd start hpath.not_impossible
  | started start sat found => exact ⟨_, rfl, rfl, found⟩
  | @refuted s _ start unsat found =>
    have hempty : Feasible engine.setting x.parserPath [] :=
      Feasible.of_append henv (show Feasible _ _ ([] ++ path) from hpath)
    have hsolid := hidle.start start
    obtain ⟨-, ctx, t, hctx, ⟨hfalse, -⟩ | ⟨fs, -, rfl, -⟩⟩ := PathSolver.start_ok start
    · cases hfalse
    · have hformulas : (x.solver.begun engine.options fs t).formulas = fs := by
        change ((x.solver.renew engine.options).assert fs).formulas = fs
        rw [PathSolver.formulas_assert, hclean, nil_append]
      have hsat := ((hsolid.trail.feasible_iff henv).mp hempty).satisfiable
      rw [PathSolver.standing_begun _ _ _ _ hidle.levels] at hsat
      have hsat' : Satisfiable (x.solver.begun engine.options fs t).formulas := by
        simpa [hformulas, constraints] using hsat
      rw [← hsolver.isSat_check, unsat] at hsat'
      cases hsat'

end PacketSmith
