import PacketSmith.Proofs.Turns.Lengths

/-!
# Two path solvers on one path

Two path solvers that have followed one path differ by the numbers of variables (`Trail.images`). Under the
same outcomes of earlier edges they come to the same outcome at the next edge, with or without the solver,
whatever they have done before (`Visits.unison`).
-/

namespace PacketSmith

open List PathSolver Level Standing
open Numbered (renum)

namespace PathSolver

/-- The edges that leave the levels had the same outcomes. -/
structure SameOutcomes (s s' : PathSolver) : Prop where
  levels : s'.levels.map outcomes = s.levels.map outcomes
  base : s'.base.outcomes = s.base.outcomes

variable {s s' : PathSolver} {env : Setting} {parser : ParserPath} {path : ControlPath}

namespace SameOutcomes

variable (h : SameOutcomes s s')

include h

theorem pop (o : Options) : SameOutcomes (s.pop o) (s'.pop o) := by
  refine ⟨?_, h.base⟩
  rw [PathSolver.pop, PathSolver.pop, map_tail, map_tail, h.levels]

theorem pops (o : Options) (n : Nat) : SameOutcomes ((PathSolver.pop o)^[n] s) ((PathSolver.pop o)^[n] s') := by
  induction n generalizing s s' with
  | zero => exact h
  | succ n ih => exact ih (h.pop o)

theorem push : SameOutcomes s.push s'.push :=
  ⟨congrArg ([] :: ·) h.levels, h.base⟩

theorem record (outcome : Outcome) : SameOutcomes (s.record outcome) (s'.record outcome) := by
  obtain ⟨frames, answer, base, levels, pathId, tally, fresh, packet⟩ := s
  obtain ⟨frames', answer', base', levels', pathId', tally', fresh', packet'⟩ := s'
  obtain ⟨hlevels, hbase⟩ := h
  cases levels with
  | nil =>
    obtain rfl : levels' = [] := map_eq_nil_iff.mp hlevels
    exact ⟨rfl, congrArg (· ++ [outcome]) hbase⟩
  | cons l rest =>
    obtain ⟨l', rest', rfl, hl, hrest⟩ := map_eq_cons_iff.mp hlevels
    cases rest with
    | nil =>
      obtain rfl : rest' = [] := map_eq_nil_iff.mp hrest
      exact ⟨congrArg (· :: []) hl, congrArg (· ++ [outcome]) hbase⟩
    | cons k rest =>
      obtain ⟨k', rest', rfl, hk, hrest⟩ := map_eq_cons_iff.mp hrest
      refine ⟨?_, hbase⟩
      change l'.outcomes :: (k'.outcomes ++ [outcome]) :: rest'.map outcomes =
        l.outcomes :: (k.outcomes ++ [outcome]) :: rest.map outcomes
      rw [hl, hk, hrest]

theorem solve {solver : Solver} (hsame : (s'.solve solver).1 = (s.solve solver).1) :
    SameOutcomes (s.solve solver).2 (s'.solve solver).2 := by
  have hcheck : SameOutcomes (s.check solver) (s'.check solver) := ⟨h.levels, h.base⟩
  change SameOutcomes ((s.check solver).record (s.check solver).outcome)
    ((s'.check solver).record (s'.check solver).outcome)
  rw [show (s'.check solver).outcome = (s.check solver).outcome from hsame]
  exact hcheck.record _

theorem parent : s'.parent.outcomes = s.parent.outcomes := by
  have hparent (s : PathSolver) : s.parent.outcomes = (s.levels.map outcomes).tail.headD s.base.outcomes := by
    rw [PathSolver.parent, ← map_tail]
    cases s.levels.tail <;> rfl
  rw [hparent, hparent, h.levels, h.base]

end SameOutcomes

structure Peers (env : Setting) (parser : ParserPath) (path : ControlPath) (s s' : PathSolver) : Prop where
  trail : Trail env parser path s.standing s.fresh
  trail' : Trail env parser path s'.standing s'.fresh
  outcomes : SameOutcomes s s'

namespace Peers

theorem depth (h : Peers env parser path s s') : s.levels.length = path.length := by
  simpa [standing] using h.trail.length_levels

theorem accesses (henv : env.Uniform) (h : Peers env parser path s s') :
    s'.context.uninitializedReads = s.context.uninitializedReads ∧
      s'.context.invalidWrites = s.context.invalidWrites := by
  obtain ⟨r, σ, σ', hs, hs'⟩ := h.trail.images henv h.trail'
  rw [← standing_context, ← standing_context, hs, hs', context_renum, context_renum]
  exact ⟨rfl, rfl⟩

theorem lengthTerms_of_standing (h : s.standing = renum σ r) : s.lengthTerms = renum σ r.tally.lengths.values := by
  have htally : s.tally = renum σ r.tally := congrArg Standing.tally h
  rw [lengthTerms, htally]
  exact Dict.values_renum σ r.tally.lengths

section

variable (henv : env.Uniform) (h : Peers env parser path s s')

include henv h

theorem lengths_length : s'.lengthTerms.length = s.lengthTerms.length := by
  obtain ⟨r, σ, σ', hs, hs'⟩ := h.trail.images henv h.trail'
  rw [lengthTerms_of_standing hs, lengthTerms_of_standing hs']
  exact (length_map ..).trans (length_map ..).symm

theorem lengths :
    valuesUnder s'.constraints.flatten s'.lengthTerms = valuesUnder s.constraints.flatten s.lengthTerms := by
  obtain ⟨r, σ, σ', hs, hs'⟩ := h.trail.images henv h.trail'
  have himage {s : PathSolver} {σ : ℕ ↪o ℕ} (hs : s.standing = renum σ r) :
      valuesUnder s.constraints.flatten s.lengthTerms =
        valuesUnder r.constraints.flatten r.tally.lengths.values := by
    rw [lengthTerms_of_standing hs, ← standing_constraints, hs, constraints_renum, flatten_renum]
    exact valuesUnder_renum σ _ _
  rw [himage hs, himage hs']

theorem quick {control : ControlPath} {complete : Bool} (hs : s.quick env control complete = .ok r)
    (hs' : s'.quick env control complete = .ok r') : r'.isSome = r.isSome := by
  have hsame : s'.infers env control complete = s.infers env control complete := by
    rw [infers, infers, (h.accesses henv).1, (h.accesses henv).2, h.outcomes.parent]
  rw [PathSolver.quick, hsame] at hs'
  obtain ⟨known, hknown, hs⟩ := bind_eq_ok.mp hs
  rw [hknown] at hs'
  cases known <;> cases hs <;> cases hs' <;> rfl

theorem outcome (hsat : s'.isSat = s.isSat) : s'.outcome = s.outcome := by
  rw [PathSolver.outcome, PathSolver.outcome, hsat, (h.accesses henv).1, (h.accesses henv).2]

end

end Peers

theorem Solid.extend_outcomes (h : Solid env parser front s)
    (hextend : (s.push.refresh env.options).extend env (front ++ [e]) = .ok s') :
    s'.levels.map outcomes = [] :: s.levels.map outcomes ∧ s'.base = s.base := by
  obtain ⟨added, t, -, rfl⟩ := extend_refresh_ok h.length_levels hextend
  exact ⟨rfl, rfl⟩

theorem formulas_of_same (h : Same s s') : s'.formulas = s.formulas := by
  rw [formulas, formulas, h.frames]

theorem constraints_of_same (h : Same s s') : s'.constraints = s.constraints := by
  rw [← standing_constraints, ← standing_constraints, h.standing]

end PathSolver

/-- Two runs found out the same. -/
abbrev Progress.Alike (p q p' q' : Progress) : Prop :=
  ∃ new, p'.findings = new ++ p.findings ∧ q'.findings = new ++ q.findings

/-- Models of one path in two runs. -/
structure PathModel.Like (m m' : PathModel) : Prop where
  parser : m'.path.parser = m.path.parser
  control : m'.path.control = m.path.control
  complete : m'.path.complete = m.path.complete
  outcome : m'.outcome = m.outcome

/-- Two explorations of a parser path that have come equally far. -/
structure Exploration.Level (x y : Exploration) : Prop where
  parser : y.parserPath = x.parserPath
  successes : y.successes = x.successes
  finished : y.finished = x.finished
  visits : y.visits = x.visits

theorem Exploration.Level.with {x y : Exploration} (h : x.Level y) (s s' : PathSolver) :
    Level { x with solver := s } { y with solver := s' } :=
  ⟨h.parser, h.successes, h.finished, h.visits⟩

/-- The path was handed to the solver, and nothing is asserted but its constraints. -/
structure Solved (engine : Engine) (parser : ParserPath) (path : ControlPath) (s : PathSolver) : Prop where
  solid : Solid engine.setting parser path s
  formulas : s.formulas = s.constraints.flatten
  answer : s.answer = some (engine.solver s.formulas)

namespace Explore

variable {engine : Engine} {parser : ParserPath} {path : ControlPath} {complete : Bool}
  {outcome outcome' : Outcome} {model model' : Option PathModel}

theorem Judged.solved_of_some (h : Judged engine parser path complete s outcome (some m) t)
    (hs : Solid engine.setting parser path s) (hformulas : s.formulas = s.constraints.flatten) :
    Solved engine parser path t ∧ m.path.parser = parser ∧ m.path.control = path := by
  have hsame := h.same
  cases h with
  | solved unknown =>
    refine ⟨⟨hs.same hsame, ?_, ?_⟩, rfl, rfl⟩
    · rw [formulas_of_same hsame, constraints_of_same hsame, hformulas]
    · rw [PathSolver.solve, PathSolver.record]
      split <;> rfl

theorem Judged.unison (henv : engine.setting.Uniform) (hsolver : engine.solver.Decides) (hpeers : SameOutcomes s s')
    (hs : Solid engine.setting parser path s) (hs' : Solid engine.setting parser path s')
    (hformulas : s.formulas = s.constraints.flatten) (hformulas' : s'.formulas = s'.constraints.flatten)
    (h : Judged engine parser path complete s outcome model t)
    (h' : Judged engine parser path complete s' outcome' model' t') : outcome' = outcome ∧ SameOutcomes t t' ∧
    (model'.isSome = model.isSome) ∧ ∀ m m', model = some m → model' = some m' → m.Like m' := by
  have hpeers' : Peers engine.setting parser path s s' := ⟨hs.trail, hs'.trail, hpeers⟩
  cases h with
  | quick known =>
    cases h' with
    | quick known' =>
      obtain ⟨-, rfl, rfl⟩ := quick_ok known
      obtain ⟨-, rfl, rfl⟩ := quick_ok known'
      exact ⟨rfl, hpeers.record _, rfl, by simp⟩
    | solved unknown' => cases hpeers'.quick henv known unknown'
  | solved unknown =>
    cases h' with
    | quick known' => cases hpeers'.quick henv unknown known'
    | solved unknown' =>
      have hsame : (s'.solve engine.solver).1 = (s.solve engine.solver).1 :=
        (hs'.comes hformulas' hsolver).unique henv (hs.comes hformulas hsolver)
      refine ⟨hsame, ?_, rfl, ?_⟩
      · exact hpeers.solve hsame
      · rintro m m' ⟨⟩ ⟨⟩
        exact ⟨rfl, rfl, rfl, hsame⟩

theorem Answered.unison {successes : Nat} (h : Answered engine successes outcome v)
    (h' : Answered engine successes outcome v') : v' = v := by
  have hsame : v' = .proceed ↔ v = .proceed := h'.proceeds.trans h.proceeds.symm
  have hv := h.goes
  have hv' := h'.goes
  cases v <;> cases v' <;> simp_all

variable {x y x' y' : Exploration}

theorem nothingNew_level (h : x.Level y) (control : ControlPath) : nothingNew y control = nothingNew x control := by
  rw [nothingNew, nothingNew, h.finished, h.visits]

theorem leastVisited_level (h : x.Level y) (edges : List ControlEdge) :
    leastVisited y edges = leastVisited x edges := by
  rw [leastVisited, leastVisited, h.finished, h.visits]

theorem cover_level (h : x.Level y) (graph : Graph Label ControlStep) (control : ControlPath) (complete : Bool)
    (outcome : Outcome) : (cover graph control complete outcome x).Level (cover graph control complete outcome y) := by
  unfold cover
  split
  · refine ⟨h.parser, h.successes, ?_, ?_⟩
    · simp only [finish, countVisits, h.finished]
    · simp only [finish, countVisits, h.visits]
  · exact h

/-- The explorations are at one path, under the same outcomes, and what is handed on to be solved is of one kind. -/
structure Together (engine : Engine) (path : ControlPath) (x y : Exploration) (model model' : Option PathModel) :
    Prop where
  level : x.Level y
  outcomes : SameOutcomes x.solver y.solver
  depth : x.solver.levels.length = path.length
  models : model'.isSome = model.isSome
  like : ∀ m m', model = some m → model' = some m' → m.Like m' ∧ m.path.control = path
  solved : ∀ m, model = some m → Solved engine x.parserPath path x.solver
  solved' : ∀ m, model' = some m → Solved engine x.parserPath path y.solver

theorem Together.cover (h : Together engine path x y model model') (graph : Graph Label ControlStep)
    (control : ControlPath) (complete : Bool) (outcome : Outcome) :
    Together engine path (cover graph control complete outcome x)
      (cover graph control complete outcome y) model model' := by
  obtain ⟨hsolver, hparser⟩ := cover_solver graph control complete outcome x
  obtain ⟨hsolver', -⟩ := cover_solver graph control complete outcome y
  refine ⟨cover_level h.level _ _ _ _, ?_, ?_, h.models, h.like, ?_, ?_⟩
  · rw [hsolver, hsolver']
    exact h.outcomes
  · rw [hsolver]
    exact h.depth
  · rw [hsolver, hparser]
    exact h.solved
  · rw [hsolver', hparser]
    exact h.solved'

section

variable (henv : engine.setting.Uniform) (hsolver : engine.solver.Decides)

include henv hsolver

theorem Visited.unison (hlevel : x.Level y) (hsame : SameOutcomes s s')
    (hs : Solid engine.setting x.parserPath front s) (hs' : Solid engine.setting x.parserPath front s')
    (h : Visited engine (front ++ [e]) complete { x with solver := s.push } p outcome model x' p')
    (h' : Visited engine (front ++ [e]) complete { y with solver := s'.push } q outcome' model' y' q') :
    outcome' = outcome ∧ Together engine (front ++ [e]) x' y' model model' := by
  obtain ⟨t, hextend, hjudged⟩ := h.judged
  obtain ⟨t', hextend', hjudged'⟩ := h'.judged
  obtain ⟨hsolid, hformulas⟩ := hs.extend hextend
  obtain ⟨hsolid', hformulas'⟩ := hs'.extend hextend'
  obtain ⟨hlevels, hbase⟩ := hs.extend_outcomes hextend
  obtain ⟨hlevels', hbase'⟩ := hs'.extend_outcomes hextend'
  have hpeers : SameOutcomes t t' :=
    ⟨by rw [hlevels, hlevels', hsame.levels], by rw [hbase, hbase', hsame.base]⟩
  rw [hlevel.parser] at hjudged'
  obtain ⟨rfl, houtcomes, hmodels, hlike⟩ :=
    hjudged.unison henv hsolver hpeers hsolid hsolid' hformulas hformulas' hjudged'
  have hrest := h.rest
  have hrest' := h'.rest
  have hparser : x'.parserPath = x.parserPath := by rw [hrest]
  refine ⟨rfl, ⟨?_, ?_, ?_, ?_⟩, houtcomes, (hsolid.same hjudged.same).length_levels, hmodels, ?_, ?_, ?_⟩
  · rw [hparser, hrest']
    exact hlevel.parser
  · rw [hrest, hrest']
    exact congrArg (· + _) hlevel.successes
  · rw [hrest, hrest']
    exact hlevel.finished
  · rw [hrest, hrest']
    exact hlevel.visits
  · rintro m m' rfl rfl
    exact ⟨hlike m m' rfl rfl, (hjudged.solved_of_some hsolid hformulas).2.2⟩
  · rintro m rfl
    rw [hparser]
    exact (hjudged.solved_of_some hsolid hformulas).1
  · rintro m rfl
    rw [hparser]
    exact (hjudged'.solved_of_some hsolid' hformulas').1

theorem Visits.unison (hne : path ≠ []) (hlevel : x.Level y)
    (hsame : SameOutcomes s s') (hs : Solid engine.setting x.parserPath path.dropLast s)
    (hs' : Solid engine.setting x.parserPath path.dropLast s')
    (h : Visits engine path complete { x with solver := s } p v model x' p')
    (h' : Visits engine path complete { y with solver := s' } q v' model' y' q') :
    v' = v ∧ Together engine path x' y' model model' ∧ p.Alike q p' q' := by
  obtain ⟨front, e, rfl⟩ := eq_nil_or_concat' path |>.resolve_left hne
  rw [dropLast_concat] at hs hs'
  have hnew : nothingNew { y with solver := s' } (front ++ [e]) = nothingNew { x with solver := s } (front ++ [e]) :=
    nothingNew_level (hlevel.with _ _) _
  cases h with
  | passed coverage nothing =>
    cases h' with
    | passed =>
      have hdepth : s.push.levels.length = (front ++ [e]).length := by
        rw [push, length_cons, hs.length_levels, length_append, length_singleton]
      refine ⟨rfl, ⟨hlevel.with _ _, hsame.push, hdepth, rfl,
        ?_, ?_, ?_⟩, [], rfl, rfl⟩
      all_goals simp
    | examined new =>
      rw [new coverage, nothing] at hnew
      cases hnew
  | examined new visited answered =>
    cases h' with
    | passed coverage nothing =>
      rw [new coverage, nothing] at hnew
      cases hnew
    | examined new' visited' answered' =>
      obtain ⟨rfl, htogether⟩ := visited.unison henv hsolver hlevel hsame hs hs' visited'
      rw [htogether.level.successes] at answered'
      refine ⟨answered.unison answered', ?_, [_], visited.found, ?_⟩
      · split
        · exact htogether.cover _ _ _ _
        · exact htogether
      · rw [visited'.found]
        change .control ⟨y.parserPath, front ++ [e], _⟩ :: q.findings = _
        rw [hlevel.parser]
        rfl

theorem Moves.unison (hlevel : x.Level y)
    (hsame : SameOutcomes x.solver y.solver) (hx : Ready engine.setting x.parserPath w x.solver)
    (hy : Ready engine.setting y.parserPath w y.solver) (h : Moves engine w x p model w' x' p')
    (h' : Moves engine w y q model' w'' y' q') (hended : w.ended = false) :
    w'' = w' ∧ p.Alike q p' q' ∧
      ((model = none ∧ model' = none ∧ w'.ended = true ∧ x'.Level y') ∨ ∃ path, w'.ended = false ∧
      w'.depth = path.length ∧ x'.parserPath = x.parserPath ∧ Together engine path x' y' model model') := by
  cases h with
  | stayed pending ended => simp [hended] at ended
  | finished pending ended =>
    cases h' with
    | stayed pending' ended' => simp [hended] at ended'
    | finished =>
      exact ⟨rfl, ⟨[], rfl, rfl⟩, .inl ⟨rfl, rfl, rfl, hlevel.with _ _⟩⟩
    | visited pending' => simp [pending] at pending'
  | @visited path rest v model x' p' pending visits =>
    cases h' with
    | stayed pending' | finished pending' => simp [pending] at pending'
    | @visited path' rest' v' model' y' q' pending' visits' =>
      obtain ⟨rfl, rfl⟩ := List.cons.inj (pending.symm.trans pending')
      have hnext := hx.next pending
      have hnext' := hy.next pending
      rw [hlevel.parser] at hnext'
      obtain ⟨last, hstacked, -⟩ := hx
      have hne := hstacked.top_ne pending
      obtain ⟨rfl, htogether, hfound⟩ :=
        visits.unison henv hsolver hne hlevel (hsame.pops _ _) hnext hnext' visits'
      refine ⟨?_, hfound, .inr ⟨path, rfl, rfl, (visits.levels hne hnext).1, htogether⟩⟩
      have hedges : nextEdges engine y' path = nextEdges engine x' path := by
        rw [nextEdges, nextEdges, leastVisited_level htogether.level]
      rw [walked, walked, hedges]

end

end Explore

end PacketSmith
