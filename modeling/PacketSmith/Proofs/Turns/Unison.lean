import PacketSmith.Proofs.PathNumbers
import PacketSmith.Proofs.Turns.Solutions

/-!
# Streams in unison

Two streams of one parser path that have come equally far stay so, whatever other streams do in between: each step
of one is matched by a step of the other, with the same findings and a solution of the same path or none
(`Unison.step`). What other streams change is how far variables and draws are numbered, and the unison does not
depend on that.
-/

namespace PacketSmith

open Explore SolutionStream PathSolver

inductive SameStage (engine : Engine) (x y : Exploration) : StreamStage → StreamStage → Prop where
  | waiting : SameStage engine x y .waiting .waiting
  | walking {w : Walk Label ControlStep} (outcomes : SameOutcomes x.solver y.solver)
    (depth : x.solver.levels.length = w.depth) : SameStage engine x y (.walking w) (.walking w)
  | yielded {w : Walk Label ControlStep} {m m' : PathModel} {n : Nat} (like : m.Like m')
    (depth : m.path.control.length = w.depth)
    (peers : Peers engine.setting x.parserPath m.path.control (released engine m x.solver)
      (released engine m' y.solver))
    (opens : Open (released engine m x.solver) (released engine m' y.solver)) :
    SameStage engine x y (.yielded w m n) (.yielded w m' n)
  | ended : SameStage engine x y .ended .ended

/-- Two streams of one parser path have come equally far. -/
structure Unison (engine : Engine) (x y : Exploration) (stage stage' : StreamStage) : Prop where
  settled : Settled engine x stage
  settled' : Settled engine y stage'
  level : x.Level y
  same : SameStage engine x y stage stage'

section Steps

variable {engine : Engine} {stage stage' next next' : StreamStage}
  {found found' : Option Solution}

theorem PathSolver.start_outcomes {parser : ParserPath} {s s' : PathSolver}
    (h : s.start env parser = .ok (true, s')) : s'.levels = [] ∧ s'.base.outcomes = [] := by
  obtain ⟨hlevels, _, _, -, ⟨hfalse, -⟩ | ⟨fs, -, rfl, -⟩⟩ := start_ok h
  · cases hfalse
  · exact ⟨hlevels, rfl⟩

theorem Begins.unison (hengine : engine.Steady) (hx : x.solver.Idle engine.options)
    (hy : y.solver.Idle engine.options) (hlevel : x.Level y) (h : Begins engine x p next x' p')
    (h' : Begins engine y q next' y' q') : x'.Level y' ∧ SameStage engine x' y' next next' ∧ p.Alike q p' q' := by
  have hparser := hlevel.parser
  have hstarted {z : Exploration} {s : PathSolver} (hz : z.solver.Idle engine.options)
      (hsame : z.parserPath = x.parserPath) (hstart : z.solver.start engine.setting z.parserPath = .ok (true, s)) :
      Trail engine.setting x.parserPath [] s.standing s.fresh ∧
        ((s.check engine.solver).isSat = true ↔ Satisfiable s.standing.constraints.flatten) := by
    have hlayered := hz.start_layered hengine.keeps hstart
    refine ⟨hsame ▸ (hz.start hstart).trail, ?_⟩
    rw [hengine.decides.isSat_check, hlayered.formulas, standing_constraints]
  -- the constraints of the parser path can be satisfied for both or for none
  have hpossible {s s' : PathSolver} (hs : x.solver.start engine.setting x.parserPath = .ok (true, s))
      (hs' : y.solver.start engine.setting y.parserPath = .ok (true, s')) :
      (s.check engine.solver).isSat = (s'.check engine.solver).isSat := by
    obtain ⟨htrail, hsat⟩ := hstarted hx rfl hs
    obtain ⟨htrail', hsat'⟩ := hstarted hy hparser hs'
    rw [Bool.eq_iff_iff, hsat, hsat', ← htrail.possible_iff hengine.uniform, ← htrail'.possible_iff hengine.uniform]
  have hrefresh (s : PathSolver) : (s.check engine.solver).refresh engine.options = s.check engine.solver :=
    if_pos hengine.keeps
  cases h with
  | impossible start found =>
    cases h' with
    | impossible start' found' =>
      rw [hparser] at found'
      exact ⟨hlevel.with _ _, .ended, [_], found, found'⟩
    | refuted start' | started start' => exact absurd start (hstarted hy hparser start').1.not_impossible
  | refuted start unsat found =>
    cases h' with
    | impossible start' =>
      rw [hparser] at start'
      exact absurd start' (hstarted hx rfl start).1.not_impossible
    | refuted start' unsat' found' =>
      rw [hparser] at found'
      exact ⟨hlevel.with _ _, .ended, [_], found, found'⟩
    | started start' sat' =>
      rw [hpossible start start', sat'] at unsat
      cases unsat
  | @started s _ start sat found =>
    cases h' with
    | impossible start' =>
      rw [hparser] at start'
      exact absurd start' (hstarted hx rfl start).1.not_impossible
    | refuted start' unsat' =>
      rw [hpossible start start', unsat'] at sat
      cases sat
    | @started s' _ start' sat' found' =>
      rw [hparser] at found'
      refine ⟨hlevel.with _ _, ?_, [_], found, found'⟩
      have hedges : firstEdges engine y = firstEdges engine x := by
        rw [firstEdges, firstEdges, leastVisited_level hlevel]
      rw [hedges, hrefresh, hrefresh]
      obtain ⟨hlevels, hbase⟩ := start_outcomes start
      obtain ⟨hlevels', hbase'⟩ := start_outcomes start'
      refine .walking ⟨?_, hbase'.trans hbase.symm⟩ (congrArg List.length hlevels)
      change s'.levels.map _ = s.levels.map _
      rw [hlevels, hlevels']

theorem Explore.Together.yielded
    (hengine : engine.Steady) (h : Together engine path x y (some m) (some m'))
    (hdepth : w.depth = path.length) (hx : (solution engine m).exec x p = .ok ((sol, x'), p'))
    (hy : (solution engine m').exec y q = .ok ((sol', y'), q')) :
    x'.Level y' ∧ SameStage engine x' y' (.yielded w m 1) (.yielded w m' 1) := by
  obtain ⟨hlike, rfl⟩ := h.like m m' rfl rfl
  have hsolved := h.solved m rfl
  have hsolved' := h.solved' m' rfl
  have hpeers : Peers engine.setting x.parserPath m.path.control x.solver y.solver :=
    ⟨hsolved.solid.trail, hsolved'.solid.trail, h.outcomes⟩
  obtain ⟨hx', -, ρ, fs, hsolves⟩ := solution_ok hx
  obtain ⟨hy', -, ρ', fs', hsolves'⟩ := solution_ok hy
  obtain ⟨hreleased, hopen⟩ := hsolves.opens hengine hpeers
    (.first hengine.uniform hpeers hsolved.formulas hsolved'.formulas) hsolved.answer hsolved'.answer hlike hsolves'
  have hparser : x'.parserPath = x.parserPath := by rw [hx']
  refine ⟨?_, .yielded hlike hdepth.symm (hparser ▸ hreleased) hopen⟩
  rw [hx', hy']
  exact h.level.with _ _

theorem Unison.step (hengine : engine.Steady) (hu : Unison engine x y stage stage')
    (h : Steps engine x p stage found next x' p') (h' : Steps engine y q stage' found' next' y' q') :
    Unison engine x' y' next next' ∧ found'.isSome = found.isSome ∧ p.Alike q p' q' := by
  suffices hsame : x'.Level y' ∧ SameStage engine x' y' next next' ∧ found'.isSome = found.isSome ∧ p.Alike q p' q' from
    ⟨⟨(h.settled hu.settled).2, (h'.settled hu.settled').2, hsame.1, hsame.2.1⟩,
      hsame.2.2⟩
  obtain ⟨hsettled, hsettled', hlevel, hstage⟩ := hu
  cases hstage with
  | waiting =>
    cases h with
    | begins begins =>
      cases h' with
      | begins begins' =>
        obtain ⟨hlater, hstage, hfound⟩ := begins.unison hengine hsettled hsettled' hlevel begins'
        exact ⟨hlater, hstage, rfl, hfound⟩
  | @walking w outcomes depth =>
    have hmoves {model model' : Option PathModel} {w₁ w₁' : Walk Label ControlStep} {x₁ y₁ : Exploration}
        {p₁ q₁ : Progress} (h : Moves engine w x p model w₁ x₁ p₁) (h' : Moves engine w y q model' w₁' y₁ q₁) :=
      h.unison hengine.uniform hengine.decides hlevel outcomes hsettled.2 hsettled'.2 h' hsettled.1
    cases h with
    | moves moves nothing =>
      cases h' with
      | moves moves' nothing' =>
        obtain ⟨rfl, hfound, ⟨rfl, rfl, hended, hlater⟩ | ⟨path, hended, hdepth, -, htogether⟩⟩ := hmoves moves moves'
        · rw [if_pos hended]
          exact ⟨hlater, .ended, rfl, hfound⟩
        · rw [if_neg (by simp [hended])]
          exact ⟨htogether.level, .walking htogether.outcomes (htogether.depth.trans hdepth.symm), rfl, hfound⟩
      | solves moves' gives' =>
        obtain ⟨rfl, -, ⟨-, hnone, -⟩ | ⟨path, -, -, -, htogether⟩⟩ := hmoves moves moves'
        · cases hnone
        · obtain ⟨m, rfl⟩ := Option.isSome_iff_exists.mp htogether.models.symm
          have hlike := (htogether.like m _ rfl rfl).1
          rw [hlike.outcome, hlike.complete, nothing m rfl] at gives'
          cases gives'
    | solves moves gives solution =>
      cases h' with
      | moves moves' nothing' =>
        obtain ⟨rfl, -, ⟨hnone, -⟩ | ⟨path, -, -, -, htogether⟩⟩ := hmoves moves moves'
        · cases hnone
        · obtain ⟨m', rfl⟩ := Option.isSome_iff_exists.mp htogether.models
          have hlike := (htogether.like _ m' rfl rfl).1
          rw [← hlike.outcome, ← hlike.complete, nothing' m' rfl] at gives
          cases gives
      | solves moves' gives' solution' =>
        obtain ⟨rfl, ⟨new, hnew, hnew'⟩, ⟨hnone, -⟩ | ⟨path, -, hdepth, -, htogether⟩⟩ := hmoves moves moves'
        · cases hnone
        · obtain ⟨hlater, hstage⟩ := htogether.yielded hengine hdepth solution solution'
          exact ⟨hlater, hstage, rfl, new, (solution_ok solution).2.1.findings.trans hnew,
            (solution_ok solution').2.1.findings.trans hnew'⟩
  | @yielded w m m' n like depth peers opens =>
    cases h with
    | leaves limit =>
      cases h' with
      | leaves =>
        exact ⟨hlevel.with _ _, .walking peers.outcomes (peers.depth.trans depth), rfl, [], rfl, rfl⟩
      | continues limit' => exact absurd limit limit'
    | continues limit another =>
      cases h' with
      | leaves limit' => exact absurd limit' limit
      | continues limit' another' =>
        obtain ⟨hx', hp, hfurthers⟩ := another_ok another
        obtain ⟨hy', hq, hfurthers'⟩ := another_ok another'
        obtain ⟨hagain, hnone, hsome⟩ := hfurthers.unison hengine peers opens like hfurthers'
        have hparser : x'.parserPath = x.parserPath := by rw [hx']
        have hlater : x'.Level y' := by
          rw [hx', hy']
          exact hlevel.with _ _
        refine ⟨hlater, ?_, hagain, [], hp.findings, hq.findings⟩
        cases found with
        | none =>
          rw [if_neg (by simp), if_neg (by simp [hagain])]
          exact .walking (hnone rfl).outcomes ((hnone rfl).depth.trans depth)
        | some s =>
          rw [if_pos (by simp), if_pos (by simp [hagain])]
          exact .yielded like depth (hparser ▸ (hsome rfl).1) (hsome rfl).2
  | ended =>
    cases h with
    | rests =>
      cases h' with
      | rests => exact ⟨hlevel, .ended, rfl, [], rfl, rfl⟩

theorem Unison.advance (hengine : engine.Steady) (hu : Unison engine x y stage stage')
    (h : (advance engine fuel stage).exec x p = .ok (((found, next), x'), p'))
    (h' : (advance engine fuel stage').exec y q = .ok (((found', next'), y'), q')) :
    Unison engine x' y' next next' ∧ found'.isSome = found.isSome ∧ p.Alike q p' q' := by
  induction fuel generalizing stage stage' x y p q with
  | zero =>
    cases h
    cases h'
    exact ⟨hu, rfl, [], rfl, rfl⟩
  | succ fuel ih =>
    obtain ⟨⟨now, middle⟩, x₁, p₁, hstep, h⟩ := exec_bind_ok.1 h
    obtain ⟨⟨now', middle'⟩, y₁, q₁, hstep', h'⟩ := exec_bind_ok.1 h'
    obtain ⟨hu₁, hsome, new, hnew, hnew'⟩ := hu.step hengine (step_ok hstep) (step_ok hstep')
    have hlater (h : (advance engine fuel middle).exec x₁ p₁ = .ok (((found, next), x'), p'))
        (h' : (advance engine fuel middle').exec y₁ q₁ = .ok (((found', next'), y'), q')) :
        Unison engine x' y' next next' ∧ found'.isSome = found.isSome ∧
          p.Alike q p' q' := by
      obtain ⟨hu', hfound, more, hmore, hmore'⟩ := ih hu₁ h h'
      exact ⟨hu', hfound, more ++ new, by rw [hmore, hnew, List.append_assoc],
        by rw [hmore', hnew', List.append_assoc]⟩
    cases now with
    | some s =>
      obtain ⟨s', rfl⟩ := Option.isSome_iff_exists.mp hsome
      cases h
      cases h'
      exact ⟨hu₁, rfl, new, hnew, hnew'⟩
    | none =>
      obtain rfl : now' = none := by simpa using hsome
      have hstage := hu₁.same
      cases hstage with
      | ended =>
        cases h
        cases h'
        exact ⟨hu₁, rfl, new, hnew, hnew'⟩
      | waiting | walking | yielded => exact hlater h h'

end Steps

theorem Unison.counted {engine : Engine} {stage stage' : StreamStage}
    (h : Unison engine x y stage stage') (hn : x.solver.fresh ≤ n) (hn' : y.solver.fresh ≤ n') :
    Unison engine { x with solver.fresh := n } { y with solver.fresh := n' } stage stage' := by
  refine ⟨h.settled.counted hn, h.settled'.counted hn', h.level.with _ _, ?_⟩
  have hsame := h.same
  cases hsame with
  | waiting => exact .waiting
  | walking outcomes depth => exact .walking ⟨outcomes.levels, outcomes.base⟩ depth
  | @yielded w m m' k like depth peers opens =>
    refine .yielded like depth ?_ ?_
    · rw [released_counted m x.solver n, released_counted m' y.solver n']
      exact ⟨peers.trail.mono (by rwa [fresh_released]), peers.trail'.mono (by rwa [fresh_released]),
        peers.outcomes.levels, peers.outcomes.base⟩
    · rw [released_counted m x.solver n, released_counted m' y.solver n']
      exact ⟨opens.asked, opens.sat, opens.sat'⟩
  | ended => exact .ended

end PacketSmith
