import PacketSmith.Proofs.Lockstep

/-!
# Streams in step

A stream of solutions takes the same steps whether constraints are kept or not, if what earlier paths have left
asserted does not change whether a packet may take a parser path (`PathSolver.Unhampered`), and if there are no random
draws when another solution of a path is asked for. `InPace` relates the two streams at every stage.
-/

namespace PacketSmith

open List Symbolic

def Engine.keeping (engine : Engine) (keep : Bool) : Engine :=
  engine.solving keep engine.options.tableOpt engine.options.conditionalOpt

abbrev Engine.kept (engine : Engine) : Engine := engine.keeping true

abbrev Engine.lax (engine : Engine) : Engine := engine.keeping false

def Exploration.Matches (R : PathSolver → PathSolver → Prop) (x x' : Exploration) : Prop :=
  ∃ s', x' = { x with solver := s' } ∧ R x.solver s'

theorem Exploration.Matches.mono {x x' : Exploration}
    (h : x.Matches R x') (hR : ∀ s s', R s s' → R' s s') : x.Matches R' x' := by
  obtain ⟨s', rfl, hs⟩ := h
  exact ⟨s', rfl, hR _ _ hs⟩

open PathSolver (Akin InStep Layered Same Beside Above Along)

/-! ## Parser paths and edges -/

namespace PathSolver

variable {engine : Engine} {s s' : PathSolver}

/-- What is left asserted does not change whether a packet may take a parser path. -/
def Unhampered (engine : Engine) (parser : ParserPath) (s : PathSolver) : Prop :=
  ∀ t, s.start engine.setting parser = .ok (true, t) →
    (engine.solver t.formulas).isSat = (engine.solver t.base.constraints).isSat

theorem start_both (h : Akin s s') (parser : ParserPath) : Both (fun r r' => r'.1 = r.1 ∧ Akin r.2 r'.2)
    (s.start engine.kept.setting parser) (s'.start engine.lax.setting parser) := by
  obtain ⟨frames, answer, rfl⟩ := h
  by_cases hs : s.levels = []
  case neg =>
    have hstart (env : Setting) (s : PathSolver) (hs : s.levels ≠ []) : s.start env parser = .error .violated := by
      rw [start, show (s.renew env.options).levels = s.levels from rfl, isEmpty_eq_false_iff.mpr hs]
      rfl
    rw [hstart engine.kept.setting s hs, hstart engine.lax.setting _ (by exact hs)]
    exact .error _
  cases hctx : engine.setting.program.startContext engine.options with
  | error f =>
    have hstart (env : Setting) (s : PathSolver) (hs : s.levels = [])
        (hctx : env.program.startContext env.options = .error f) : s.start env parser = .error f := by
      rw [start, show (s.renew env.options).levels = [] from hs, hctx]
      rfl
    rw [hstart engine.kept.setting s hs hctx,
      hstart engine.lax.setting _ (by exact hs) hctx]
    exact .error f
  | ok ctx =>
    rw [show s.start engine.kept.setting parser = _ from start_eq parser hs hctx,
      show start engine.lax.setting parser { s with frames := frames, answer := answer } = _
        from start_eq parser hs hctx]
    rw [show parserPath engine.kept.setting parser = _ from
        parserPath_solving engine.setting .., show parserPath
        engine.lax.setting parser = _ from parserPath_solving engine.setting ..]
    rcases (parserPath engine.setting parser).result { context := ctx, fresh := s.fresh }
      with ⟨f | (_ | fs), t⟩
    · exact .error f
    · exact .ok ⟨rfl, _, _, rfl⟩
    · exact .ok ⟨rfl, _, _, rfl⟩

theorem Idle.start_layered {parser : ParserPath} (h : s.Idle env.options) (hinc : env.options.incremental = true)
    (hstart : s.start env parser = .ok (true, s')) : Layered env.options [] s' := by
  have hsolid := h.start hstart
  refine ⟨hsolid.length_levels, hsolid.layers hinc, fun hdraw => ?_⟩
  obtain ⟨hlevels, ctx, t, hctx, ⟨hfalse, -⟩ | ⟨fs, -, rfl, hrun⟩⟩ := start_ok hstart
  · cases hfalse
  · have ht := (parserPath_regular (σ := RelEmbedding.refl _) env parser).does.undrawn hdraw
      (t := { context := ctx, fresh := s.fresh }) ⟨Program.startContext_undrawn hctx, rfl⟩
    rw [hrun] at ht
    rw [standing_begun _ _ _ _ hlevels]
    exact ⟨by simpa using ht.1, ht.2⟩

theorem extend_both (h : Akin s s') (hs : Layered engine.kept.options front s) :
    Both InStep ((s.push.refresh engine.kept.options).extend engine.kept.setting (front ++ [e]))
      ((s'.push.refresh engine.lax.options).extend engine.lax.setting (front ++ [e])) := by
  have hconstraints : s'.constraints = s.constraints := by
    rw [← standing_constraints, h.standing, standing_constraints]
  have hfresh : s'.fresh = s.fresh := by
    obtain ⟨frames, answer, rfl⟩ := h
    rfl
  rw [extend_refresh engine.kept.setting _ s fun _ => by rw [length_append, hs.depth]; rfl,
    extend_refresh engine.lax.setting _ s' (by simp [Engine.keeping, Engine.solving,
      Setting.solving, Options.solving]),
    show lastConstraints engine.kept.setting _ = _ from lastConstraints_solving engine.setting ..,
    show lastConstraints engine.lax.setting _ = _ from lastConstraints_solving engine.setting ..,
    h.standing, hfresh, hconstraints]
  rcases (lastConstraints engine.setting (front ++ [e])).result (s.standing.state s.fresh)
    with ⟨f | added, t⟩
  · exact .error f
  · refine .ok ⟨?_, ?_, rfl⟩
    · obtain ⟨frames, answer, rfl⟩ := h
      exact ⟨_, _, rfl⟩
    · change [s.constraints.flatten ++ added].reverse.flatten = (added :: s.frames).reverse.flatten
      rw [← hs.formulas]
      simp [formulas]

end PathSolver

/-! ## Visits -/

namespace Explore

variable {engine : Engine} {x x' : Exploration} {p : Progress} {complete : Bool}
  {control last : ControlPath} {outcome : Outcome} {s s' : PathSolver}
  {model : Option PathModel}

theorem exec_undo_bind
    (engine : Engine) (n : Nat) (f : Unit → Explore α) (x : Exploration) (p : Progress) :
    (Walk.undo (visitor engine) n >>= f).exec x p =
      (f ()).exec { x with solver := (PathSolver.pop engine.options)^[n] x.solver } p := by
  rw [exec_bind, exec_undo]
  rfl

theorem exec_order_bind (engine : Engine)
    (path edges : ControlPath) (f : List ControlEdge → Explore α) (x : Exploration) (p : Progress) :
    ((visitor engine).order path edges >>= f).exec x p =
      (f (if engine.options.edgeCoverage then leastVisited x edges else edges)).exec x p := by
  rw [exec_bind, exec_order]
  rfl

theorem exec_release_bind
    (engine : Engine) (m : PathModel) (f : Unit → Explore α) (x : Exploration) (p : Progress) :
    (release engine m >>= f).exec x p = (f ()).exec { x with solver := released engine m x.solver } p := by
  rw [exec_bind, exec_release]
  rfl

variable (engine) in
theorem solve_matched (h : x.Matches InStep x') : Matched (fun _ y y' => y.Matches InStep y')
    ((solve engine.kept).exec x p) ((solve engine.lax).exec x' p) := by
  obtain ⟨s', rfl, hs⟩ := h
  obtain ⟨houtcome, hsolve⟩ := hs.solve engine.solver
  rw [exec_solve, exec_solve]
  change Matched _ _ (.ok (((s'.solve engine.solver).1, _), _))
  rw [houtcome]
  exact .of_ok ⟨_, rfl, hsolve⟩

theorem judge_matched (h : x.Matches InStep x') : Matched (fun _ y y' => y.Matches InStep y')
    ((judge engine.kept control complete).exec x p)
    ((judge engine.lax control complete).exec x' p) := by
  unfold judge
  rw [exec_get_bind, exec_get_bind]
  obtain ⟨s', rfl, hs⟩ := h
  refine Matched.lift_bind (hs.akin.quick engine.setting control complete) fun known known' hknown => ?_
  obtain ⟨rfl, rfl⟩ | ⟨outcome, rfl, rfl⟩ := hknown
  · refine Matched.bind (solve_matched engine ⟨s', rfl, hs⟩) fun outcome y y' q hy => ?_
    have hid : s'.pathId = x.solver.pathId := by
      obtain ⟨⟨frames, answer, rfl⟩, -, -⟩ := hs
      rfl
    change Matched _ _ (.ok (((outcome, some (PathModel.mk ⟨s'.pathId, x.parserPath, control, complete⟩
      outcome)), y'), q))
    rw [hid]
    exact .of_ok hy
  · exact .of_ok ⟨_, rfl, hs.record .success⟩

theorem record_matched (h : x.Matches R x') : Matched (fun _ y y' => y.Matches R y')
    ((record engine.kept control complete outcome).exec x p)
    ((record engine.lax control complete outcome).exec x' p) := by
  obtain ⟨s', rfl, hs⟩ := h
  unfold record
  simp only [exec_get_bind, exec_note_bind, exec_count_bind]
  refine Matched.bind (Q := fun _ y y' => y.Matches R y') ?_ fun _ y y' q hy => ?_
  · unfold log
    change Matched _ ((if engine.options.recordStatistics then _ else _ : Explore Unit).exec _ _)
      ((if engine.options.recordStatistics then _ else _ : Explore Unit).exec _ _)
    split
    · rw [exec_count_bind, exec_count_bind]
      exact Matched.require _ _ ⟨s', rfl, hs⟩
    · exact .of_ok ⟨s', rfl, hs⟩
  · obtain ⟨t', rfl, ht⟩ := hy
    unfold report
    split
    · exact .of_ok ⟨t', rfl, ht⟩
    · exact .of_ok ⟨t', rfl, ht⟩

variable {o : Options} {w : Walk Label ControlStep}

theorem visitPath_matched (h : Akin s s') (hs : Layered engine.kept.options front s) :
    Matched (fun _ y y' => y.Matches InStep y')
      ((visitPath engine.kept (front ++ [e]) complete).exec { x with solver := s.push } p)
      ((visitPath engine.lax (front ++ [e]) complete).exec { x with solver := s'.push } p) := by
  unfold visitPath solvePath
  refine Matched.bind (Q := fun _ y y' => y.Matches InStep y') (Matched.bind ?_ fun _ y y' q hy =>
    judge_matched hy) fun r y y' q hy => ?_
  · rw [exec_assertPath, exec_assertPath]
    exact Both.bind (PathSolver.extend_both h hs) fun r r' hr => Matched.of_ok ⟨r', rfl, hr⟩
  · exact Matched.bind (record_matched hy) fun _ y y' q hy => .of_ok hy

theorem verdict_matched (h : x.Matches R x') : Matched (fun _ y y' => y.Matches R y')
    ((verdict engine.kept outcome).exec x p) ((verdict engine.lax outcome).exec x' p) := by
  obtain ⟨s', rfl, hs⟩ := h
  exact .of_ok ⟨s', rfl, hs⟩

/-- A visit is made in the same way. A path that was passed over was not asserted, and then nothing
is handed on to be solved. -/
theorem visit_matched (h : Akin s s') (hs : Layered engine.kept.options front s) :
    Matched (fun r y y' => y.Matches (fun t t' => Akin t t' ∧ (r.2.isSome = true → InStep t t')) y')
      (((visitor engine.kept).visit (front ++ [e]) complete).exec { x with solver := s } p)
      (((visitor engine.lax).visit (front ++ [e]) complete).exec { x with solver := s' } p) := by
  have hanswer {outcome : Outcome} {model : Option PathModel} {y y' : Exploration} {q : Progress}
      (hy : y.Matches InStep y') :
      Matched (fun (r : Verdict × Option PathModel) y y' =>
          y.Matches (fun t t' => Akin t t' ∧ (r.2.isSome = true → InStep t t')) y')
        ((do return (← verdict engine.kept outcome, model) : Explore _).exec y q)
        ((do return (← verdict engine.lax outcome, model) : Explore _).exec y' q) :=
    Matched.bind (verdict_matched hy) fun v y y' q hy =>
      .of_ok (hy.mono fun t t' ht => ⟨ht.akin, fun _ => ht⟩)
  unfold visitor
  change Matched _ ((if engine.options.edgeCoverage then _ else _ : Visitor Explore _ _ _).visit _ _ |>.exec _ _)
    ((if engine.options.edgeCoverage then _ else _ : Visitor Explore _ _ _).visit _ _ |>.exec _ _)
  split
  · simp only [edgeCoverage, exec_update_bind, exec_get_bind]
    change Matched _ _ ((if nothingNew { x with solver := s.push } _ then _ else _ : Explore _).exec _ _)
    split
    · exact .of_ok ⟨_, rfl, h.push, by simp⟩
    · refine Matched.bind (visitPath_matched h hs) fun r y y' q hy => ?_
      simp only [exec_modify_bind]
      refine hanswer ?_
      obtain ⟨t', rfl, ht⟩ := hy
      unfold cover
      split <;> exact ⟨t', rfl, ht⟩
  · simp only [pathCoverage, exec_update_bind]
    exact Matched.bind (visitPath_matched h hs) fun r y y' q hy => hanswer hy

/-! ## Walks -/

def Poised (o : Options) (w : Walk Label ControlStep) (s : PathSolver) : Prop :=
  ∃ last, w.Stacked last ∧ s.levels.length = last.length ∧ Along o (Layered o) last w s

theorem Poised.counted (h : Poised o w s) (n : Nat) : Poised o w { s with fresh := n } := by
  have hlayered (path : ControlPath) (s : PathSolver) (h : Layered o path s) :
      Layered o path { s with fresh := n } := ⟨h.depth, h.layers, h.undrawn⟩
  obtain ⟨last, hstacked, hdepth, halong⟩ := h
  refine ⟨last, hstacked, hdepth, ?_⟩
  rcases halong with hall | ⟨hne, hbelow, hshort⟩
  · exact .inl (hlayered last s hall)
  · exact .inr ⟨hne, hlayered last.dropLast _ hbelow, hshort⟩

/-- There may be more on the last level than its constraints, and no path that waits goes through
it. -/
structure Slack (o : Options) (w : Walk Label ControlStep) (last : ControlPath) (s : PathSolver) : Prop where
  ne : last ≠ []
  depth : s.levels.length = last.length
  below : Layered o last.dropLast (s.pop o)
  short : ∀ path ∈ w.pending, path.length ≤ last.length
  undrawn : o.randomize = false → s.standing.Undrawn

theorem Slack.beside (hinc : o.incremental = true) (h : Slack o w last s) (h' : Beside o s s') : Slack o w last s' := by
  refine ⟨h.ne, h'.length_levels.trans h.depth, h.below.pop_beside hinc h', h.short, fun hdraw => ?_⟩
  rw [h'.standing]
  exact h.undrawn hdraw

theorem Slack.poised (h : Slack o w last s) (hw : w.Stacked last) : Poised o w s :=
  ⟨last, hw, h.depth, .inr ⟨h.ne, h.below, h.short⟩⟩

theorem Visits.layered (hinc : engine.options.incremental = true)
    (h : Visits engine (front ++ [e]) complete { x with solver := s } p v model x' p')
    (hs : Layered engine.options front s) : Layered engine.options (front ++ [e]) x'.solver := by
  cases h with
  | passed => exact hs.push e
  | @examined outcome v model y p' new visited answered =>
    obtain ⟨t, hextend, hjudged⟩ := visited.judged
    have hlayered : Layered engine.options (front ++ [e]) y.solver :=
      (hs.extend hinc hextend).same hjudged.same
    split
    · rw [(cover_solver engine.graph (front ++ [e]) complete outcome y).1]
      exact hlayered
    · exact hlayered

theorem Moves.poised (hinc : engine.options.incremental = true) (h : Moves engine w x p model w' x' p')
    (hw : Poised engine.options w x.solver) (hended : w.ended = false) :
    (w'.ended = true → Layered engine.options [] x'.solver) ∧
      (w'.ended = false → Poised engine.options w' x'.solver) ∧
      (∀ m, model = some m → m.outcome.givesTestCase m.path.complete = true → w'.ended = false ∧
      ∃ last, w'.Stacked last ∧ Slack engine.options w' last x'.solver) := by
  obtain ⟨last, hstacked, -, halong⟩ := hw
  cases h with
  | stayed pending ended => simp [hended] at ended
  | finished pending ended =>
    exact ⟨fun _ => (Layered.recedes hinc).root hstacked halong, by simp, by simp⟩
  | @visited path rest v model x' p' pending visits =>
    have hne := hstacked.top_ne pending
    have hrest : ∀ q ∈ rest, q.length ≤ path.length :=
      (pairwise_cons.mp (pending ▸ hstacked.descends)).1
    have hstacked' := walked_stacked engine hstacked pending v x'
    have hnext := (Layered.recedes hinc).next hstacked halong pending
    have hlayered : Layered engine.options path x'.solver := by
      obtain ⟨front, e, rfl⟩ := eq_nil_or_concat' path |>.resolve_left hne
      rw [dropLast_concat] at hnext
      exact visits.layered hinc hnext
    refine ⟨by simp [walked], fun _ => ⟨path, hstacked', hlayered.depth, .inl hlayered⟩,
      fun m hm htest => ?_⟩
    subst hm
    refine ⟨rfl, path, hstacked', hne, hlayered.depth, Layered.recedes hinc _ _ hne hlayered, ?_,
      hlayered.undrawn⟩
    rw [walked, if_neg (visits.givesTestCase htest)]
    exact hrest

theorem move_matched (hw : Poised engine.kept.options w x.solver) (h : x.Matches Akin x') :
    Matched (fun r y y' => y.Matches (fun t t' => Akin t t' ∧ (r.1.isSome = true → InStep t t')) y')
      ((Walk.move engine.graph .null (visitor engine.kept) w).exec x p)
      ((Walk.move engine.graph .null (visitor engine.lax) w).exec x' p) := by
  obtain ⟨last, hstacked, -, halong⟩ := hw
  obtain ⟨s', rfl, hs⟩ := h
  unfold Walk.move
  split
  · split
    · exact .of_ok ⟨s', rfl, hs, by simp⟩
    · refine Matched.bind (Q := fun _ y y' => y.Matches Akin y') ?_ fun w y y' q hy =>
        .of_ok (hy.mono fun t t' ht => ⟨ht, by simp⟩)
      unfold Walk.finish
      rw [exec_undo_bind, exec_undo_bind]
      exact .of_ok ⟨_, rfl, hs.pops w.depth⟩
  · rename_i path rest pending
    have hne := hstacked.top_ne pending
    have hnext := (Layered.recedes (o := engine.kept.options) rfl).next hstacked halong pending
    obtain ⟨front, e, rfl⟩ := eq_nil_or_concat' path |>.resolve_left hne
    rw [dropLast_concat] at hnext
    refine Matched.bind (Q := fun r y y' =>
      y.Matches (fun t t' => Akin t t' ∧ (r.1.isSome = true → InStep t t')) y') ?_ fun r y y' q hy =>
        .of_ok hy
    unfold Walk.step
    rw [exec_undo_bind, exec_undo_bind]
    refine Matched.bind (visit_matched (hs.pops _) hnext) fun r y y' q hy => ?_
    dsimp only
    split
    · rw [exec_order_bind, exec_order_bind]
      obtain ⟨t', rfl, ht⟩ := hy
      exact .of_ok ⟨t', rfl, ht⟩
    · exact .of_ok hy

/-! ## Solutions -/

theorem randomConstraints_undrawn (h : s.standing.Undrawn) (draw : Nat → Nat) : s.randomConstraints draw = [] := by
  have hcontext : s.context.displacements = [] := by
    rw [← PathSolver.standing_context]
    exact (h.state 0).1
  have hpacket : s.packet.displacements = [] := h.packet
  rw [PathSolver.randomConstraints, hpacket, hcontext]
  rfl

variable (engine) in
theorem fixRandom_matched (h : x.Matches InStep x') :
    Matched (fun fixed y y' => y.Matches InStep y' ∧
      y.solver.formulas = x.solver.formulas ++ fixed ∧ (x.solver.standing.Undrawn →
      fixed = [])) ((fixRandom engine.kept).exec x p) ((fixRandom engine.lax).exec x' p) := by
  obtain ⟨s', rfl, hs⟩ := h
  have hpush := hs.push
  have hpacket : s'.push.packet = x.solver.push.packet := by
    obtain ⟨⟨frames, answer, rfl⟩, -, -⟩ := hs
    rfl
  have hfixed (draw : Nat → Nat) : s'.push.randomConstraints draw = x.solver.push.randomConstraints draw := by
    rw [PathSolver.randomConstraints, hpacket, hpush.context, PathSolver.randomConstraints]
  change Matched _ ((fixRandom engine).exec x p) ((fixRandom engine).exec { x with solver := s' } p)
  rw [exec_fixRandom, exec_fixRandom]
  dsimp only
  rw [hpush.isSat, hpacket, hpush.context, hfixed]
  split
  · generalize hequations : x.solver.push.randomConstraints (fun i => engine.draw (p.drawn + i)) = fixed
    have hsolve := ((hpush.assert fixed).solve engine.solver).2
    rw [hsolve.isSat]
    split
    · refine .of_ok ⟨⟨_, rfl, hsolve⟩, ?_, fun hundrawn => ?_⟩
      · have hframes := (PathSolver.same_solve engine.solver (x.solver.push.assert fixed)).frames
        rw [PathSolver.formulas, hframes, ← PathSolver.formulas, PathSolver.formulas_assert,
          PathSolver.formulas_push]
      · rw [← hequations]
        have hlevel : x.solver.push.standing = x.solver.standing.extended [] (x.solver.standing.state 0) := by
          rw [Standing.state, PathSolver.standing_context]
          rfl
        refine randomConstraints_undrawn ?_ _
        rw [hlevel]
        exact hundrawn.extended (hundrawn.state 0) []
    · exact .error _
  · exact .of_ok ⟨⟨_, rfl, hpush⟩, by simp, fun _ => rfl⟩

theorem fixRandom_above (h : (fixRandom engine).exec x p = .ok ((fixed, y), q)) : Above x.solver y.solver := by
  rw [exec_fixRandom] at h
  dsimp only at h
  split at h
  · split at h <;> cases h
    exact PathSolver.above_fixed _ _ _
  · cases h
    exact PathSolver.above_push _

variable (engine) in
theorem solution_matched {m : PathModel} (h : x.Matches InStep x') :
    Matched (fun _ y y' => y.Matches (fun t t' => Akin t t' ∧
      t'.answer = t.answer ∧ (x.solver.standing.Undrawn →
      (released engine.lax m t').formulas = (released engine.kept m t).formulas)) y')
      ((solution engine.kept m).exec x p) ((solution engine.lax m).exec x' p) := by
  unfold solution
  refine Matched.bind (Q := fun _ y y' => y.Matches (fun t t' => InStep t t' ∧
      (x.solver.standing.Undrawn → (released engine.lax m t').formulas =
        (released engine.kept m t).formulas)) y') ?_ fun fixed y y' q hy => ?_
  · unfold fixDraws
    split
    · rename_i hcomplete
      have hdrawn := (fixRandom_matched engine (p := p) h).and_left fun fixed y q hrun => fixRandom_above hrun
      refine hdrawn.mono fun fixed y y' hy => ?_
      obtain ⟨⟨-, hdrawn⟩, ⟨t', rfl, ht⟩, hformulas, hundrawn⟩ := hy
      refine ⟨t', rfl, ht, fun hx => ?_⟩
      have hkept : (released engine.kept m y.solver).formulas = x.solver.formulas := by
        rw [released, if_pos hcomplete]
        change (y.solver.frames.tail).reverse.flatten = _
        rw [hdrawn.frames]
        rfl
      have hdropped : (released engine.lax m t').formulas = t'.formulas := by
        rw [released, if_pos hcomplete]
        rfl
      rw [hkept, hdropped, ht.formulas, hformulas, hundrawn hx, append_nil]
    · rename_i hshort
      obtain ⟨s', rfl, hs⟩ := h
      refine .of_ok ⟨s', rfl, hs, fun _ => ?_⟩
      rw [released, if_neg hshort, released, if_neg hshort, hs.formulas]
  · obtain ⟨t', rfl, ht, hreleased⟩ := hy
    have hmodel : t'.model? = y.solver.model? := by
      rw [PathSolver.model?, ht.answer, PathSolver.model?]
    have hconstraints : t'.constraints = y.solver.constraints := by
      rw [← PathSolver.standing_constraints, ht.akin.standing, PathSolver.standing_constraints]
    have hpacket : t'.packet = y.solver.packet := by
      obtain ⟨⟨frames, answer, rfl⟩, -, -⟩ := ht
      rfl
    rw [exec_get_bind, exec_get_bind]
    dsimp only
    rw [hmodel, hconstraints, hpacket, ht.context]
    cases y.solver.model? with
    | none => exact .error _
    | some ρ => exact .of_ok ⟨t', rfl, ht.akin, ht.answer, hreleased⟩

theorem released_akin (h : Akin s s') (m : PathModel) : Akin (released engine.kept m s) (released engine.lax m s') := by
  unfold released
  split
  · exact h.pop
  · exact h

theorem released_answer (engine : Engine) (m : PathModel) (s : PathSolver) :
    (released engine m s).answer = s.answer := by
  unfold released
  split <;> rfl

theorem another_matched
    (h : x.Matches (fun t t' => InStep (released engine.kept m t) (released engine.lax m t')) x')
    (hundrawn : (released engine.kept m x.solver).standing.Undrawn) :
    Matched (fun found y y' => y.Matches (fun t t' => Akin t t' ∧ (found.isSome = true →
      t'.answer = t.answer ∧ (released engine.lax m t').formulas = (released engine.kept m t).formulas)) y')
      ((another engine.kept m).exec x p) ((another engine.lax m).exec x' p) := by
  obtain ⟨s', rfl, hs⟩ := h
  unfold another
  rw [exec_release_bind, exec_release_bind]
  rw [exec_get_bind, exec_get_bind]
  refine Matched.lift_bind (hs.varyLengths engine.options.variation).results fun r r' hr => ?_
  obtain ⟨varied, s₁⟩ := r
  obtain ⟨varied', s₁'⟩ := r'
  obtain ⟨hvary, -, hsame, hs₁⟩ := hr
  have hbeside := PathSolver.varyLengths_beside (o := engine.kept.options) hvary
  subst hsame
  rw [exec_update_bind, exec_update_bind]
  change Matched _ ((if !varied' && !wantsMore engine then _ else _ : Explore _).exec _ _)
    ((if !varied' && !wantsMore engine then _ else _ : Explore _).exec _ _)
  split
  · exact .of_ok ⟨s₁', rfl, hs₁.akin, by simp⟩
  · have hsolved := (solve_matched engine (p := p)
      (x := { x with solver := s₁ }) ⟨s₁', rfl, hs₁⟩).and_left fun _ y _ hrun =>
        show y = { x with solver := (s₁.solve engine.solver).2 } by cases hrun; rfl
    refine Matched.bind hsolved fun outcome y y' q hy => ?_
    obtain ⟨⟨-, hy'⟩, hmatch⟩ := hy
    split
    · exact .of_ok (hmatch.mono fun t t' ht => ⟨ht.akin, by simp⟩)
    · refine Matched.bind (Matched.require (Q := fun _ z z' => z = y ∧ z' = y') _ _ ⟨rfl, rfl⟩) fun _ z z' q hz => ?_
      obtain ⟨rfl, rfl⟩ := hz
      have hstanding : z.solver.standing.Undrawn := by
        rw [hy', (PathSolver.same_solve _ _).standing, hbeside.standing]
        exact hundrawn
      refine Matched.bind (solution_matched engine hmatch) fun found y y' q hy => .of_ok ?_
      exact hy.mono fun t t' ht => ⟨ht.1, fun _ => ⟨ht.2.1, ht.2.2 hstanding⟩⟩

end Explore

/-! ## Streams -/

section Streams

open Explore

variable {engine : Engine} {x x' : Exploration}

/-- How the streams with and without keeping constraints are related at a stage. -/
def InPace (engine : Engine) (x x' : Exploration) : StreamStage → Prop
  | .waiting => x.Matches (fun s s' => Akin s s' ∧ (s.levels = [] → s.Idle engine.kept.options) ∧
      s'.Unhampered engine.lax x.parserPath) x'
  | .walking w => w.ended = false ∧ Poised engine.kept.options w x.solver ∧ x.Matches Akin x'
  | .yielded w m n => w.ended = false ∧ (∃ last, w.Stacked last ∧
        Slack engine.kept.options w last (released engine.kept m x.solver)) ∧
      (engine.options.randomize = true → n = 1) ∧
      x.Matches (fun s s' => Akin s s' ∧ s'.answer = s.answer ∧ (engine.options.randomize = false →
        (released engine.lax m s').formulas =
          (released engine.kept m s).formulas)) x'
  | .ended => x.Matches (fun s s' => Akin s s' ∧ s.Idle engine.kept.options) x'

theorem begin_matched (h : InPace engine x x' .waiting) : Matched (fun stage y y' => InPace engine y y' stage)
      ((SolutionStream.begin engine.kept).exec x p)
      ((SolutionStream.begin engine.lax).exec x' p) := by
  obtain ⟨s', rfl, hs, hlevels, halone⟩ := h
  unfold SolutionStream.begin
  rw [exec_get_bind, exec_get_bind]
  refine Matched.lift_bind (PathSolver.start_both hs x.parserPath).results fun r r' hr => ?_
  obtain ⟨possible, t⟩ := r
  obtain ⟨possible', t'⟩ := r'
  obtain ⟨hstart, hstart', hsame, ht⟩ := hr
  have hidle := hlevels (PathSolver.start_ok hstart).1
  dsimp only at hsame ht ⊢
  subst hsame
  cases possible' with
  | false => exact .of_ok ⟨t', rfl, ht, hidle.start_false hstart⟩
  | true =>
    have hlayered := hidle.start_layered rfl hstart
    have hverdict : (t'.check engine.solver).isSat = (t.check engine.solver).isSat := by
      have hbase : t'.base = t.base := by
        obtain ⟨frames, answer, rfl⟩ := ht
        rfl
      have hformulas : t.formulas = t.base.constraints := by
        have hlevels : t.levels = [] := length_eq_zero_iff.mp hlayered.depth
        rw [hlayered.formulas, PathSolver.constraints, hlevels]
        simp
      change (engine.solver t'.formulas).isSat = (engine.solver t.formulas).isSat
      rw [show (engine.solver t'.formulas).isSat = _ from halone t' hstart', hbase, hformulas]
      rfl
    have hafter : Layered engine.kept.options []
        ((t.check engine.solver).refresh engine.kept.options) :=
      hlayered.same (PathSolver.same_check engine.solver t)
    have hakin : Akin ((t.check engine.solver).refresh engine.kept.options)
        ((t'.check engine.solver).refresh engine.lax.options) := by
      refine Akin.refresh ?_
      obtain ⟨frames, answer, rfl⟩ := ht
      exact ⟨_, _, rfl⟩
    change Matched _ ((if (t.check engine.solver).isSat then _ else _ : Explore _).exec
        { x with solver := (t.check engine.solver).refresh engine.kept.options } _)
      ((if (t'.check engine.solver).isSat then _ else _ : Explore _).exec
        { x with solver := (t'.check engine.solver).refresh engine.lax.options }
        { p with
          statistics.solverCalls := p.statistics.solverCalls + 1
          findings := .parser x.parserPath (t'.check engine.solver).isSat :: p.findings })
    rw [hverdict]
    split
    · unfold Walk.start
      rw [bind_assoc, bind_assoc, exec_order_bind, exec_order_bind]
      exact .of_ok ⟨rfl, ⟨[], Walk.Stacked.start _, hafter.depth, .inl hafter⟩, _, rfl, hakin⟩
    · exact .of_ok ⟨_, rfl, hakin, hafter.idle⟩

theorem step_matched (hdraws : engine.options.randomize = false ∨ engine.options.maxTestCasesPerPath = some 1)
    (h : InPace engine x x' stage) : Matched (fun r y y' => InPace engine y y' r.2)
    ((SolutionStream.step engine.kept stage).exec x p)
    ((SolutionStream.step engine.lax stage).exec x' p) := by
  have hinc : engine.kept.options.incremental = true := rfl
  cases stage with
  | waiting => exact Matched.bind (begin_matched h) fun stage y y' q hy => .of_ok hy
  | walking w =>
    obtain ⟨hended, hpoised, hx⟩ := h
    have hmove := (move_matched (p := p) hpoised hx).and_left fun r y q hrun =>
      (move_ok hrun : Moves engine.kept w x p r.1 r.2 y q)
    refine Matched.bind hmove fun r y y' q hy => ?_
    obtain ⟨model, w'⟩ := r
    obtain ⟨⟨_, hmoves⟩, hmatch⟩ := hy
    obtain ⟨hfinished, hgoes, hgives⟩ := hmoves.poised hinc hpoised hended
    have hakin : y.Matches Akin y' := hmatch.mono fun _ _ h => h.1
    cases model with
    | none =>
      refine .of_ok ?_
      cases hw : w'.ended with
      | true =>
        obtain ⟨t', rfl, ht⟩ := hakin
        exact ⟨t', rfl, ht, (hfinished hw).idle⟩
      | false => exact ⟨hw, hgoes hw, hakin⟩
    | some m =>
      have hstep : y.Matches InStep y' := hmatch.mono fun _ _ h => h.2 rfl
      dsimp only
      cases htest : m.outcome.givesTestCase m.path.complete with
      | true =>
        obtain ⟨hw, last, hstacked, hslack⟩ := hgives m rfl htest
        have hsolution := (solution_matched engine (m := m) (p := q) hstep).and_left
          fun _ _ _ hrun => (solution_ok hrun).2.2
        refine Matched.bind hsolution fun found z z' q' hz => .of_ok ?_
        obtain ⟨⟨-, ρ, fs, hsolves⟩, hz⟩ := hz
        refine ⟨hw, ⟨last, hstacked, hslack.beside hinc hsolves.beside⟩, fun _ => rfl, ?_⟩
        exact hz.mono fun _ _ h => ⟨h.1, h.2.1, fun hdraw => h.2.2 (hslack.undrawn hdraw)⟩
      | false =>
        exact .of_ok ⟨hmoves.of_some, hgoes hmoves.of_some, hakin⟩
  | yielded w m n =>
    obtain ⟨hended, ⟨last, hstacked, hslack⟩, hcount, hx⟩ := h
    change Matched _ ((if engine.options.maxTestCasesPerPath = some (n : Int) then _ else _ : Explore _).exec _ _)
      ((if engine.options.maxTestCasesPerPath = some (n : Int) then _ else _ : Explore _).exec _ _)
    split
    · rw [exec_release_bind, exec_release_bind]
      obtain ⟨s', rfl, hs, -⟩ := hx
      refine .of_ok ⟨hended, hslack.poised hstacked, _, rfl, ?_⟩
      exact released_akin hs m
    · rename_i hlimit
      -- with random draws there is one solution for a path
      have hdraw : engine.options.randomize = false := by
        cases hrandom : engine.options.randomize with
        | false => rfl
        | true =>
          rw [hcount hrandom] at hlimit
          exact absurd (hdraws.resolve_left (by rw [hrandom]; decide)) hlimit
      have hreleased : x.Matches (fun s s' => InStep (released engine.kept m s) (released engine.lax m s')) x' :=
        hx.mono fun s s' hs => ⟨released_akin hs.1 m, hs.2.2 hdraw, by
          rw [released_answer, released_answer, hs.2.1]⟩
      have hanother := (another_matched (p := p) hreleased (hslack.undrawn hdraw)).and_left
        fun _ _ _ hrun => (another_ok hrun).2.2
      refine Matched.bind hanother fun found y y' q hy => ?_
      obtain ⟨⟨-, hfurthers⟩, hmatch⟩ := hy
      have hbeside := hslack.beside hinc hfurthers.beside
      cases found with
      | none =>
        refine .of_ok ⟨hended, hbeside.poised hstacked, ?_⟩
        exact hmatch.mono fun _ _ h => h.1
      | some found =>
        refine .of_ok ⟨hended, ⟨last, hstacked, hbeside⟩, by simp [hdraw], ?_⟩
        exact hmatch.mono fun _ _ h => ⟨h.1, (h.2 rfl).1, fun _ => (h.2 rfl).2⟩
  | ended => exact .of_ok h

end Streams

end PacketSmith
