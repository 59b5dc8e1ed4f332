import PacketSmith.Proofs.Exploring

/-!
# The levels of a path solver along a stream

While a stream of solutions is walking, the levels of the path solver have come about along the last path that was
visited, and the frames belong to them if constraints are kept (`PathSolver.Solid`). A level with more or less than
its constraints is taken off before the next visit, since no path that waits goes through it. `Reaches.settled` puts
this together for every stage that a stream can be in.
-/

namespace PacketSmith

open List PathSolver SolutionStream Quiet

variable (solver : Solver)

/-! ## What single steps change -/

theorem require_bind_ok {m : Unit → Except Fault α} (h : (require b f >>= m) = .ok a) : m () = .ok a := by
  cases b with
  | false => cases h
  | true => exact h

namespace PathSolver

/-- Path solvers that differ in outcomes and answers only. -/
structure Same (s s' : PathSolver) : Prop where
  standing : s'.standing = s.standing
  fresh : s'.fresh = s.fresh
  frames : s'.frames = s.frames

/-- Path solvers that differ in outcomes, answers and what is on the innermost frame. Frames matter
only if constraints are kept. -/
structure Beside (o : Options) (s s' : PathSolver) : Prop where
  standing : s'.standing = s.standing
  fresh : s'.fresh = s.fresh
  frames : o.incremental = true → s'.frames.tail = s.frames.tail

structure Above (s s' : PathSolver) : Prop where
  standing : s'.standing.shortened = s.standing
  fresh : s'.fresh = s.fresh
  frames : s'.frames.tail = s.frames

variable {o : Options} {s s' s'' : PathSolver} {path last : ControlPath} {condition : Option String} {varied : Bool}
  {w : Walk Label ControlStep}

theorem Same.beside (h : Same s s') : Beside o s s' := ⟨h.standing, h.fresh, fun _ => by rw [h.frames]⟩

theorem Beside.refl (s : PathSolver) : Beside o s s := ⟨rfl, rfl, fun _ => rfl⟩

theorem Beside.trans (h : Beside o s s') (h' : Beside o s' s'') : Beside o s s'' :=
  ⟨h'.standing.trans h.standing, h'.fresh.trans h.fresh,
    fun hinc => (h'.frames hinc).trans (h.frames hinc)⟩

theorem Above.pop (h : Above s s') : Beside o s (s'.pop o) := by
  refine ⟨by rw [standing_pop, h.standing], h.fresh, fun hinc => ?_⟩
  rw [PathSolver.pop, if_pos hinc, h.frames]

theorem same_record (outcome : Outcome) (s : PathSolver) : Same s (s.record outcome) := by
  obtain ⟨frames, answer, base, levels, pathId, tally, fresh, packet⟩ := s
  match levels with
  | [] => exact ⟨rfl, rfl, rfl⟩
  | [_] => exact ⟨rfl, rfl, rfl⟩
  | _ :: _ :: _ => exact ⟨rfl, rfl, rfl⟩

theorem same_check (s : PathSolver) : Same s (s.check solver) := ⟨rfl, rfl, rfl⟩

theorem same_solve (s : PathSolver) : Same s (s.solve solver).2 :=
  have h := same_record (s.check solver).outcome (s.check solver)
  ⟨h.standing, h.fresh, h.frames⟩

theorem beside_assert (fs : List Formula) (s : PathSolver) : Beside o s (s.assert fs) := by
  refine ⟨rfl, rfl, fun _ => ?_⟩
  rw [assert]
  cases s.frames <;> rfl

theorem above_push (s : PathSolver) : Above s s.push := ⟨rfl, rfl, rfl⟩

theorem Above.assert (h : Above s s') (fs : List Formula) : Above s (s'.assert fs) := by
  refine ⟨h.standing, h.fresh, ?_⟩
  rw [← h.frames, PathSolver.assert]
  cases s'.frames <;> rfl

theorem Above.same (h : Above s s') (h' : Same s' s'') : Above s s'' :=
  ⟨by rw [h'.standing, h.standing], h'.fresh.trans h.fresh, by rw [h'.frames, h.frames]⟩

theorem above_fixed (s : PathSolver) (fs : List Formula) : Above s ((s.push.assert fs).solve solver).2 :=
  ((above_push s).assert fs).same (same_solve _ _)

theorem quick_ok {complete : Bool} {outcome : Outcome} (h : s.quick env path complete = .ok (some (outcome, s'))) :
    s.infers env path complete = .ok true ∧ outcome = .success ∧ s' = s.record .success := by
  obtain ⟨known, hknown, h⟩ := bind_eq_ok.mp h
  cases known <;> cases h
  exact ⟨hknown, rfl, rfl⟩

theorem varyLengths_ok (h : s.varyLengths condition = .ok (varied, s')) : s' = s ∨ ∃ f, s' = s.assert [f] := by
  replace h := require_bind_ok h
  split at h
  · cases h
    exact .inl rfl
  · split at h
    · cases h
      exact .inl rfl
    · split at h
      · split at h
        · cases h
          exact .inr ⟨_, rfl⟩
        · cases require_bind_ok h
          exact .inr ⟨_, rfl⟩
      · cases h

theorem varyLengths_beside (h : s.varyLengths condition = .ok (varied, s')) : Beside o s s' := by
  rcases varyLengths_ok h with rfl | ⟨f, rfl⟩
  · exact .refl s'
  · exact beside_assert _ s

/-! ## Going back -/

/-- A property of path solvers that have followed a path, which holds of the path without its last
edge once a level is left. -/
def Recedes (o : Options) (S : ControlPath → PathSolver → Prop) : Prop :=
  ∀ path s, path ≠ [] → S path s → S path.dropLast (s.pop o)

variable {S : ControlPath → PathSolver → Prop}

theorem Recedes.pops (hS : Recedes o S) (n : Nat) (h : S path s) (hn : n ≤ path.length) :
    S (path.take (path.length - n)) ((pop o)^[n] s) := by
  induction n generalizing path s with
  | zero => simpa using h
  | succ n ih =>
    have hne : path ≠ [] := length_pos_iff.mp (by omega)
    have hcut : path.dropLast.take (path.dropLast.length - n) = path.take (path.length - (n + 1)) := by
      rw [dropLast_eq_take, take_take, length_take]
      congr 1
      omega
    rw [← hcut]
    exact ih (hS path s hne h) (by simp; omega)

theorem Recedes.pops_below (hS : Recedes o S) (n : Nat) (h : S path.dropLast (s.pop o)) (hn : n < path.length) :
    S (path.take (path.length - (n + 1))) ((pop o)^[n + 1] s) := by
  have hpops := hS.pops n h (by simp; omega)
  rwa [dropLast_eq_take, take_take, length_take, min_eq_left (by omega),
    min_eq_left (by omega), Nat.sub_sub, Nat.add_comm 1] at hpops

/-- What holds along the last path of a walk, or below its last level if no path that waits goes
through that level. -/
def Along (o : Options) (S : ControlPath → PathSolver → Prop) (last : ControlPath)
    (w : Walk Label ControlStep) (s : PathSolver) : Prop :=
  S last s ∨ last ≠ [] ∧ S last.dropLast (s.pop o) ∧ ∀ path ∈ w.pending, path.length ≤ last.length

/-- Once the visits are undone that come before the next path, the property holds along that path
without its last edge. -/
theorem Recedes.next (hS : Recedes o S) (hw : w.Stacked last) (h : Along o S last w s)
    (hp : w.pending = path :: rest) : S path.dropLast ((pop o)^[w.depth + 1 - path.length] s) := by
  have hmem : path ∈ w.pending := hp ▸ mem_cons_self
  have hpos : 0 < path.length := length_pos_iff.mpr (hw.branches path hmem).1
  have hdepth := hw.depth
  rw [← hw.take_eq hp]
  rcases h with hall | ⟨-, hbelow, hshort⟩
  · exact hS.pops _ hall (by omega)
  · have hlength := hshort path hmem
    have hpops := hS.pops_below (last.length - path.length) hbelow (by omega)
    rwa [show last.length - path.length + 1 = w.depth + 1 - path.length by omega] at hpops

theorem Recedes.root (hS : Recedes o S) (hw : w.Stacked last) (h : Along o S last w s) :
    S [] ((pop o)^[w.depth] s) := by
  rcases h with hall | ⟨hne, hbelow, -⟩
  · have hpops := hS.pops _ hall hw.depth.le
    rwa [hw.depth, Nat.sub_self, ← hw.depth] at hpops
  · have hpos := length_pos_iff.mpr hne
    have hpops := hS.pops_below (last.length - 1) hbelow (by omega)
    rwa [Nat.sub_add_cancel hpos, Nat.sub_self, ← hw.depth] at hpops

/-! ## Solid levels -/

/-- The levels have come about along a path, and the frames belong to them if constraints are
kept. -/
structure Solid (env : Setting) (parser : ParserPath) (path : ControlPath) (s : PathSolver) : Prop where
  trail : Trail env parser path s.standing s.fresh
  layers : env.options.incremental = true → s.standing.Layers s.frames

namespace Solid

variable {parser : ParserPath} {path : ControlPath}

theorem same (h : Solid env parser path s) (h' : Same s s') : Solid env parser path s' :=
  ⟨by rw [h'.standing, h'.fresh]; exact h.trail, by rw [h'.standing, h'.frames]; exact h.layers⟩

theorem length_levels (h : Solid env parser path s) : s.levels.length = path.length := by
  have hlength := h.trail.length_levels
  rwa [standing, length_map] at hlength

theorem pop (h : Solid env parser path s) (hne : path ≠ []) : Solid env parser path.dropLast (s.pop env.options) := by
  refine ⟨by rw [standing_pop]; exact h.trail.pop, fun hinc => ?_⟩
  have hlevels : s.standing.levels ≠ [] := by
    rw [← length_pos_iff, h.trail.length_levels]
    exact length_pos_iff.mpr hne
  rw [standing_pop, PathSolver.pop, if_pos hinc]
  exact (h.layers hinc).shortened hlevels

theorem recedes : Recedes env.options (Solid env parser) :=
  fun _ _ hne h => h.pop hne

theorem pop_beside (h : Solid env parser path (s.pop env.options))
    (h' : Beside env.options s s') : Solid env parser path (s'.pop env.options) := by
  refine ⟨?_, fun hinc => ?_⟩
  · rw [standing_pop, h'.standing, ← standing_pop env.options, show (s'.pop env.options).fresh = _ from h'.fresh]
    exact h.trail
  · have hlayers := h.layers hinc
    rw [standing_pop, PathSolver.pop, if_pos hinc] at hlayers ⊢
    rw [h'.standing, h'.frames hinc]
    exact hlayers

theorem pop_above (h : Solid env parser path s) (h' : Above s s') : Solid env parser path (s'.pop env.options) := by
  refine ⟨?_, fun hinc => ?_⟩
  · rw [standing_pop, h'.standing, show (s'.pop env.options).fresh = _ from h'.fresh]
    exact h.trail
  · rw [standing_pop, h'.standing, PathSolver.pop, if_pos hinc, h'.frames]
    exact h.layers hinc

theorem counted (h : Solid env parser path s) (hn : s.fresh ≤ n) : Solid env parser path { s with fresh := n } :=
  ⟨h.trail.mono hn, h.layers⟩

theorem extend (h : Solid env parser path s)
    (hextend : (s.push.refresh env.options).extend env (path ++ [e]) = .ok s') :
    Solid env parser (path ++ [e]) s' ∧ s'.formulas = s'.constraints.flatten := by
  obtain ⟨added, t, hrun, rfl⟩ := extend_refresh_ok h.length_levels hextend
  have hsolid : Solid env parser (path ++ [e]) (s.followed (if env.options.incremental then
      added :: s.frames else [s.constraints.flatten ++ added]) added t) := by
    refine ⟨.edge h.trail hrun le_rfl, fun hinc => ?_⟩
    rw [if_pos hinc]
    exact (h.layers hinc).extended added t
  refine ⟨hsolid, ?_⟩
  refine Eq.trans ?_ (congrArg List.flatten (standing_constraints _))
  by_cases hinc : env.options.incremental = true
  · exact (hsolid.layers hinc).flatten
  · rw [standing_followed, Standing.constraints_extended, standing_constraints]
    simp [formulas, followed, hinc]

end Solid

end PathSolver

/-! ## Walks -/

/-- There may be more on the last level than its constraints, and no path that waits goes through
it. -/
structure Loose (env : Setting) (parser : ParserPath) (last : ControlPath) (w : Walk Label ControlStep)
    (s : PathSolver) : Prop where
  ne : last ≠ []
  solid : Solid env parser last.dropLast (s.pop env.options)
  short : ∀ path ∈ w.pending, path.length ≤ last.length

def Ready (env : Setting) (parser : ParserPath) (w : Walk Label ControlStep) (s : PathSolver) : Prop :=
  ∃ last, w.Stacked last ∧ (Solid env parser last s ∨ Loose env parser last w s)

section Ready

variable {parser : ParserPath}

theorem Loose.beside (h : Loose env parser last w s) (h' : Beside env.options s s') : Loose env parser last w s' :=
  ⟨h.ne, h.solid.pop_beside h', h.short⟩

theorem Loose.counted (h : Loose env parser last w s) (hn : s.fresh ≤ n) :
    Loose env parser last w { s with fresh := n } :=
  ⟨h.ne, h.solid.counted (n := n) hn, h.short⟩

theorem Ready.counted (h : Ready env parser w s) (hn : s.fresh ≤ n) : Ready env parser w { s with fresh := n } := by
  obtain ⟨last, hstacked, hsolid | hloose⟩ := h
  · exact ⟨last, hstacked, .inl (hsolid.counted hn)⟩
  · exact ⟨last, hstacked, .inr (hloose.counted hn)⟩

theorem Ready.along (h : Ready env parser w s) :
    ∃ last, w.Stacked last ∧ PathSolver.Along env.options (Solid env parser) last w s := by
  obtain ⟨last, hstacked, hsolid | hloose⟩ := h
  · exact ⟨last, hstacked, .inl hsolid⟩
  · exact ⟨last, hstacked, .inr ⟨hloose.ne, hloose.solid, hloose.short⟩⟩

theorem Ready.next (h : Ready env parser w s) (hp : w.pending = path :: rest) :
    Solid env parser path.dropLast ((pop env.options)^[w.depth + 1 - path.length] s) := by
  obtain ⟨last, hstacked, halong⟩ := h.along
  exact Solid.recedes.next hstacked halong hp

theorem Ready.root (h : Ready env parser w s) : Solid env parser [] ((pop env.options)^[w.depth] s) := by
  obtain ⟨last, hstacked, halong⟩ := h.along
  exact Solid.recedes.root hstacked halong

end Ready

namespace Explore

variable {engine : Engine} {w w' : Walk Label ControlStep} {x x' : Exploration}
  {path : ControlPath} {complete : Bool}

variable {outcome : Outcome} {m : PathModel} {parser : ParserPath} {s s' : PathSolver}

theorem Judged.same (h : Judged engine parser path complete s outcome model s') : Same s s' := by
  cases h with
  | quick known =>
    obtain ⟨-, -, rfl⟩ := quick_ok known
    exact same_record _ s
  | solved => exact same_solve _ s

theorem Judged.of_some (h : Judged engine parser path complete s outcome (some m) s') :
    m.outcome = outcome ∧ m.path.complete = complete := by
  cases h with
  | solved => exact ⟨rfl, rfl⟩

theorem cover_solver (graph : Graph Label ControlStep) (path : ControlPath) (complete : Bool) (outcome : Outcome)
    (x : Exploration) : (cover graph path complete outcome x).solver = x.solver ∧
    (cover graph path complete outcome x).parserPath = x.parserPath := by
  unfold cover
  split <;> exact ⟨rfl, rfl⟩

theorem Visited.solid (h : Visited engine (front ++ [e]) complete { x with solver := s.push } p outcome model x' p')
    (hs : Solid engine.setting x.parserPath front s) :
    Solid engine.setting x.parserPath (front ++ [e]) x'.solver := by
  obtain ⟨s', hextend, hjudged⟩ := h.judged
  exact (hs.extend hextend).1.same hjudged.same

theorem walked_stacked (engine : Engine) (hw : w.Stacked last) (hp : w.pending = path :: rest) (v : Verdict)
    (x : Exploration) : (walked engine path rest v x).Stacked path := by
  refine hw.follows hp ?_
  unfold walked
  split
  · exact .extended _
  · exact .passed

theorem Visits.levels (hne : path ≠ []) (h : Visits engine path complete { x with solver := s } p v model x' p')
    (hs : Solid engine.setting x.parserPath path.dropLast s) :
    x'.parserPath = x.parserPath ∧
      Solid engine.setting x.parserPath path.dropLast (x'.solver.pop engine.options) ∧
      (Solid engine.setting x.parserPath path x'.solver ∨ v = .retreat ∧ model = none) := by
  cases h with
  | passed coverage nothing => exact ⟨rfl, hs.pop_above (above_push s), .inr ⟨rfl, rfl⟩⟩
  | @examined outcome v model y p' new visited answered =>
    obtain ⟨front, e, rfl⟩ := eq_nil_or_concat' path |>.resolve_left hne
    rw [dropLast_concat] at hs ⊢
    have hsolid : Solid engine.setting x.parserPath (front ++ [e]) y.solver := visited.solid hs
    have hparser : y.parserPath = x.parserPath := by rw [visited.rest]
    have hpop := hsolid.pop (by simp)
    rw [dropLast_concat] at hpop
    split
    · obtain ⟨hsolver, hsame⟩ := cover_solver engine.graph (front ++ [e]) complete outcome y
      rw [hsolver, hsame]
      exact ⟨hparser, hpop, .inl hsolid⟩
    · exact ⟨hparser, hpop, .inl hsolid⟩

theorem Visits.givesTestCase (h : Visits engine path complete x p v (some m) x' p')
    (hm : m.outcome.givesTestCase m.path.complete = true) : ¬ (v = .proceed ∧ complete = false) := by
  cases h with
  | examined new visited answered =>
    obtain ⟨s, -, hjudged⟩ := visited.judged
    obtain ⟨houtcome, hcomplete⟩ := hjudged.of_some
    rintro ⟨hv, rfl⟩
    rw [houtcome, answered.success hv, hcomplete] at hm
    cases hm

theorem Moves.ready (h : Moves engine w x p model w' x' p')
    (hw : Ready engine.setting x.parserPath w x.solver) (hended : w.ended = false) :
    x'.parserPath = x.parserPath ∧ (w'.ended = true → Solid engine.setting x.parserPath [] x'.solver) ∧
      (w'.ended = false → Ready engine.setting x.parserPath w' x'.solver) ∧
      (∀ m, model = some m → m.outcome.givesTestCase m.path.complete = true → w'.ended = false ∧
      ∃ last, w'.Stacked last ∧ Loose engine.setting x.parserPath last w' x'.solver) := by
  cases h with
  | stayed pending ended => simp [hended] at ended
  | finished pending ended =>
    exact ⟨rfl, fun _ => hw.root, by simp, by simp⟩
  | @visited path rest v model x' p' pending visits =>
    have hnext := hw.next pending
    obtain ⟨last, hstacked, -⟩ := hw
    have hne := hstacked.top_ne pending
    have hstacked' := walked_stacked engine hstacked pending v x'
    have hrest : ∀ q ∈ rest, q.length ≤ path.length :=
      (pairwise_cons.mp (pending ▸ hstacked.descends)).1
    obtain ⟨hparser, hbelow, hlevels⟩ := visits.levels hne hnext
    have hloose (hstays : ¬ (v = .proceed ∧ isComplete path = false)) :
        Loose engine.setting x.parserPath path (walked engine path rest v x') x'.solver := by
      refine ⟨hne, hbelow, ?_⟩
      rw [walked, if_neg hstays]
      exact hrest
    refine ⟨hparser, by simp [walked], fun _ => ⟨path, hstacked', ?_⟩, fun m hm htest => ?_⟩
    · rcases hlevels with hsolid | ⟨rfl, -⟩
      · exact .inl hsolid
      · exact .inr (hloose (by simp))
    · subst hm
      exact ⟨rfl, path, hstacked', hloose (visits.givesTestCase htest)⟩

theorem Moves.noted (h : Moves engine w x p model w' x' p') : Noted x.parserPath p p' := by
  cases h with
  | stayed | finished => exact (refl p).noted
  | visited pending visits =>
    cases visits with
    | passed => exact (refl p).noted
    | examined new visited => exact visited.noted rfl

/-! ## Solutions -/

theorem exec_solve (engine : Engine) (x : Exploration) (p : Progress) :
    (solve engine).exec x p = .ok (((x.solver.solve engine.solver).1,
      { x with solver := (x.solver.solve engine.solver).2 }),
      { p with statistics.solverCalls := p.statistics.solverCalls + 1 }) := rfl

theorem exec_fixRandom (engine : Engine) (x : Exploration) (p : Progress) : (fixRandom engine).exec x p =
      let s := x.solver.push
      if s.isSat then
        let n := s.packet.displacements.length + s.context.displacements.length
        let fixed := s.randomConstraints fun i => engine.draw (p.drawn + i)
        let s := ((s.assert fixed).solve engine.solver).2
        if s.isSat then .ok ((fixed, { x with solver := s }), { p with
          drawn := p.drawn + n
          statistics.solverCalls := p.statistics.solverCalls + 1 })
        else .error .violated
      else .ok (([], { x with solver := x.solver.push }), p) := by
  unfold fixRandom
  rw [exec_update_bind, exec_get_bind]
  dsimp only
  cases x.solver.push.isSat with
  | false => rfl
  | true =>
    change ((require _ : Explore Unit) >>= fun _ => _).exec _ _ = _
    generalize x.solver.push.randomConstraints _ = fixed
    change ((require (((x.solver.push.assert fixed).solve engine.solver).2.isSat) : Explore Unit) >>=
      fun _ => _).exec _ _ = _
    cases ((x.solver.push.assert fixed).solve engine.solver).2.isSat <;> rfl

theorem answer_solve (s : PathSolver) : (s.solve solver).2.answer = some (solver s.formulas) := by
  rw [PathSolver.solve, PathSolver.record]
  split <;> rfl

theorem sat_of_model {answer : Answer} (h : answer.model? = some ρ) : answer = .sat ρ := by
  cases answer with
  | sat ρ' => exact congrArg Answer.sat (Option.some.inj h)
  | unsat | unknown => cases h

/-- What a solution makes of the path solver, with the equations for its draws and the assignment that it is read
off from. -/
inductive Solves (engine : Engine) (m : PathModel) (s : PathSolver) (ρ : Assignment) :
    List Formula → PathSolver → Prop where
  | short (short : m.path.complete = false) (model : s.model? = some ρ) : Solves engine m s ρ [] s
  | drawn (complete : m.path.complete = true) (draw : Nat → Nat)
    (sat : engine.solver (s.formulas ++ s.randomConstraints draw) = .sat ρ) :
    Solves engine m s ρ (s.randomConstraints draw)
      ((s.push.assert (s.randomConstraints draw)).solve engine.solver).2

theorem Solves.beside (h : Solves engine m s ρ fs s') : Beside engine.options s (released engine m s') := by
  unfold released
  cases h with
  | short short =>
    rw [if_neg (by simp [short])]
    exact .refl s
  | drawn complete draw =>
    rw [if_pos complete]
    exact (above_fixed _ s _).pop

theorem solution_ok (h : (solution engine m).exec x p = .ok ((found, x'), p')) :
    x' = { x with solver := x'.solver } ∧ Quiet p p' ∧ ∃ ρ fs, Solves engine m x.solver ρ fs x'.solver := by
  obtain ⟨fixed, y, q, hfix, h⟩ := exec_bind_ok.1 h
  rw [exec_get_bind] at h
  dsimp only at h
  split at h
  · rename_i ρ hmodel
    cases h
    unfold fixDraws at hfix
    split at hfix
    · rename_i hcomplete
      rw [exec_fixRandom] at hfix
      dsimp only at hfix
      split at hfix
      · split at hfix
        · cases hfix
          rw [model?, answer_solve, formulas_assert, formulas_push] at hmodel
          exact ⟨rfl, ⟨rfl, rfl, rfl⟩, ρ, _, .drawn hcomplete _ (sat_of_model hmodel)⟩
        · cases hfix
      · rename_i hunsat
        cases hfix
        obtain ⟨answer, hanswer, hmodel⟩ := Option.bind_eq_some_iff.mp hmodel
        refine absurd ?_ hunsat
        rw [isSat, hanswer, sat_of_model hmodel]
        rfl
    · rename_i hcomplete
      cases hfix
      exact ⟨rfl, .refl _, ρ, [], .short (Bool.eq_false_of_not_eq_true hcomplete) hmodel⟩
  · cases h

/-- What comes of it when another solution is asked for. -/
inductive Furthers (engine : Engine) (m : PathModel) (s : PathSolver) : Bool → PathSolver → Prop where
  | unwanted {t : PathSolver} (vary : s.varyLengths engine.options.variation = .ok (false, t))
    (wants : wantsMore engine = false) : Furthers engine m s false t
  | refuted {t : PathSolver} {varied : Bool} (vary : s.varyLengths engine.options.variation = .ok (varied, t))
    (wants : varied = true ∨ wantsMore engine = true) (unsat : (t.solve engine.solver).1 = .noPacketFound) :
    Furthers engine m s false (t.solve engine.solver).2
  | solves {t u : PathSolver} {varied : Bool} {ρ : Assignment} {fs : List Formula}
    (vary : s.varyLengths engine.options.variation = .ok (varied, t))
    (wants : varied = true ∨ wantsMore engine = true) (sat : (t.solve engine.solver).1 ≠ .noPacketFound)
    (solves : Solves engine m (t.solve engine.solver).2 ρ fs u) : Furthers engine m s true u

theorem Furthers.beside (h : Furthers engine m s again s') :
    Beside engine.options s (if again then released engine m s' else s') := by
  cases h with
  | unwanted vary => exact varyLengths_beside vary
  | refuted vary =>
    exact (varyLengths_beside vary).trans (same_solve engine.solver _).beside
  | solves vary _ _ solves =>
    have hvaried := varyLengths_beside (o := engine.options) vary
    exact (hvaried.trans (same_solve engine.solver _).beside).trans solves.beside

theorem another_ok (h : (another engine m).exec x p = .ok ((found, x'), p')) :
    x' = { x with solver := x'.solver } ∧ Quiet p p' ∧
      Furthers engine m (released engine m x.solver) found.isSome x'.solver := by
  obtain ⟨_, y, q, hrelease, h⟩ := exec_bind_ok.1 h
  rw [exec_release] at hrelease
  cases hrelease
  rw [exec_get_bind] at h
  obtain ⟨⟨varied, s⟩, hvary, h⟩ := exec_lift_bind_ok h
  rw [exec_update_bind] at h
  split at h
  · rename_i hnothing
    cases h
    obtain ⟨hvaried, hwants⟩ : varied = false ∧ wantsMore engine = false := by simpa using hnothing
    exact ⟨rfl, .refl _, .unwanted (hvaried ▸ hvary) hwants⟩
  · have hwants : varied = true ∨ wantsMore engine = true := by
      cases varied <;> simp_all
    obtain ⟨outcome, y, q, hsolve, h⟩ := exec_bind_ok.1 h
    cases hsolve
    split at h
    · rename_i hunsat
      cases h
      exact ⟨rfl, ⟨rfl, rfl, rfl⟩, .refuted hvary hwants (beq_iff_eq.mp hunsat)⟩
    · rename_i hsat
      obtain ⟨_, y, q', hrequire, hnext⟩ := exec_bind_ok.1 h
      obtain ⟨-, rfl, rfl⟩ := require_ok hrequire
      obtain ⟨found, y, q', hsolution, hpure⟩ := exec_bind_ok.1 hnext
      cases hpure
      obtain ⟨hx, hq, ρ, fs, hsolves⟩ := solution_ok hsolution
      exact ⟨hx, ⟨hq.cases, hq.findings, hq.results⟩, .solves hvary hwants (fun h => hsat (beq_iff_eq.mpr h)) hsolves⟩

end Explore

/-! ## Streams -/

/-- Nothing is asserted below the innermost frame, and there are no levels but that of the parser
path. -/
structure PathSolver.Idle (o : Options) (s : PathSolver) : Prop where
  levels : s.levels = []
  below : o.incremental = true → s.frames.tail.flatten = []

section Streams

open Explore

variable {engine : Engine} {x x' : Exploration} {p p' : Progress} {parser path : ParserPath}
  {s s' : PathSolver} {stage' : StreamStage} {n : Nat} {t u : SolutionStream}

theorem PathSolver.idle_new (o : Options) : ({} : PathSolver).Idle o := ⟨rfl, fun _ => rfl⟩

theorem PathSolver.Solid.idle (h : Solid env parser [] s) : s.Idle env.options := by
  refine ⟨length_eq_zero_iff.mp h.length_levels, fun hinc => ?_⟩
  obtain ⟨low, hlow, hframes⟩ := h.layers hinc
  have hlevels : s.standing.levels = [] := length_eq_zero_iff.mp h.trail.length_levels
  rw [hframes, hlevels]
  exact hlow

def Settled (engine : Engine) (x : Exploration) : StreamStage → Prop
  | .waiting => x.solver.Idle engine.options
  | .walking w => w.ended = false ∧ Ready engine.setting x.parserPath w x.solver
  | .yielded w m _ => w.ended = false ∧ ∃ last, w.Stacked last ∧
      Loose engine.setting x.parserPath last w (released engine m x.solver)
  | .ended => x.solver.Idle engine.options

theorem PathSolver.Idle.renew (h : s.Idle o) : (s.renew o).Idle o := by
  refine ⟨h.levels, fun hinc => ?_⟩
  rw [PathSolver.renew, if_pos hinc]
  exact h.below hinc

theorem PathSolver.Idle.start (h : s.Idle env.options) (hstart : s.start env parser = .ok (true, s')) :
    Solid env parser [] s' := by
  obtain ⟨-, ctx, t, hctx, ⟨hfalse, -⟩ | ⟨fs, -, rfl, hrun⟩⟩ := start_ok hstart
  · cases hfalse
  · refine ⟨?_, fun hinc => ?_⟩
    · rw [standing_begun _ _ _ _ h.levels]
      exact .start hctx hrun le_rfl
    · rw [standing_begun _ _ _ _ h.levels]
      refine ⟨s.frames.tail, h.below hinc, ?_⟩
      simp [begun, PathSolver.renew, PathSolver.assert, hinc]

theorem PathSolver.Idle.start_false (h : s.Idle env.options) (hstart : s.start env parser = .ok (false, s')) :
    s'.Idle env.options := by
  obtain ⟨-, ctx, t, hctx, ⟨-, rfl, -⟩ | ⟨fs, htrue, -⟩⟩ := start_ok hstart
  · exact ⟨h.renew.levels, h.renew.below⟩
  · cases htrue

theorem PathSolver.Solid.refresh {path : ControlPath} (h : Solid env parser path s) :
    Solid env parser path (s.refresh env.options) := by
  unfold PathSolver.refresh
  split
  · exact h
  · exact ⟨h.trail, fun hinc => absurd hinc ‹_›⟩

variable {stage next : StreamStage} {found : Option Solution}

theorem Begins.settled (h : Begins engine x p stage x' p') (hx : x.solver.Idle engine.options) :
    x'.parserPath = x.parserPath ∧ Settled engine x' stage := by
  have hcheck (s : PathSolver) (hs : Solid engine.setting x.parserPath [] s) :
      Solid engine.setting x.parserPath [] ((s.check engine.solver).refresh engine.options) :=
    (hs.same (same_check engine.solver s)).refresh
  cases h with
  | impossible start => exact ⟨rfl, hx.start_false start⟩
  | refuted start => exact ⟨rfl, (hcheck _ (hx.start start)).idle⟩
  | started start => exact ⟨rfl, rfl, [], Walk.Stacked.start _, .inl (hcheck _ (hx.start start))⟩

theorem Steps.settled (h : Steps engine x p stage found stage' x' p')
    (hx : Settled engine x stage) : x'.parserPath = x.parserPath ∧ Settled engine x' stage' := by
  cases h with
  | begins begins => exact begins.settled hx
  | @moves w w' model _ _ moves nothing =>
    obtain ⟨hparser, hended, hready, -⟩ := moves.ready hx.2 hx.1
    refine ⟨hparser, ?_⟩
    cases hw : w'.ended with
    | true => exact (hended hw).idle
    | false =>
      refine ⟨hw, ?_⟩
      rw [hparser]
      exact hready hw
  | solves moves gives solution =>
    obtain ⟨hparser, -, -, hgives⟩ := moves.ready hx.2 hx.1
    obtain ⟨hended, last, hstacked, hloose⟩ := hgives _ rfl gives
    obtain ⟨hy, -, ρ, fs, hsolves⟩ := solution_ok solution
    have hparser' : x'.parserPath = x.parserPath := by rw [hy, hparser]
    refine ⟨hparser', hended, last, hstacked, ?_⟩
    rw [hparser']
    exact hloose.beside hsolves.beside
  | leaves limit =>
    obtain ⟨hended, last, hstacked, hloose⟩ := hx
    exact ⟨rfl, hended, last, hstacked, .inr hloose⟩
  | @continues w m n found x' p' limit another =>
    obtain ⟨hended, last, hstacked, hloose⟩ := hx
    obtain ⟨hy, -, hfurthers⟩ := another_ok another
    have hbeside := hfurthers.beside
    have hparser : x'.parserPath = x.parserPath := by rw [hy]
    refine ⟨hparser, ?_⟩
    cases found with
    | none =>
      refine ⟨hended, last, hstacked, .inr ?_⟩
      rw [hparser]
      exact hloose.beside hbeside
    | some found =>
      refine ⟨hended, last, hstacked, ?_⟩
      rw [hparser]
      exact hloose.beside hbeside
  | rests => exact ⟨rfl, hx⟩

theorem released_counted (m : PathModel) (s : PathSolver) (n : Nat) :
    released engine m { s with fresh := n } = { released engine m s with fresh := n } := by
  unfold released
  split <;> rfl

theorem fresh_released (m : PathModel) (s : PathSolver) : (released engine m s).fresh = s.fresh := by
  unfold released
  split <;> rfl

theorem Settled.counted (h : Settled engine x stage) (hn : x.solver.fresh ≤ n) :
    Settled engine { x with solver.fresh := n } stage := by
  cases stage with
  | waiting => exact ⟨h.levels, h.below⟩
  | walking w => exact ⟨h.1, h.2.counted hn⟩
  | yielded w m k =>
    obtain ⟨hended, last, hstacked, hloose⟩ := h
    refine ⟨hended, last, hstacked, ?_⟩
    rw [released_counted]
    exact hloose.counted (by rwa [fresh_released])
  | ended => exact ⟨h.levels, h.below⟩

/-- The stages that a stream can be in, with what it has found out. Between two steps other streams
may have their turn, so the progress may be any, and variables may have been numbered. -/
inductive Reaches (engine : Engine) (path : ParserPath) (s : PathSolver) :
    StreamStage → Exploration → List Finding → Prop where
  | start : Reaches engine path s .waiting { solver := s, parserPath := path } []
  | step {stage stage' : StreamStage} {x x' : Exploration} {p p' : Progress} {found new : List Finding}
    {solution : Option Solution} (before : Reaches engine path s stage x found)
    (run : (step engine stage).exec x p = .ok (((solution, stage'), x'), p'))
    (finds : p'.findings = new ++ p.findings) : Reaches engine path s stage' x' (new ++ found)
  | counts {stage : StreamStage} {x : Exploration} {found : List Finding} {n : Nat}
    (before : Reaches engine path s stage x found) (begun : stage ≠ .waiting) (later : x.solver.fresh ≤ n) :
    Reaches engine path s stage { x with solver.fresh := n } found

/-- The path solvers that a stream can start with: new ones, and those of streams that have
ended. -/
inductive HandedOn (engine : Engine) : PathSolver → Prop where
  /-- A new path solver, with the number of the last variable. -/
  | new {n : Nat} : HandedOn engine { fresh := n }
  | after {s : PathSolver} {path : ParserPath} {x : Exploration} {found : List Finding}
    (before : HandedOn engine s) (stream : Reaches engine path s .ended x found) :
    HandedOn engine x.solver

theorem Reaches.settled {found : List Finding} (hs : s.Idle engine.options)
    (h : Reaches engine path s stage x found) : x.parserPath = path ∧ Settled engine x stage := by
  induction h with
  | start => exact ⟨rfl, hs⟩
  | step before run finds ih =>
    obtain ⟨hparser, hsettled⟩ := (step_ok run).settled ih.2
    exact ⟨hparser.trans ih.1, hsettled⟩
  | counts before begun later ih => exact ⟨ih.1, ih.2.counted later⟩

theorem HandedOn.idle (h : HandedOn engine s) : s.Idle engine.options := by
  induction h with
  | new => exact ⟨rfl, fun _ => rfl⟩
  | after before stream ih => exact (stream.settled ih).2

/-! ## Runs -/

inductive Advances (engine : Engine) : Exploration → Progress → StreamStage → Option Solution → StreamStage →
    Exploration → Progress → Prop where
  | last {x x' : Exploration} {p p' : Progress} {stage next : StreamStage} {found : Option Solution}
    (step : Steps engine x p stage found next x' p') : Advances engine x p stage found next x' p'
  | more {x y x' : Exploration} {p q p' : Progress} {stage middle next : StreamStage} {found : Option Solution}
    (step : Steps engine x p stage none middle y q) (rest : Advances engine y q middle found next x' p') :
    Advances engine x p stage found next x' p'

theorem advance_ok (h : (advance engine (fuel + 1) stage).exec x p = .ok (((found, next), x'), p')) :
    Advances engine x p stage found next x' p' := by
  induction fuel generalizing stage x p with
  | zero =>
    obtain ⟨⟨now, middle⟩, y, q, hfirst, h⟩ := exec_bind_ok.1 h
    have hstep := step_ok hfirst
    cases now with
    | some s =>
      cases h
      exact .last hstep
    | none => cases middle <;> cases h <;> exact .last hstep
  | succ fuel ih =>
    obtain ⟨⟨now, middle⟩, y, q, hfirst, h⟩ := exec_bind_ok.1 h
    have hstep := step_ok hfirst
    cases now with
    | some s =>
      cases h
      exact .last hstep
    | none =>
      cases middle with
      | ended =>
        cases h
        exact .last hstep
      | waiting | walking w | yielded w m n => exact .more hstep (ih h)

theorem SolutionStream.next_ok (h : (t.next engine).run p = .ok ((found, u), p')) :
    (advance engine (stepLimit engine) t.stage).exec t.exploration p =
      .ok (((found, u.stage), u.exploration), p') := by
  obtain ⟨⟨⟨⟨found, stage⟩, x⟩, q⟩, hadvance, hpure⟩ := bind_eq_ok.mp h
  cases hpure
  exact hadvance

theorem SolutionStream.advances_of_next (h : (t.next engine).run p = .ok ((found, u), p')) :
    Advances engine t.exploration p t.stage found u.stage u.exploration p' :=
  advance_ok (next_ok h)

/-- A stream together with what was counted and recorded. -/
structure StreamState where
  stage : StreamStage := .waiting
  /-- What belongs to the parser path. -/
  exploration : Exploration
  progress : Progress := {}

def StreamState.after (engine : Engine) : Nat → StreamState → Except Fault StreamState
  | 0, t => .ok t
  | n + 1, t => do
    let (((_, stage), x), p) ← (step engine t.stage).exec t.exploration t.progress
    StreamState.after engine n ⟨stage, x, p⟩

theorem Steps.noted {solution : Option Solution} (h : Steps engine x p stage solution stage' x' p') :
    Noted x.parserPath p p' := by
  cases h with
  | begins begins =>
    cases begins with
    | impossible start found noted | refuted start unsat found noted | started start sat found noted => exact noted
  | moves moves => exact moves.noted
  | solves moves gives solution => exact moves.noted.trans (solution_ok solution).2.1.noted
  | leaves => exact (refl p).noted
  | continues limit another => exact (another_ok another).2.1.noted
  | rests => exact (refl p).noted

theorem Reaches.after {t t' : StreamState} {found : List Finding}
    (h : Reaches engine path s t.stage t.exploration found) (hrun : t.after engine n = .ok t') :
    ∃ new, Reaches engine path s t'.stage t'.exploration (new ++ found) ∧
      t'.progress.findings = new ++ t.progress.findings := by
  induction n generalizing t found with
  | zero =>
    cases hrun
    exact ⟨[], h, rfl⟩
  | succ n ih =>
    rw [StreamState.after] at hrun
    cases hstep : (SolutionStream.step engine t.stage).exec t.exploration t.progress with
    | error f =>
      rw [hstep] at hrun
      cases hrun
    | ok r =>
      obtain ⟨⟨⟨solution, stage⟩, y⟩, q⟩ := r
      rw [hstep] at hrun
      obtain ⟨-, new, hnew, -⟩ := (step_ok hstep).noted
      obtain ⟨later, hreaches, hlater⟩ := ih (t := ⟨stage, y, q⟩) (.step h hstep hnew) hrun
      refine ⟨later ++ new, ?_, ?_⟩
      · rwa [append_assoc]
      · rw [hlater, append_assoc]
        exact congrArg _ hnew

end Streams

end PacketSmith
