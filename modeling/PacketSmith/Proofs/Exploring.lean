import PacketSmith.Generate
import PacketSmith.Proofs.Replay

/-!
# What a stream of solutions does

Each step of an exploration is described once, by what it makes of the path solver and of the records:
`Explore.Visits` is what a visit can do, `Explore.Moves` what comes of it for the walk, and `Steps` what one step of a
stream of solutions can do. A stream writes no test case itself, and what it reports follows from what it finds out
(`Noted`).
-/

namespace PacketSmith

open List PathSolver SolutionStream Finding Walk Edge

variable {α β : Type}

/-! ## Runs -/

def Explore.exec (m : Explore α) (x : Exploration) (p : Progress) :
    Except Fault ((α × Exploration) × Progress) := (m.run x).run p

theorem PathSolver.formulas_assert (s : PathSolver) (fs : List Formula) :
    (s.assert fs).formulas = s.formulas ++ fs := by
  unfold assert formulas
  cases s.frames <;> simp

@[simp] theorem PathSolver.formulas_push (s : PathSolver) : s.push.formulas = s.formulas := by
  simp [formulas, push]

namespace Explore

variable {f : α → Explore β}

section

variable (x : Exploration) (p : Progress) (g : Unit → Explore α)

theorem exec_bind (m : Explore α) (f : α → Explore β) :
    (m >>= f).exec x p = m.exec x p >>= fun r => (f r.1.1).exec r.1.2 r.2 := rfl

@[simp] theorem exec_get_bind (f : Exploration → Explore α) : (get >>= f).exec x p = (f x).exec x p := rfl

@[simp] theorem exec_update (f : PathSolver → PathSolver) :
    (update f).exec x p = .ok (((), { x with solver := f x.solver }), p) := rfl

@[simp] theorem exec_update_bind (f : PathSolver → PathSolver) :
    (update f >>= g).exec x p = (g ()).exec { x with solver := f x.solver } p := rfl

@[simp] theorem exec_modify_bind (f : Exploration → Exploration) : (modify f >>= g).exec x p = (g ()).exec (f x) p := rfl

theorem exec_lift_bind (e : Except Fault α) (f : α → Explore β) :
    ((liftM e : Explore α) >>= f).exec x p = e >>= fun a => (f a).exec x p := by
  cases e <;> rfl

@[simp] theorem exec_count_bind (f : Statistics → Statistics) :
    ((liftM (Run.count f) : Explore Unit) >>= g).exec x p = (g ()).exec x { p with statistics := f p.statistics } := rfl

@[simp] theorem exec_note_bind (f : Finding) :
    ((liftM (Run.note f) : Explore Unit) >>= g).exec x p = (g ()).exec x { p with findings := f :: p.findings } := rfl

end

theorem exec_bind_ok :
    (m >>= f).exec x p = .ok ((b, x'), p') ↔
      ∃ a y q, m.exec x p = .ok ((a, y), q) ∧ (f a).exec y q = .ok ((b, x'), p') := by
  rw [exec_bind]
  cases m.exec x p with
  | error e =>
    constructor
    · intro h
      cases h
    · rintro ⟨a, y, q, h, -⟩
      cases h
  | ok r =>
    obtain ⟨⟨a, y⟩, q⟩ := r
    constructor
    · exact fun h => ⟨a, y, q, rfl, h⟩
    · rintro ⟨a', y', q', h, hb⟩
      cases h
      exact hb

theorem exec_lift_bind_ok {e : Except Fault α}
    (h : ((liftM e : Explore α) >>= f).exec x p = .ok r) : ∃ a, e = .ok a ∧ (f a).exec x p = .ok r := by
  cases e with
  | error f => cases h
  | ok a => exact ⟨a, rfl, h⟩

theorem require_ok {f : Fault}
    (h : (require b f : Explore Unit).exec x p = .ok ((u, x'), p')) : b = true ∧ x' = x ∧ p' = p := by
  cases b with
  | false => cases h
  | true =>
    cases h
    exact ⟨rfl, rfl, rfl⟩

/-! ## Records -/

def isComplete (path : ControlPath) : Bool := decide (path.getLast?.map dst = some .null)

end Explore

def PathResult.key (r : PathResult) : List EdgeKey × List EdgeKey :=
  (parserKeys r.parser, r.control.map controlKey)

def Finding.about : Finding → ParserPath
  | .parser path _ => path
  | .control r => r.parser

def Finding.enter (f : Finding) (results : Dict (List EdgeKey × List EdgeKey) PathResult) :
    Dict (List EdgeKey × List EdgeKey) PathResult :=
  match f with
  | .parser _ _ => results
  | .control r =>
    if r.outcome.isReported (Explore.isComplete r.control) then
      results.alter r.key r fun old => { old with outcome := r.outcome }
    else results

/-- Nothing is recorded, whatever is counted. -/
structure Quiet (p p' : Progress) : Prop where
  cases : p'.cases = p.cases
  findings : p'.findings = p.findings
  results : p'.results = p.results

/-- No test case is written, and the results follow what is found out about a parser path. -/
structure Noted (path : ParserPath) (p p' : Progress) : Prop where
  cases : p'.cases = p.cases
  found : ∃ new, p'.findings = new ++ p.findings ∧ p'.results = new.foldr enter p.results ∧
    ∀ f ∈ new, f.about = path

section Records

theorem Quiet.refl (p : Progress) : Quiet p p := ⟨rfl, rfl, rfl⟩

theorem Quiet.noted (h : Quiet p q) : Noted path p q := ⟨h.cases, [], h.findings, h.results, by simp⟩

theorem Noted.trans (h : Noted path p q) (h' : Noted path q r) : Noted path p r := by
  obtain ⟨hcases, new, hfindings, hresults, habout⟩ := h
  obtain ⟨hcases', new', hfindings', hresults', habout'⟩ := h'
  refine ⟨hcases'.trans hcases, new' ++ new, ?_, ?_, fun f hf => ?_⟩
  · rw [hfindings', hfindings, append_assoc]
  · rw [hresults', hresults, foldr_append]
  · exact (mem_append.mp hf).elim (habout' f) (habout f)

end Records

namespace Explore

variable {engine : Engine} {control : ControlPath} {complete : Bool} {outcome : Outcome} {model : Option PathModel}
  {v : Verdict} {w w' : Walk Label ControlStep} {x x' : Exploration} {p p' : Progress} {successes : Nat}

theorem log_ok (h : (log engine outcome complete).exec x p = .ok ((u, x'), p')) : x' = x ∧ Quiet p p' := by
  unfold log at h
  split at h
  · obtain ⟨-, rfl, rfl⟩ := require_ok h
    exact ⟨rfl, rfl, rfl, rfl⟩
  · cases h
    exact ⟨rfl, .refl _⟩

/-- Whether a path counts as a success: a packet takes it to the end. -/
def counts (outcome : Outcome) (complete : Bool) : Bool := outcome == .success && complete

theorem report_ok (h : (report r complete).exec x p = .ok ((u, x'), p')) :
    x' = { x with successes := x.successes + (counts r.outcome complete).toNat } ∧ p'.cases = p.cases ∧
      p'.findings = p.findings ∧ (complete = isComplete r.control → p'.results = enter (.control r) p.results) := by
  unfold report at h
  split at h
  · cases h
    rename_i hreported
    have hcounts : (r.outcome == .success) = counts r.outcome complete := by
      unfold Outcome.isReported at hreported
      unfold counts
      cases complete with
      | true => simp
      | false => simpa using hreported
    rw [hcounts]
    exact ⟨rfl, rfl, rfl, fun hcomplete => (if_pos (hcomplete ▸ hreported)).symm⟩
  · cases h
    rename_i hreported
    have hcounts : counts r.outcome complete = false := by
      unfold Outcome.isReported at hreported
      cases complete <;> simp_all [counts]
    rw [hcounts]
    exact ⟨rfl, rfl, rfl, fun hcomplete => (if_neg (hcomplete ▸ hreported)).symm⟩

theorem record_ok (h : (record engine control complete outcome).exec x p = .ok ((u, x'), p')) :
    x' = { x with successes := x.successes + (counts outcome complete).toNat } ∧
      p'.findings = .control ⟨x.parserPath, control, outcome⟩ :: p.findings ∧
      (complete = isComplete control → Noted x.parserPath p p') := by
  unfold record at h
  simp only [exec_get_bind, exec_note_bind, exec_count_bind] at h
  obtain ⟨_, y, q, hlog, hreport⟩ := exec_bind_ok.1 h
  obtain ⟨rfl, hq⟩ := log_ok hlog
  obtain ⟨hx, hcases, hfindings, hresults⟩ := report_ok hreport
  refine ⟨hx, hfindings.trans hq.findings, fun hcomplete => ⟨hcases.trans hq.cases, [_], hfindings.trans hq.findings, ?_,
    by simp [about]⟩⟩
  rw [hresults hcomplete, hq.results]
  rfl

/-! ## Visits -/

/-- What is found out about a path whose constraints are asserted: the outcome, what is handed on to
be solved, and the path solver then. -/
inductive Judged (engine : Engine) (parser : ParserPath) (control : ControlPath) (complete : Bool)
    (s : PathSolver) : Outcome → Option PathModel → PathSolver → Prop where
  | quick {outcome : Outcome} {s' : PathSolver}
    (known : s.quick engine.setting control complete = .ok (some (outcome, s'))) :
    Judged engine parser control complete s outcome none s'
  | solved (unknown : s.quick engine.setting control complete = .ok none) :
    Judged engine parser control complete s (s.solve engine.solver).1
      (some ⟨⟨s.pathId, parser, control, complete⟩, (s.solve engine.solver).1⟩)
      (s.solve engine.solver).2

theorem judge_ok (h : (judge engine control complete).exec x p = .ok (((outcome, model), x'), p')) :
    Judged engine x.parserPath control complete x.solver outcome model x'.solver ∧
      x' = { x with solver := x'.solver } ∧ Quiet p p' := by
  unfold judge at h
  rw [exec_get_bind] at h
  obtain ⟨known, hquick, h⟩ := exec_lift_bind_ok h
  cases known with
  | some known =>
    cases h
    exact ⟨.quick hquick, rfl, .refl _⟩
  | none =>
    cases h
    exact ⟨.solved hquick, rfl, rfl, rfl, rfl⟩

theorem exec_assertPath (engine : Engine) (control : ControlPath) (x : Exploration) (p : Progress) :
    (assertPath engine control).exec x p =
      (x.solver.refresh engine.options).extend engine.setting control >>= fun s =>
        .ok (((), { x with solver := s }), p) := by
  unfold assertPath
  rw [exec_get_bind, exec_lift_bind]
  rfl

/-- What a visit to a path does if the path is looked at: its constraints are asserted, it is judged,
and the outcome is recorded. -/
structure Visited (engine : Engine) (control : ControlPath) (complete : Bool) (x : Exploration)
    (p : Progress) (outcome : Outcome) (model : Option PathModel) (x' : Exploration) (p' : Progress) :
    Prop where
  judged : ∃ s, (x.solver.refresh engine.options).extend engine.setting control = .ok s ∧
    Judged engine x.parserPath control complete s outcome model x'.solver
  rest : x' = { x with solver := x'.solver, successes := x.successes + (counts outcome complete).toNat }
  found : p'.findings = .control ⟨x.parserPath, control, outcome⟩ :: p.findings
  noted : complete = isComplete control → Noted x.parserPath p p'

theorem visitPath_ok (h : (visitPath engine control complete).exec x p = .ok (((outcome, model), x'), p')) :
    Visited engine control complete x p outcome model x' p' := by
  obtain ⟨r, y, q, hsolve, hrecord⟩ := exec_bind_ok.1 h
  obtain ⟨_, z, q', hassert, hjudge⟩ := exec_bind_ok.1 hsolve
  obtain ⟨_, y', q'', hrecord, hpure⟩ := exec_bind_ok.1 hrecord
  cases hpure
  rw [exec_assertPath] at hassert
  cases hextend : (x.solver.refresh engine.options).extend engine.setting control with
  | error f =>
    rw [hextend] at hassert
    cases hassert
  | ok s =>
    rw [hextend] at hassert
    cases hassert
    obtain ⟨hjudged, hy, hq⟩ := judge_ok hjudge
    obtain ⟨hx, hp, hnoted⟩ := record_ok hrecord
    refine ⟨⟨s, hextend, ?_⟩, ?_, ?_, fun hcomplete => hq.noted.trans ?_⟩
    · rw [hx]
      exact hjudged
    · rw [hx, hy]
    · rw [hp, hq.findings, hy]
    · have hlast := hnoted hcomplete
      rwa [hy] at hlast

def enough (engine : Engine) (successes : Nat) : Bool :=
  (engine.options.maxPathsPerParserPath.map fun most => decide ((successes : Int) ≥ most)).getD false

/-- Whether a walk goes on from a path, after a number of successes. -/
structure Answered (engine : Engine) (successes : Nat) (outcome : Outcome) (v : Verdict) : Prop where
  goes : v ≠ .stop
  proceeds : v = .proceed ↔ enough engine successes = false ∧ outcome = .success

theorem Answered.success (h : Answered engine successes outcome v) (hv : v = .proceed) : outcome = .success :=
  (h.proceeds.mp hv).2

theorem Answered.unlimited (h : Answered engine successes outcome v)
    (hmost : engine.options.maxPathsPerParserPath = none) (houtcome : outcome = .success) : v = .proceed :=
  h.proceeds.mpr ⟨by simp [enough, hmost], houtcome⟩

theorem verdict_ok (h : (verdict engine outcome).exec x p = .ok ((v, x'), p')) :
    Answered engine x.successes outcome v ∧ x' = x ∧ p' = p := by
  cases h
  change Answered engine x.successes outcome
    (if enough engine x.successes || outcome != .success then .retreat else .proceed) ∧ x = x ∧ p = p
  refine ⟨⟨?_, ?_⟩, rfl, rfl⟩
  · split <;> simp
  · cases enough engine x.successes <;> cases outcome <;> decide

inductive Visits (engine : Engine) (control : ControlPath) (complete : Bool) (x : Exploration)
    (p : Progress) : Verdict → Option PathModel → Exploration → Progress → Prop where
  | passed (coverage : engine.options.edgeCoverage = true) (nothing : nothingNew x control = true) :
    Visits engine control complete x p .retreat none { x with solver := x.solver.push } p
  | examined {outcome : Outcome} {v : Verdict} {model : Option PathModel} {y : Exploration}
    {p' : Progress} (new : engine.options.edgeCoverage = true → nothingNew x control = false)
    (visited : Visited engine control complete { x with solver := x.solver.push } p outcome model y p')
    (answered : Answered engine y.successes outcome v) :
    Visits engine control complete x p v model
      (if engine.options.edgeCoverage then cover engine.graph control complete outcome y else y) p'

theorem cover_successes (graph : Graph Label ControlStep) (path : ControlPath) (complete : Bool) (outcome : Outcome)
    (x : Exploration) : (cover graph path complete outcome x).successes = x.successes := by
  unfold cover
  split <;> rfl

theorem visit_ok (h : ((visitor engine).visit control complete).exec x p = .ok (((v, model), x'), p')) :
    Visits engine control complete x p v model x' p' := by
  unfold visitor at h
  split at h
  · rename_i hcoverage
    simp only [edgeCoverage, exec_update_bind, exec_get_bind] at h
    split at h
    · rename_i hnothing
      cases h
      exact .passed hcoverage hnothing
    · rename_i hnew
      obtain ⟨⟨outcome, model'⟩, y, q, hvisit, h⟩ := exec_bind_ok.1 h
      simp only [exec_modify_bind] at h
      obtain ⟨v', y', q', hverdict, hpure⟩ := exec_bind_ok.1 h
      cases hpure
      obtain ⟨hanswered, rfl, rfl⟩ := verdict_ok hverdict
      rw [cover_successes] at hanswered
      have hcase := Visits.examined (x := x) (fun _ => Bool.eq_false_of_not_eq_true hnew)
        (visitPath_ok hvisit) hanswered
      rwa [if_pos hcoverage] at hcase
  · rename_i hcoverage
    simp only [pathCoverage, exec_update_bind] at h
    obtain ⟨⟨outcome, model'⟩, y, q, hvisit, h⟩ := exec_bind_ok.1 h
    obtain ⟨v', y', q', hverdict, hpure⟩ := exec_bind_ok.1 h
    cases hpure
    obtain ⟨hanswered, rfl, rfl⟩ := verdict_ok hverdict
    have hcase := Visits.examined (x := x) (fun h => absurd h hcoverage) (visitPath_ok hvisit) hanswered
    rwa [if_neg hcoverage] at hcase

theorem exec_order (engine : Engine) (path edges : ControlPath) (x : Exploration) (p : Progress) :
    ((visitor engine).order path edges).exec x p =
      .ok ((if engine.options.edgeCoverage then leastVisited x edges else edges, x), p) := by
  unfold visitor
  split <;> rfl

theorem exec_undo (engine : Engine) (n : Nat) (x : Exploration) (p : Progress) :
    (undo (visitor engine) n).exec x p =
      .ok (((), { x with solver := (pop engine.options)^[n] x.solver }), p) := by
  have hback : (visitor engine).backtrack = update (pop engine.options) := by
    unfold visitor
    split <;> rfl
  induction n generalizing x with
  | zero => rfl
  | succ n ih =>
    rw [undo, hback, exec_update_bind, ih]
    rfl

/-! ## Walks -/

/-- The edges by which a path may be extended, in the order in which they are put on the stack. -/
def nextEdges (engine : Engine) (x : Exploration) (path : ControlPath) : List ControlEdge :=
  let leaving := (path.getLast?.map fun e => engine.graph.outEdges e.dst).getD []
  if engine.options.edgeCoverage then leastVisited x leaving else leaving

theorem insertByRank_perm (rank : ControlEdge → Nat) (e : ControlEdge) (edges : List ControlEdge) :
    (insertByRank rank e edges).Perm (e :: edges) := by
  induction edges with
  | nil => exact .refl _
  | cons a edges ih =>
    rw [insertByRank]
    split
    · exact .refl _
    · exact (ih.cons a).trans (.swap e a edges)

theorem sortByRank_perm (rank : ControlEdge → Nat) (edges : List ControlEdge) : (sortByRank rank edges).Perm edges := by
  induction edges with
  | nil => exact .refl _
  | cons a edges ih => exact (insertByRank_perm rank a _).trans (ih.cons a)

theorem leastVisited_perm (x : Exploration) (edges : List ControlEdge) : (leastVisited x edges).Perm edges := by
  refine (reverse_perm _).trans ?_
  refine ((sortByRank_perm _ _).append (sortByRank_perm _ _)).trans (perm_append_comm.trans ?_)
  simpa using filter_append_perm (fun e : ControlEdge => x.finished.contains e.controlKey) edges

/-- The edges that a path may start with, in the order in which they are put on the stack. -/
def firstEdges (engine : Engine) (x : Exploration) : List ControlEdge :=
  let leaving := engine.graph.outEdges engine.start
  if engine.options.edgeCoverage then leastVisited x leaving else leaving

def walked (engine : Engine) (path : ControlPath) (rest : List ControlPath) (v : Verdict)
    (x : Exploration) : Walk Label ControlStep where
  pending :=
    if v = .proceed ∧ isComplete path = false then
      ((nextEdges engine x path).map fun e => path ++ [e]).reverse ++ rest
    else rest
  depth := path.length

inductive Moves (engine : Engine) (w : Walk Label ControlStep) (x : Exploration) (p : Progress) :
    Option PathModel → Walk Label ControlStep → Exploration → Progress → Prop where
  | stayed (pending : w.pending = []) (ended : w.ended = true) : Moves engine w x p none w x p
  /-- No path waits, and the levels that are left are taken off. -/
  | finished (pending : w.pending = []) (ended : w.ended = false) :
    Moves engine w x p none { pending := [], depth := 0, ended := true }
      { x with solver := (pop engine.options)^[w.depth] x.solver } p
  | visited {path : ControlPath} {rest : List ControlPath} {v : Verdict} {model : Option PathModel}
    {x' : Exploration} {p' : Progress} (pending : w.pending = path :: rest)
    (visits : Visits engine path (isComplete path)
      { x with solver := (pop engine.options)^[w.depth + 1 - path.length] x.solver } p
      v model x' p') :
    Moves engine w x p model (walked engine path rest v x') x' p'

theorem Visits.goes (h : Visits engine control complete x p v model x' p') : v ≠ .stop := by
  cases h with
  | passed => simp
  | examined _ _ answered => exact answered.goes

theorem move_ok (h : (move engine.graph .null (visitor engine) w).exec x p = .ok (((model, w'), x'), p')) :
    Moves engine w x p model w' x' p' := by
  unfold move at h
  split at h
  · rename_i hpending
    split at h
    · rename_i hended
      cases h
      exact .stayed hpending hended
    · rename_i hended
      obtain ⟨w₁, y, q, hfinish, hpure⟩ := exec_bind_ok.1 h
      rw [Walk.finish, exec_bind, exec_undo] at hfinish
      cases hfinish
      cases hpure
      exact .finished hpending (Bool.eq_false_of_not_eq_true hended)
  · rename_i path rest hpending
    obtain ⟨⟨model', v, w''⟩, y, q, hstep, hpure⟩ := exec_bind_ok.1 h
    obtain ⟨_, y₁, q₁, hundo, hstep⟩ := exec_bind_ok.1 hstep
    rw [exec_undo] at hundo
    cases hundo
    obtain ⟨⟨v', model''⟩, y₂, q₂, hvisit, hstep⟩ := exec_bind_ok.1 hstep
    have hvisits := visit_ok hvisit
    have hmoves := Moves.visited hpending hvisits
    dsimp only at hstep
    split at hstep
    · rename_i hgoes
      obtain ⟨next, y₃, q₃, horder, hdone⟩ := exec_bind_ok.1 hstep
      rw [exec_order] at horder
      cases horder
      cases hdone
      cases hpure
      rw [if_neg hvisits.goes]
      rw [walked, if_pos ⟨hgoes.1, by simpa [isComplete] using hgoes.2⟩] at hmoves
      have hleaving : ((path.getLast?.map dst).map engine.graph.outEdges).getD [] =
          (path.getLast?.map fun e => engine.graph.outEdges e.dst).getD [] := by
        rw [Option.map_map]
        rfl
      rw [hleaving]
      exact hmoves
    · rename_i hstays
      cases hstep
      cases hpure
      rw [if_neg hvisits.goes]
      rw [walked, if_neg fun h => hstays ⟨h.1, by simpa [isComplete] using h.2⟩] at hmoves
      exact hmoves

/-! ## Streams -/

def released (engine : Engine) (m : PathModel) (s : PathSolver) : PathSolver :=
  if m.path.complete then s.pop engine.options else s

theorem exec_release (engine : Engine) (m : PathModel) (x : Exploration) (p : Progress) :
    (release engine m).exec x p = .ok (((), { x with solver := released engine m x.solver }), p) := by
  unfold release released
  split <;> rfl

end Explore

open Explore

inductive Begins (engine : Engine) (x : Exploration) (p : Progress) : StreamStage → Exploration → Progress → Prop where
  /-- No packet can take the parser path, whatever the constraints. -/
  | impossible {s : PathSolver} {p' : Progress}
    (start : x.solver.start engine.setting x.parserPath = .ok (false, s))
    (found : p'.findings = .parser x.parserPath false :: p.findings) (noted : Noted x.parserPath p p') :
    Begins engine x p .ended { x with solver := s } p'
  | refuted {s : PathSolver} {p' : Progress}
    (start : x.solver.start engine.setting x.parserPath = .ok (true, s))
    (unsat : (s.check engine.solver).isSat = false)
    (found : p'.findings = .parser x.parserPath false :: p.findings) (noted : Noted x.parserPath p p') :
    Begins engine x p .ended { x with solver := (s.check engine.solver).refresh engine.options } p'
  | started {s : PathSolver} {p' : Progress}
    (start : x.solver.start engine.setting x.parserPath = .ok (true, s))
    (sat : (s.check engine.solver).isSat = true)
    (found : p'.findings = .parser x.parserPath true :: p.findings) (noted : Noted x.parserPath p p') :
    Begins engine x p (.walking { pending := ((firstEdges engine x).map fun e => [e]).reverse })
      { x with solver := (s.check engine.solver).refresh engine.options } p'

section Streams

variable {engine : Engine} {stage stage' : StreamStage} {x x' : Exploration} {p p' : Progress} {found : Option Solution}
  {w w' : Walk Label ControlStep}

theorem begin_ok (h : (begin engine).exec x p = .ok ((stage, x'), p')) : Begins engine x p stage x' p' := by
  unfold begin at h
  rw [exec_get_bind] at h
  obtain ⟨⟨possible, s⟩, hstart, h⟩ := exec_lift_bind_ok h
  dsimp only at h
  split at h
  · rename_i hpossible
    obtain rfl : possible = false := by simpa using hpossible
    cases h
    exact .impossible hstart rfl ⟨rfl, [_], rfl, rfl, by simp [about]⟩
  · rename_i hpossible
    obtain rfl : possible = true := by simpa using hpossible
    obtain ⟨_, y, q, hcount, h⟩ := exec_bind_ok.1 h
    cases hcount
    obtain ⟨_, y, q, hset, h⟩ := exec_bind_ok.1 h
    cases hset
    obtain ⟨_, y, q, hset, h⟩ := exec_bind_ok.1 h
    cases hset
    split at h
    · rename_i hsat
      obtain ⟨w, y, q, hwalk, hpure⟩ := exec_bind_ok.1 h
      rw [Walk.start, exec_bind, exec_order] at hwalk
      cases hwalk
      cases hpure
      exact .started hstart hsat (by rw [hsat]) ⟨rfl, [_], rfl, rfl, by simp [about]⟩
    · rename_i hsat
      cases h
      have hunsat := Bool.eq_false_of_not_eq_true hsat
      exact .refuted hstart hunsat (by rw [hunsat]) ⟨rfl, [_], rfl, rfl, by simp [about]⟩

inductive Steps (engine : Engine) (x : Exploration) (p : Progress) :
    StreamStage → Option Solution → StreamStage → Exploration → Progress → Prop where
  | begins {stage : StreamStage} {x' : Exploration} {p' : Progress} (begins : Begins engine x p stage x' p') :
    Steps engine x p .waiting none stage x' p'
  | moves {w w' : Walk Label ControlStep} {model : Option PathModel} {x' : Exploration} {p' : Progress}
    (moves : Moves engine w x p model w' x' p')
    (nothing : ∀ m, model = some m → m.outcome.givesTestCase m.path.complete = false) :
    Steps engine x p (.walking w) none (if w'.ended then .ended else .walking w') x' p'
  | solves {w w' : Walk Label ControlStep} {m : PathModel} {y x' : Exploration} {q p' : Progress}
    {found : Solution} (moves : Moves engine w x p (some m) w' y q)
    (gives : m.outcome.givesTestCase m.path.complete = true)
    (solution : (solution engine m).exec y q = .ok ((found, x'), p')) :
    Steps engine x p (.walking w) (some found) (.yielded w' m 1) x' p'
  | leaves {w : Walk Label ControlStep} {m : PathModel} {n : Nat}
    (limit : engine.options.maxTestCasesPerPath = some n) :
    Steps engine x p (.yielded w m n) none (.walking w)
      { x with solver := released engine m x.solver } p
  | continues {w : Walk Label ControlStep} {m : PathModel} {n : Nat} {found : Option Solution}
    {x' : Exploration} {p' : Progress} (limit : engine.options.maxTestCasesPerPath ≠ some n)
    (another : (another engine m).exec x p = .ok ((found, x'), p')) :
    Steps engine x p (.yielded w m n) found
      (if found.isSome then .yielded w m (n + 1) else .walking w) x' p'
  | rests : Steps engine x p .ended none .ended x p

theorem Explore.Moves.pending_of_ended (h : Moves engine w x p model w' x' p')
    (hended : w'.ended = true) : w'.pending = [] := by
  cases h with
  | stayed pending => exact pending
  | finished => rfl
  | visited => cases hended

theorem Explore.Moves.of_some (h : Moves engine w x p (some m) w' x' p') : w'.ended = false := by
  cases h with
  | visited => rfl

theorem step_ok (h : (step engine stage).exec x p = .ok (((found, stage'), x'), p')) :
    Steps engine x p stage found stage' x' p' := by
  unfold SolutionStream.step at h
  cases stage with
  | waiting =>
    obtain ⟨stage, y, q, hbegin, hpure⟩ := exec_bind_ok.1 h
    cases hpure
    exact .begins (begin_ok hbegin)
  | walking w =>
    obtain ⟨⟨model, w'⟩, y, q, hmove, hnext⟩ := exec_bind_ok.1 h
    have hmoves := move_ok hmove
    cases model with
    | none =>
      cases hnext
      exact .moves hmoves (by simp)
    | some m =>
      dsimp only at hnext
      split at hnext
      · rename_i hgives
        obtain ⟨sol, y', q', hsolution, hpure⟩ := exec_bind_ok.1 hnext
        cases hpure
        exact .solves hmoves hgives hsolution
      · rename_i hgives
        cases hnext
        have hsteps := Steps.moves hmoves (by simpa using hgives)
        rwa [hmoves.of_some] at hsteps
  | yielded w m n =>
    dsimp only at h
    split at h
    · rename_i hlimit
      obtain ⟨_, y, q, hrelease, hpure⟩ := exec_bind_ok.1 h
      rw [exec_release] at hrelease
      cases hrelease
      cases hpure
      exact .leaves hlimit
    · rename_i hlimit
      obtain ⟨found', y, q, hanother, hnext⟩ := exec_bind_ok.1 h
      cases found' with
      | none | some sol =>
        cases hnext
        exact .continues hlimit hanother
  | ended =>
    cases h
    exact .rests

end Streams

end PacketSmith
