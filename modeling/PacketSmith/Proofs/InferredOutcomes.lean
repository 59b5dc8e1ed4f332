import PacketSmith.Proofs.IdealSolver
import PacketSmith.Proofs.Verdicts

/-!
# Inferred outcomes and test cases

An outcome that is inferred without the solver may be wrong, but the test cases are the same whichever outcomes are
inferred. `Listing` runs through the paths that wait without a path solver and lists those that give a test case. A
stream follows a path too far if a wrong outcome was inferred, and then no path that extends it gives a test case.
Without these, the paths that wait are those of a `Listing` (`Steps.listed`).
-/

namespace PacketSmith

open List PathSolver PacketSmith.Small Finding Outcome
open Explore

def Finding.testCase? : Finding → Option PathResult
  | .control r => if r.outcome.givesTestCase (isComplete r.control) then some r else none
  | .parser _ _ => none

def testCasePaths (found : List Finding) : List PathResult := found.reverse.filterMap testCase?

theorem testCasePaths_append (new found : List Finding) :
    testCasePaths (new ++ found) = testCasePaths found ++ testCasePaths new := by
  simp [testCasePaths]

/-! ## What should be found -/

/-- The paths one edge longer than a path, in the order in which they wait. -/
def extensions (engine : Engine) (path : ControlPath) : List ControlPath :=
  (((path.getLast?.map fun e => engine.graph.outEdges e.dst).getD []).map fun e => path ++ [e]).reverse

/-- The paths with test cases that come of paths which wait, after a number of successes. -/
inductive Listing (engine : Engine) (parser : ParserPath) : Nat → List ControlPath → List PathResult → Prop where
  | done : Listing engine parser n [] []
  | leads
    (comes : Comes engine.setting parser path .success) (open' : isComplete path = false)
    (more : enough engine n = false) (next : Listing engine parser n (extensions engine path ++ rest) l) :
    Listing engine parser n (path :: rest) l
  /-- A packet takes the path, and enough paths were found before. -/
  | stays
    (comes : Comes engine.setting parser path .success) (open' : isComplete path = false)
    (limit : enough engine n = true) (next : Listing engine parser n rest l) :
    Listing engine parser n (path :: rest) l
  /-- A packet takes the path to the end. -/
  | ends
    (comes : Comes engine.setting parser path .success) (complete : isComplete path = true)
    (next : Listing engine parser (n + 1) rest l) :
    Listing engine parser n (path :: rest) (⟨parser, path, .success⟩ :: l)
  | fails
    (comes : Comes engine.setting parser path o) (amiss : o ≠ .success)
    (next : Listing engine parser n rest l) :
    Listing engine parser n (path :: rest) (testCasePaths [.control ⟨parser, path, o⟩] ++ l)

section

variable {engine : Engine} {parser : ParserPath} {path : ControlPath} {s : PathSolver}
  {outcome : Outcome}

theorem Listing.unique (henv : engine.setting.Uniform) {pending : List ControlPath}
    (h : Listing engine parser n pending l) (h' : Listing engine parser n pending l') : l = l' := by
  induction h generalizing l' with
  | done =>
    cases h'
    rfl
  | leads comes opens more next ih =>
    cases h' with
    | leads _ _ _ next' => exact ih next'
    | stays _ _ limit => simp [more] at limit
    | ends _ complete => simp [opens] at complete
    | fails comes' amiss => exact absurd (comes'.unique henv comes) amiss
  | stays comes opens limit next ih =>
    cases h' with
    | leads _ _ more => simp [limit] at more
    | stays _ _ _ next' => exact ih next'
    | ends _ complete => simp [opens] at complete
    | fails comes' amiss => exact absurd (comes'.unique henv comes) amiss
  | ends comes complete next ih =>
    cases h' with
    | leads _ opens | stays _ opens => simp [complete] at opens
    | ends _ _ next' => rw [ih next']
    | fails comes' amiss => exact absurd (comes'.unique henv comes) amiss
  | fails comes amiss next ih =>
    cases h' with
    | leads comes' | stays comes' | ends comes' => exact absurd (comes.unique henv comes') amiss
    | fails comes' _ next' => rw [comes.unique henv comes', ih next']

/-! ## Paths that can still give a test case -/

open Classical in
/-- The paths whose constraints can be satisfied up to the last edge. -/
noncomputable def live (env : Setting) (parser : ParserPath) (pending : List ControlPath) : List ControlPath :=
  pending.filter fun path => Possible env parser path.dropLast

section Live

variable {rest pending : List ControlPath}

theorem live_append (env : Setting) (pending rest : List ControlPath) :
    live env parser (pending ++ rest) = live env parser pending ++ live env parser rest := by
  simp [live]

theorem live_cons_of_possible (h : Possible env parser path.dropLast) :
    live env parser (path :: rest) = path :: live env parser rest := by
  simp [live, h]

theorem live_cons_of_not (h : ¬ Possible env parser path.dropLast) :
    live env parser (path :: rest) = live env parser rest := by
  simp [live, h]

/-- All paths wait that are one edge longer than a path whose constraints can be satisfied, and none
of the others. -/
theorem live_extensions_of_possible (h : Possible engine.setting parser path) :
    live engine.setting parser (extensions engine path) = extensions engine path := by
  refine filter_eq_self.mpr fun longer hlonger => ?_
  obtain ⟨e, -, rfl⟩ := mem_map.mp (mem_reverse.mp hlonger)
  simpa using h

theorem live_extensions_of_not (h : ¬ Possible engine.setting parser path) :
    live engine.setting parser (extensions engine path) = [] := by
  refine filter_eq_nil_iff.mpr fun longer hlonger => ?_
  obtain ⟨e, -, rfl⟩ := mem_map.mp (mem_reverse.mp hlonger)
  simpa using h

end Live

/-! ## Visits -/

theorem PathSolver.infers_clean {complete : Bool} (h : s.infers env path complete = .ok true) : complete = false ∧
    s.context.uninitializedReads = [] ∧ s.context.invalidWrites = [] := by
  unfold infers at h
  dsimp only at h
  split at h
  · cases h
  · split at h
    · cases h
    · rename_i hclean
      simpa [and_assoc] using hclean

/-- An outcome that was recorded is the right one, or it was inferred for a path that leads on and
hides that no packet takes it. -/
def Recorded (path : ControlPath) (o outcome : Outcome) : Prop :=
  outcome = o ∨ outcome = .success ∧ o = .noPacketFound ∧ isComplete path = false

theorem Explore.Judged.recorded (h : Judged engine parser path (isComplete path) s outcome model s') :
    Recorded path (s.solve engine.solver).1 outcome := by
  cases h with
  | solved => exact .inl rfl
  | quick known =>
    obtain ⟨hinfers, rfl, -⟩ := quick_ok known
    obtain ⟨hopen, hreads, hwrites⟩ := infers_clean hinfers
    have hcontext : (s.check engine.solver).context = s.context := rfl
    change Recorded path (s.check engine.solver).outcome .success
    unfold outcome
    rw [hcontext, hreads, hwrites]
    cases (s.check engine.solver).isSat with
    | true => exact .inl rfl
    | false => exact .inr ⟨rfl, rfl, hopen⟩

theorem Explore.Visited.recorded
    (hsolver : engine.solver.Decides) {x x' : Exploration} (h : Visited engine
      (front ++ [e]) (isComplete (front ++ [e])) { x with solver := s.push } p outcome model x' p')
    (hs : PathSolver.Solid engine.setting x.parserPath front s) :
    ∃ o, Comes engine.setting x.parserPath (front ++ [e]) o ∧ Recorded (front ++ [e]) o outcome := by
  obtain ⟨s', hextend, hjudged⟩ := h.judged
  obtain ⟨hsolid, hformulas⟩ := hs.extend hextend
  exact ⟨_, hsolid.comes hformulas hsolver, hjudged.recorded⟩

theorem walked_pending (hcoverage : engine.options.edgeCoverage = false)
    (path : ControlPath) (rest : List ControlPath) (v : Verdict) (x : Exploration) :
    (walked engine path rest v x).pending = if v = .proceed ∧
      isComplete path = false then extensions engine path ++ rest else rest := by
  simp [walked, nextEdges, hcoverage, extensions]

section Visit

variable {n : Nat} {rest : List ControlPath} {o : Outcome} {v : Verdict} {l : List PathResult}

theorem Listing.visit_dead
    (henv : engine.setting.Uniform) (hdead : ¬ Possible engine.setting parser path)
    (hcomes : Comes engine.setting parser path o) (hrecorded : Recorded path o outcome) :
    counts outcome (isComplete path) = false ∧ testCasePaths [.control ⟨parser, path, outcome⟩] = [] ∧
      live engine.setting parser (if v = .proceed ∧ isComplete path = false
      then extensions engine path ++ rest else rest) = live engine.setting parser rest := by
  have ho : o = .noPacketFound := by
    by_contra hne
    exact hdead ((hcomes.possible_iff henv).mpr hne)
  refine ⟨?_, ?_, ?_⟩
  · rcases hrecorded with rfl | ⟨rfl, -, hopen⟩
    · simp [counts, ho]
    · simp [counts, hopen]
  · rcases hrecorded with rfl | ⟨rfl, -, hopen⟩
    · simp [testCasePaths, testCase?, givesTestCase, ho]
    · simp [testCasePaths, testCase?, givesTestCase, hopen]
  · split
    · rw [live_append, live_extensions_of_not hdead, nil_append]
    · rfl

theorem Listing.visit (henv : engine.setting.Uniform)
    (hcomes : Comes engine.setting parser path o) (hrecorded : Recorded path o outcome)
    (hanswered : Answered engine (n + (counts outcome (isComplete path)).toNat) outcome v)
    (h : Listing engine parser (n + (counts outcome (isComplete path)).toNat) (live engine.setting parser
      (if v = .proceed ∧ isComplete path = false then extensions engine path ++ rest else rest)) l) :
    Listing engine parser n (live engine.setting parser (path :: rest))
      (testCasePaths [.control ⟨parser, path, outcome⟩] ++ l) := by
  by_cases hpossible : Possible engine.setting parser path
  · -- the outcome is the right one, and the path is live
    have ho : outcome = o := by
      rcases hrecorded with rfl | ⟨-, rfl, -⟩
      · rfl
      · exact absurd rfl ((hcomes.possible_iff henv).mp hpossible)
    subst ho
    rw [live_cons_of_possible (hpossible.dropLast)]
    by_cases hsuccess : outcome = .success
    · subst hsuccess
      cases hcomplete : isComplete path with
      | true =>
        have hcase : testCasePaths [.control ⟨parser, path, .success⟩] = [⟨parser, path, .success⟩] := by
          simp [testCasePaths, testCase?, givesTestCase, hcomplete]
        rw [hcase]
        refine .ends hcomes hcomplete ?_
        simpa [counts, hcomplete] using h
      | false =>
        have hcase : testCasePaths [.control ⟨parser, path, .success⟩] = [] := by
          simp [testCasePaths, testCase?, givesTestCase, hcomplete]
        have hn : n + (counts .success (isComplete path)).toNat = n := by simp [counts, hcomplete]
        rw [hn] at h hanswered
        rw [hcase]
        cases henough : enough engine n with
        | true =>
          have hv : v ≠ .proceed := fun hv => by simpa [henough] using hanswered.proceeds.mp hv
          rw [if_neg fun h => hv h.1] at h
          exact .stays hcomes hcomplete henough h
        | false =>
          have hv : v = .proceed := hanswered.proceeds.mpr ⟨henough, rfl⟩
          rw [if_pos ⟨hv, hcomplete⟩, live_append, live_extensions_of_possible hpossible] at h
          exact .leads hcomes hcomplete henough h
    · have hv : v ≠ .proceed := fun hv => hsuccess (hanswered.success hv)
      have hn : counts outcome (isComplete path) = false := by simp [counts, hsuccess]
      rw [if_neg fun h => hv h.1, hn] at h
      exact .fails hcomes hsuccess h
  · obtain ⟨hcounts, hcase, hlive⟩ := @visit_dead _ _ _ _ rest _ v henv hpossible hcomes hrecorded
    rw [hcounts, hlive] at h
    rw [hcase]
    by_cases hbefore : Possible engine.setting parser path.dropLast
    · have ho : o = .noPacketFound := by
        by_contra hne
        exact hpossible ((hcomes.possible_iff henv).mpr hne)
      subst ho
      rw [live_cons_of_possible hbefore]
      exact .fails hcomes (by simp) h
    · rw [live_cons_of_not hbefore]
      exact h

end Visit

/-! ## Streams -/

def Begun (engine : Engine) (parser : ParserPath) (s : PathSolver) : Prop :=
  ∃ s', s.start engine.setting parser = .ok (true, s') ∧ (s'.check engine.solver).isSat = true

def Refused (engine : Engine) (parser : ParserPath) (s : PathSolver) : Prop :=
  (∃ s', s.start engine.setting parser = .ok (false, s')) ∨
    ∃ s', s.start engine.setting parser = .ok (true, s') ∧ (s'.check engine.solver).isSat = false

def firstPaths (engine : Engine) : List ControlPath :=
  ((engine.graph.outEdges engine.start).map fun e => [e]).reverse

/-- What was found so far, together with what is listed from the paths that wait, is what is listed
from the start. -/
def Listed (engine : Engine) (parser : ParserPath) (s : PathSolver) (x : Exploration)
    (found : List Finding) : StreamStage → Prop
  | .waiting => x.solver = s ∧ x.successes = 0 ∧ found = []
  | .walking w | .yielded w _ _ => Begun engine parser s ∧
      ∀ l, Listing engine parser x.successes (live engine.setting parser w.pending) l →
        Listing engine parser 0 (firstPaths engine) (testCasePaths found ++ l)
  | .ended => Begun engine parser s ∧ Listing engine parser 0 (firstPaths engine) (testCasePaths found) ∨
      Refused engine parser s ∧ testCasePaths found = []

section Streams

theorem PathSolver.Idle.possible (h : s.Idle env.options) (hstart : s.start env parser = .ok (true, s'))
    (hsat : Satisfiable s'.formulas) : Possible env parser [] := by
  refine ⟨s'.standing, s'.fresh, (h.start hstart).trail, ?_⟩
  obtain ⟨-, ctx, t, hctx, ⟨hfalse, -⟩ | ⟨fs, -, rfl, -⟩⟩ := start_ok hstart
  · cases hfalse
  · change Satisfiable ((s.renew env.options).assert fs).formulas at hsat
    rw [formulas_assert] at hsat
    rw [standing_begun _ _ _ _ h.levels]
    simpa [Standing.constraints] using hsat.mono (subset_append_right _ _)

theorem live_firstPaths (h : Possible engine.setting parser []) :
    live engine.setting parser (firstPaths engine) = firstPaths engine := by
  refine filter_eq_self.mpr fun path hpath => ?_
  obtain ⟨e, -, rfl⟩ := mem_map.mp (mem_reverse.mp hpath)
  simpa using h

theorem Begins.listed (hsolver : engine.solver.Decides) (hcoverage : engine.options.edgeCoverage = false)
    (h : Begins engine x p stage x' p') (hidle : x.solver.Idle engine.options) (hx : x.successes = 0)
    (hnew : p'.findings = new ++ p.findings) : Listed engine x.parserPath x.solver x' new stage := by
  have hfound {possible : Bool} (found : p'.findings = .parser x.parserPath possible :: p.findings) :
      testCasePaths new = [] := by
    rw [found] at hnew
    obtain rfl : new = [.parser x.parserPath possible] :=
      (append_cancel_right (show [_] ++ p.findings = new ++ p.findings from hnew)).symm
    rfl
  cases h with
  | impossible start found => exact .inr ⟨.inl ⟨_, start⟩, hfound found⟩
  | refuted start unsat found => exact .inr ⟨.inr ⟨_, start, unsat⟩, hfound found⟩
  | started start sat found =>
    refine ⟨⟨_, start, sat⟩, fun l hl => ?_⟩
    have hpossible := hidle.possible start ((hsolver.isSat_check _).mp sat)
    have hfirst : ((firstEdges engine x).map fun e => [e]).reverse = firstPaths engine := by
      simp [firstEdges, hcoverage, firstPaths]
    rw [hfound found]
    rw [show ({ x with solver := _ } : Exploration).successes = 0 from hx, hfirst,
      live_firstPaths hpossible] at hl
    exact hl

section

variable (henv : engine.setting.Uniform) (hsolver : engine.solver.Decides)
  (hcoverage : engine.options.edgeCoverage = false)

include henv hsolver hcoverage

theorem Explore.Moves.listed (h : Moves engine w x p model w' x' p')
    (hw : Ready engine.setting x.parserPath w x.solver) (hnew : p'.findings = new ++ p.findings)
    (hl : Listing engine x.parserPath x'.successes (live engine.setting x.parserPath w'.pending) l) :
    Listing engine x.parserPath x.successes
      (live engine.setting x.parserPath w.pending) (testCasePaths new ++ l) := by
  have hnil (h : p.findings = new ++ p.findings) : new = [] := by simpa using h
  cases h with
  | stayed =>
    rw [hnil hnew]
    exact hl
  | finished pending =>
    rw [hnil hnew, pending]
    exact hl
  | @visited path rest v _ _ _ pending visits =>
    have hnext := hw.next pending
    obtain ⟨last, hstacked, -⟩ := hw
    obtain ⟨front, e, rfl⟩ := (eq_nil_or_concat' path).resolve_left (hstacked.top_ne pending)
    rw [dropLast_concat] at hnext
    cases visits with
    | passed coverage => simp [hcoverage] at coverage
    | @examined outcome v _ y _ _ visited answered =>
      obtain ⟨o, hcomes, hrecorded⟩ := visited.recorded hsolver hnext
      have hsuccesses : y.successes =
          x.successes + (counts outcome (isComplete (front ++ [e]))).toNat := by rw [visited.rest]
      have hfound : new = [.control ⟨x.parserPath, front ++ [e], outcome⟩] := by
        have hlist : new ++ p.findings = [.control ⟨x.parserPath, front ++ [e], outcome⟩] ++ p.findings :=
          hnew.symm.trans visited.found
        exact append_cancel_right hlist
      rw [if_neg (by simp [hcoverage]), walked_pending hcoverage, hsuccesses] at hl
      rw [hsuccesses] at answered
      rw [hfound, pending]
      exact hl.visit henv hcomes hrecorded answered

theorem Steps.listed {stage' : StreamStage} {solution : Option Solution}
    (h : Steps engine x p stage solution stage' x' p') (hsettled : Settled engine x stage)
    (hx : Listed engine x.parserPath s x found stage) (hnew : p'.findings = new ++ p.findings) :
    Listed engine x.parserPath s x' (new ++ found) stage' := by
  have hnil (h : p'.findings = p.findings) : new = [] := by simpa [h] using hnew
  cases h with
  | begins begins =>
    obtain ⟨rfl, hzero, rfl⟩ := hx
    rw [append_nil]
    exact begins.listed hsolver hcoverage hsettled hzero hnew
  | @moves w w' model x' p' moves nothing =>
    obtain ⟨hbegun, hlisting⟩ := hx
    have hmove {l : List PathResult} (hl : Listing engine x.parserPath x'.successes
        (live engine.setting x.parserPath w'.pending) l) :
        Listing engine x.parserPath 0 (firstPaths engine) (testCasePaths (new ++ found) ++ l) := by
      rw [testCasePaths_append, append_assoc]
      exact hlisting _ (moves.listed henv hsolver hcoverage hsettled.2 hnew hl)
    cases hended : w'.ended with
    | false => exact ⟨hbegun, fun l hl => hmove hl⟩
    | true =>
      have hpending := moves.pending_of_ended hended
      refine .inl ⟨hbegun, ?_⟩
      have hdone := hmove (l := []) (by rw [hpending]; exact .done)
      rwa [append_nil] at hdone
  | solves moves gives solution =>
    obtain ⟨hbegun, hlisting⟩ := hx
    obtain ⟨hy, hq, -⟩ := solution_ok solution
    rw [hq.findings] at hnew
    refine ⟨hbegun, fun l hl => ?_⟩
    rw [hy] at hl
    rw [testCasePaths_append, append_assoc]
    exact hlisting _ (moves.listed henv hsolver hcoverage hsettled.2 hnew hl)
  | leaves limit =>
    rw [hnil rfl]
    exact hx
  | @continues w m n solution x' p' limit another =>
    obtain ⟨hy, hq, -⟩ := another_ok another
    rw [hnil hq.findings]
    rw [hy]
    cases solution with
    | none | some _ => exact hx
  | rests =>
    rw [hnil rfl]
    exact hx

theorem Reaches.listed (hs : s.Idle engine.options)
    (h : Reaches engine parser s stage x found) : Listed engine parser s x found stage := by
  induction h with
  | start => exact ⟨rfl, rfl, rfl⟩
  | step before run finds ih =>
    obtain ⟨rfl, hsettled⟩ := before.settled hs
    exact (step_ok run).listed henv hsolver hcoverage hsettled ih finds
  | @counts stage _ _ _ before begun later ih =>
    cases stage with
    | waiting => exact absurd rfl begun
    | walking w | yielded w m n | ended => exact ih

end

end Streams

/-! ## Options of the search -/

section Options

variable {branches keep tables : Bool}

theorem Listing.solving {pending : List ControlPath}
    (h : Listing (engine.solving keep tables branches) parser n pending l) : Listing engine parser n pending l := by
  induction h with
  | done => exact .done
  | leads comes opens more next ih => exact .leads ((Comes.solving ..).mp comes) opens more ih
  | stays comes opens limit next ih => exact .stays ((Comes.solving ..).mp comes) opens limit ih
  | ends comes complete next ih => exact .ends ((Comes.solving ..).mp comes) complete ih
  | fails comes amiss next ih => exact .fails ((Comes.solving ..).mp comes) amiss ih

theorem PathSolver.start_solving (env : Setting) (keep tables branches tables' branches' : Bool)
    (parser : ParserPath) (s : PathSolver) :
    s.start (env.solving keep tables branches) parser = s.start (env.solving keep tables' branches') parser := by
  simp only [start, Symbolic.parserPath_solving]
  rfl

theorem Refused.not_begun (h : Refused engine parser s) : ¬ Begun engine parser s := by
  rintro ⟨s', hstart, hsat⟩
  rcases h with ⟨s'', h⟩ | ⟨s'', h, hunsat⟩
  · cases h.symm.trans hstart
  · cases h.symm.trans hstart
    simp [hunsat] at hsat

theorem Begun.possible (hs : HandedOn engine s) (h : Begun engine parser s) (hsolver : engine.solver.Decides) :
    Possible engine.setting parser [] := by
  obtain ⟨s', hstart, hsat⟩ := h
  exact (hs.idle).possible hstart ((hsolver.isSat_check s').mp hsat)

section

variable (henv : engine.setting.Uniform) (hsolver : engine.solver.Decides)

include henv hsolver

theorem Refused.not_possible (hs : HandedOn engine s) (hclean : (s.renew engine.options).formulas = [])
    (h : Refused engine parser s) : ¬ Possible engine.setting parser [] := by
  rintro hpossible
  rcases h with ⟨s', hstart⟩ | ⟨s', hstart, hunsat⟩
  · obtain ⟨st, n, htrail, -⟩ := hpossible
    exact htrail.not_impossible hstart
  · have hidle := hs.idle
    have htrail := (hidle.start hstart).trail
    have hsat := (htrail.possible_iff henv).mp hpossible
    obtain ⟨-, ctx, t, hctx, ⟨hfalse, -⟩ | ⟨fs, -, rfl, -⟩⟩ := start_ok hstart
    · cases hfalse
    · have hformulas : (s.begun engine.options fs t).formulas = fs := by
        change ((s.renew engine.options).assert fs).formulas = fs
        rw [formulas_assert, hclean, nil_append]
      rw [standing_begun _ _ _ _ hidle.levels] at hsat
      have hsat' : Satisfiable (s.begun engine.options fs t).formulas := by
        simpa [hformulas, Standing.constraints] using hsat
      rw [← hsolver.isSat_check, hunsat] at hsat'
      cases hsat'

/-- A packet is found for a parser path whichever outcomes are inferred elsewhere, if constraints are
kept or the path solver is the same. -/
theorem Begun.not_refused
    {tables' branches' : Bool} (hs : HandedOn (engine.solving keep tables branches) s)
    (hs' : HandedOn (engine.solving keep tables' branches') s')
    (hsame : keep = true ∨ s = s') (h : Begun (engine.solving keep tables branches) parser s) :
    ¬ Refused (engine.solving keep tables' branches') parser s' := by
  intro hrefused
  have henv' := Engine.uniform_solving keep tables' branches' engine henv
  rcases hsame with rfl | rfl
  · have hclean := hs'.formulas_renew (.inl rfl)
    have hpossible := h.possible hs hsolver
    exact hrefused.not_possible henv' hsolver hs' hclean
      ((Possible.solving ..).mpr ((Possible.solving ..).mp hpossible))
  · refine hrefused.not_begun ?_
    obtain ⟨s', hstart, hsat⟩ := h
    exact ⟨s', (start_solving ..).trans hstart, hsat⟩

end

end Options

end

/-- Inferred outcomes do not change the test cases. Whichever outcomes are inferred at tables and at
conditionals, the paths that give test cases are the same, in the same order and with the same
outcomes, once the streams of a parser path have ended. The path solvers may have followed other
parser paths before if constraints are kept, and are the same otherwise. -/
theorem test_cases_same_of_inferring {engine : Engine} {parser : ParserPath}
    {keep tables branches tables' branches' : Bool} {s s' : PathSolver} {x x' : Exploration}
    {found found' : List Finding} (hcoverage : engine.options.edgeCoverage = false)
    (henv : engine.setting.Uniform) (hsolver : engine.solver.Decides)
    (hs : HandedOn (engine.solving keep tables branches) s)
    (hs' : HandedOn (engine.solving keep tables' branches') s') (hsame : keep = true ∨ s = s')
    (hended : Reaches (engine.solving keep tables branches) parser s .ended x found)
    (hended' : Reaches (engine.solving keep tables' branches') parser s' .ended x' found') :
    testCasePaths found = testCasePaths found' := by
  have henv₁ := Engine.uniform_solving keep tables branches engine henv
  have henv₂ := Engine.uniform_solving keep tables' branches' engine henv
  have hlisted := hended.listed henv₁ hsolver hcoverage (hs.idle)
  have hlisted' := hended'.listed henv₂ hsolver hcoverage (hs'.idle)
  have hsame' : keep = true ∨ s' = s := hsame.imp_right Eq.symm
  rcases hlisted with ⟨hbegun, hlisting⟩ | ⟨hrefused, hnone⟩
  · rcases hlisted' with ⟨-, hlisting'⟩ | ⟨hrefused', -⟩
    · exact hlisting.solving.unique henv hlisting'.solving
    · exact absurd hrefused' (hbegun.not_refused henv hsolver hs hs' hsame)
  · rcases hlisted' with ⟨hbegun', -⟩ | ⟨-, hnone'⟩
    · exact absurd hrefused (hbegun'.not_refused henv hsolver hs' hs hsame')
    · rw [hnone, hnone']

/-! ## A port that does not exist

A pipeline with two tables. One action of the first table sends the packet to a port that
does not exist, so no packet takes it, but that is not seen if outcomes are inferred at
tables. -/

namespace NoPort

def edges : List (Label × List ControlEdge) :=
  [(.text "t1", [edge "t1" "send" (.text "t2"), edge "t1" "skip" (.text "t2")]),
   (.text "t2", [edge "t2" "skip" .null])]

def setting : Setting where
  options := {}
  program := program [metadata "standard_metadata" [("egress_spec", 9)]]
    [action "send" [assign "standard_metadata" "egress_spec" 300], action "skip" []]
  pipeline := pipeline ["t1", "t2"] []

noncomputable def engine : Engine := Small.engine setting "t1" edges

/-- The number of paths that were looked at, and of those that give test cases. -/
def counted (found : List Finding) : Nat × Nat := (found.length, (testCasePaths found).length)

end NoPort

open NoPort in
/-- One path more is looked at if outcomes are inferred, and one path gives a test case either way. -/
theorem test_cases_same_of_inferring_port :
    ∃ x x' found found', engine.options.edgeCoverage = false ∧ engine.setting.Uniform ∧
      engine.solver.Decides ∧ HandedOn (engine.solving true true true) {} ∧
      HandedOn (engine.solving true false false) {} ∧
      Reaches (engine.solving true true true) Small.parserPath {} .ended x found ∧
      Reaches (engine.solving true false false) Small.parserPath {} .ended x' found' ∧
      counted found = (5, 1) ∧ counted found' = (4, 1) ∧ testCasePaths found = testCasePaths found' := by
  have hrun : ((engine.solving true true true).findings? Small.parserPath {} 10).map counted =
      some (5, 1) := by decide +kernel
  have hrun' : ((engine.solving true false false).findings? Small.parserPath {} 10).map counted =
      some (4, 1) := by decide +kernel
  obtain ⟨found, hfound, hcounted⟩ := Option.map_eq_some_iff.mp hrun
  obtain ⟨found', hfound', hcounted'⟩ := Option.map_eq_some_iff.mp hrun'
  obtain ⟨x, hreaches⟩ := reaches_of_findings hfound
  obtain ⟨x', hreaches'⟩ := reaches_of_findings hfound'
  have huniform : engine.setting.Uniform := Small.uniform rfl
  exact ⟨x, x', found, found', rfl, huniform, Solver.ideal_decides _, .new, .new, hreaches, hreaches', hcounted,
    hcounted', test_cases_same_of_inferring rfl huniform (Solver.ideal_decides _) .new .new (.inl rfl)
      hreaches hreaches'⟩

end PacketSmith
