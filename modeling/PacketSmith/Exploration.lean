import PacketSmith.PathSolver
import PacketSmith.Statistics
import PacketSmith.TestCase

/-!
# Exploring the paths of a pipeline

For a parser path, the control paths are visited one edge after the other. A path is solved at each visit, and the
walk goes on from it only if a packet takes it.
-/

namespace PacketSmith

variable (engine : Engine)

structure Engine where
  setting : Setting
  solver : Solver
  draw : Nat → Nat
  graph : Graph Label ControlStep
  start : Label
  places : Dict (Option SourceInfo) (List Label)
  switchLog : Nat → List String

abbrev Engine.options : Options := engine.setting.options

structure PathResult where
  parser : ParserPath
  control : ControlPath
  outcome : Outcome

inductive Finding where
  | parser (path : ParserPath) (possible : Bool)
  | control (r : PathResult)

structure Progress where
  statistics : Statistics := {}
  results : Dict (List EdgeKey × List EdgeKey) PathResult := {}
  drawn : Nat := 0
  cases : List TestCase := []
  findings : List Finding := []

abbrev Run := StateT Progress (Except Fault)

namespace Run

def count (f : Statistics → Statistics) : Run Unit :=
  modify fun p => { p with statistics := f p.statistics }

def countCall : Run Unit := count fun s => { s with solverCalls := s.solverCalls + 1 }

def note (f : Finding) : Run Unit := modify fun p => { p with findings := f :: p.findings }

def report (r : PathResult) : Run Unit :=
  modify fun p =>
    let key := (Edge.parserKeys r.parser, r.control.map Edge.controlKey)
    { p with results := p.results.alter key r fun old => { old with outcome := r.outcome } }

def takeDraws (n : Nat) : Run (Nat → Nat) := do
  let used := (← get).drawn
  modify fun p => { p with drawn := used + n }
  return fun i => engine.draw (used + i)

def addCase (t : TestCase) : Run Unit :=
  modify fun p => { p with
    cases := t :: p.cases
    statistics.testCases := p.statistics.testCases + 1 }

end Run

structure Exploration where
  solver : PathSolver
  parserPath : ParserPath
  successes : Nat := 0
  finished : List EdgeKey := []
  visits : Dict EdgeKey Nat := {}

abbrev Explore := StateT Exploration Run

structure PathModel where
  path : ProgramPath
  outcome : Outcome

namespace Explore

variable (control : ControlPath)

def update (f : PathSolver → PathSolver) : Explore Unit :=
  modify fun x => { x with solver := f x.solver }

def solve : Explore Outcome := do
  Run.countCall
  let (outcome, s) := (← get).solver.solve engine.solver
  update fun _ => s
  return outcome

def assertPath : Explore Unit := do
  let s ← ((← get).solver.refresh engine.options).extend engine.setting control
  update fun _ => s

def judge (complete : Bool) : Explore (Outcome × Option PathModel) := do
  let x ← get
  match ← x.solver.quick engine.setting control complete with
  | some (outcome, s) =>
    update fun _ => s
    return (outcome, none)
  | none =>
    let outcome ← solve engine
    return (outcome, some ⟨⟨x.solver.pathId, x.parserPath, control, complete⟩, outcome⟩)

def solvePath (complete : Bool) : Explore (Outcome × Option PathModel) := do
  assertPath engine control
  judge engine control complete

def log (outcome : Outcome) (complete : Bool) : Explore Unit := do
  if engine.options.recordStatistics then
    Run.count fun s =>
      let line : StatisticsRecord := ⟨outcome, s.testCases, s.coveredEdges⟩
      { s with visits := s.visits + 1, log := if complete then line :: s.log else s.log }
    require ((← getThe Progress).statistics.visits % 100 != 0) .noPart
  else pure ()

def report (r : PathResult) (complete : Bool) : Explore Unit := do
  if r.outcome.isReported complete then
    Run.report r
    modify fun x => { x with successes := x.successes + (r.outcome == .success).toNat }
    Run.count fun s => s.countOutcome r.outcome
  else pure ()

def record (complete : Bool) (outcome : Outcome) : Explore Unit := do
  let path := (← get).parserPath
  Run.note (.control ⟨path, control, outcome⟩)
  Run.count fun s => s.countPath path control complete outcome
  log engine outcome complete
  report ⟨path, control, outcome⟩ complete

def verdict (outcome : Outcome) : Explore Verdict := do
  let successes : Int := (← get).successes
  let enough := (engine.options.maxPathsPerParserPath.map fun most => decide (successes ≥ most)).getD false
  return if enough || outcome != .success then .retreat else .proceed

def visitPath (complete : Bool) : Explore (Outcome × Option PathModel) := do
  let (outcome, model) ← solvePath engine control complete
  record engine control complete outcome
  return (outcome, model)

def pathCoverage : Visitor Explore Label ControlStep PathModel where
  order _ edges := return edges
  visit control complete := do
    update PathSolver.push
    let (outcome, model) ← visitPath engine control complete
    return (← verdict engine outcome, model)
  backtrack := update (PathSolver.pop engine.options)

/-! ## Edge coverage -/

def insertByRank (rank : ControlEdge → Nat) (e : ControlEdge) : List ControlEdge → List ControlEdge
  | [] => [e]
  | a :: rest => if rank e ≤ rank a then e :: a :: rest else a :: insertByRank rank e rest

def sortByRank (rank : ControlEdge → Nat) (edges : List ControlEdge) : List ControlEdge :=
  edges.foldr (insertByRank rank) []

/-- The edges in the order in which they are put on the stack: finished ones at the bottom, and of
each kind those that were taken most often. -/
def leastVisited (x : Exploration) (edges : List ControlEdge) : List ControlEdge :=
  let isFinished (e : ControlEdge) : Bool := x.finished.contains e.controlKey
  let sorted := sortByRank fun e => x.visits.getD e.controlKey 0
  (sorted (edges.filter fun e => !isFinished e) ++ sorted (edges.filter isFinished)).reverse

def nothingNew (x : Exploration) (control : ControlPath) : Bool :=
  ((control.getLast?).map fun e => x.finished.contains e.controlKey).getD false &&
    control.all fun e => x.visits.getD e.controlKey 0 > 0

def finishEdge (graph : Graph Label ControlStep) (done : List EdgeKey) (e : ControlEdge) :
    List EdgeKey :=
  if (graph.outEdges e.dst).all fun e' => done.contains e'.controlKey then e.controlKey :: done
  else done

def finish (graph : Graph Label ControlStep) (control : ControlPath) (x : Exploration) :
    Exploration :=
  let last := (control.getLast?).toList.map Edge.controlKey
  { x with finished := control.dropLast.reverse.foldl (finishEdge graph) (last ++ x.finished) }

def countVisits (x : Exploration) : Exploration :=
  { x with visits := control.foldl (fun d e => d.alter e.controlKey 0 (· + 1)) x.visits }

def cover (graph : Graph Label ControlStep) (control : ControlPath) (complete : Bool)
    (outcome : Outcome) (x : Exploration) : Exploration :=
  if outcome == .success && complete then finish graph control (countVisits control x) else x

def edgeCoverage : Visitor Explore Label ControlStep PathModel where
  order _ edges := return leastVisited (← get) edges
  visit control complete := do
    update PathSolver.push
    if nothingNew (← get) control then return (.retreat, none)
    else
      let (outcome, model) ← visitPath engine control complete
      modify (cover engine.graph control complete outcome)
      return (← verdict engine outcome, model)
  backtrack := update (PathSolver.pop engine.options)

def visitor : Visitor Explore Label ControlStep PathModel :=
  if engine.options.edgeCoverage then edgeCoverage engine else pathCoverage engine

end Explore

end PacketSmith
