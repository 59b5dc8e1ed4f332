import PacketSmith.Consolidate.Batch
import PacketSmith.Decide.Solver
import PacketSmith.Graph.Count
import PacketSmith.Graph.Fault
import PacketSmith.Switch.Playback

/-!
# Generating test cases

*In a row.* One path solver follows the parser paths one after the other, each of them to its end. *In turns.* Each
parser path has a path solver of its own, and after each solution the next parser path has its turn. The path solvers
number their paths each for itself, but the variables that stand for fields that were not set together.

A run ends early once there are as many test cases as the options ask for. A number that is not positive asks for
all. With shared table entries a solution goes into a batch, and otherwise it gives a test case at once.
-/

namespace PacketSmith

structure Generated where
  progress : Progress
  switches : List (List SwitchCall)

structure Generation where
  batch : Option Batch
  switches : List (List SwitchCall) := []

abbrev Produce := StateT Generation Run

namespace Produce

def enough (engine : Engine) : Produce Bool := do
  match engine.options.numTestCases with
  | none => return false
  | some most => return most > 0 && ((← getThe Progress).statistics.testCases : Int) ≥ most

def playSwitch (engine : Engine) (t : TestCase) : Produce Unit := do
  let started := (← get).switches.length
  let (calls, result) := t.play engine.places (engine.switchLog started)
  modify fun g => { g with switches := calls.toList ++ g.switches }
  result

def writeCase (engine : Engine) (s : Solution) : Produce Unit := do
  let t ← TestCase.build engine.setting s.context s.packet s.path (some s.model)
  require (t.outcome == s.outcome)
  if engine.options.runSimpleSwitch then playSwitch engine t
  Run.addCase t

def take (engine : Engine) (s : Solution) : Produce Unit := do
  match (← get).batch with
  | some b =>
    let b ← b.add engine s
    modify fun g => { g with batch := some b }
  | none => writeCase engine s

/-- The number of solutions that may be asked for. A run that asks for more is taken for one that
does not end. -/
def solutionLimit : Nat := 1000000000

/-- Takes the solutions of a source until it has no more or there are enough test cases, and says
which of the two it was. -/
def takeFrom {σ : Type} (engine : Engine) (next : σ → Run (Option Solution × σ)) :
    Nat → σ → Produce (Bool × σ)
  | 0, _ => throw .endless
  | fuel + 1, source => do
    match ← next source with
    | (none, source) => return (false, source)
    | (some s, source) =>
      take engine s
      if ← enough engine then return (true, source) else takeFrom engine next fuel source

def drain (engine : Engine) : Nat → SolutionStream → Produce (Bool × SolutionStream) :=
  takeFrom engine fun stream => stream.next engine

/-- Takes the solutions of one parser path after another. -/
def inRow (engine : Engine) : PathSolver → List ParserPath → Produce Unit
  | _, [] => pure ()
  | solver, path :: rest => do
    Run.count fun s => s.countParserPath path
    let (full, stream) ← drain engine solutionLimit (SolutionStream.of path solver)
    if full then pure () else inRow engine stream.exploration.solver rest

/-- Takes one solution of each stream in turn. -/
def inTurns (engine : Engine) : Nat → Nat → List SolutionStream → Produce Unit
  | _, _, [] => pure ()
  | 0, _, _ :: _ => throw .endless
  | fuel + 1, fresh, stream :: rest => do
    match ← (stream.numberedFrom fresh).next engine with
    | (none, stream) => inTurns engine fuel stream.exploration.solver.fresh rest
    | (some s, stream) =>
      take engine s
      if ← enough engine then pure ()
      else inTurns engine fuel stream.exploration.solver.fresh (rest ++ [stream])

def turnByTurn (engine : Engine) (paths : List ParserPath) : Produce Unit := do
  paths.forM fun path => Run.count fun s => s.countParserPath path
  inTurns engine solutionLimit 0 (paths.map fun path => SolutionStream.of path {})

def explore (engine : Engine) (paths : List ParserPath) : Produce Unit :=
  if engine.options.roundRobinParserPaths then turnByTurn engine paths else inRow engine {} paths

/-- Writes the test cases of the solutions that are still in the batch. -/
def leave (engine : Engine) : Produce Unit := do
  match (← get).batch with
  | some b =>
    let _ ← b.flush engine
  | none => pure ()

def all (engine : Engine) (paths : List ParserPath) : Produce Unit := do
  explore engine paths
  leave engine

end Produce

structure Loaded where
  setting : Setting
  parserGraph : Graph String ParserStep
  control : ControlGraph

namespace Loaded

def ofJson (o : Options) (files : ExternFiles) (source : Json) : Except Fault Loaded := do
  let p ← Program.ofJson o.packetLengthErrors source
  let parserGraph ← p.parserGraph
  let pipeline ← p.pipeline "ingress"
  let control ← p.controlGraph pipeline
  let externs ← Extern.load files o p
  return { setting := ⟨o, p, pipeline, externs⟩, parserGraph := parserGraph, control := control }

def engine (l : Loaded) (solver : Solver) (draw : Nat → Nat) (switchLog : Nat → List String) :
    Engine :=
  let (start, graph) := Program.pathGraph l.setting.pipeline l.control
  { setting := l.setting, solver := solver, draw := draw, graph := graph, start := start,
    places := l.control.places, switchLog := switchLog }

def parserPaths (l : Loaded) : Except Fault (List ParserPath) := do
  let p := l.setting.program
  let paths ← p.parserPaths l.parserGraph l.setting.options.collapseParserPaths
  if paths.isEmpty then throw .malformed
  return paths

def countPaths (l : Loaded) : Except Fault (Nat × Nat × Nat) :=
  Graph.named (l.control.graph.countPaths (· == .null) l.setting.pipeline.initTable.asLabel)

def generate (l : Loaded) (solver : Solver) (draw : Nat → Nat) (switchLog : Nat → List String) :
    Except Fault Generated := do
  let _ ← l.countPaths
  let paths ← l.parserPaths
  let engine := l.engine solver draw switchLog
  let batch ← if engine.options.consolidateTables.isSome then some <$> Batch.start engine
    else pure none
  let ((_, g), progress) ← ((Produce.all engine paths).run { batch := batch }).run {}
  return ⟨progress, g.switches⟩

end Loaded

namespace Generated

def display (g : Generated) : String :=
  let rows := g.progress.results.values.map fun r =>
    let states := r.parser.map (fun e => Text.quoted e.src) ++ [Text.quoted Transition.sink]
    let nodes := r.control.map fun e => "(" ++ e.src.inner ++ ", " ++ e.displayControl ++ ")"
    "(" ++ ", ".intercalate (states ++ nodes) ++ "): " ++ r.outcome.display
  "\x7b " ++ ", ".intercalate rows ++ " \x7d"

def report (g : Generated) (l : Loaded) : Except Fault (List String) := do
  let o := l.setting.options
  let paths ← if o.showParserPaths then Program.displayPaths <$> l.parserPaths else pure []
  let s := g.progress.statistics
  return paths ++ s.summary ++ s.outcomeLines ++ if o.dumpTestCase then [g.display] else []

end Generated

end PacketSmith
