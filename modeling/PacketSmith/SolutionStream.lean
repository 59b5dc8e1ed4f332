import PacketSmith.Exploration

/-!
# Solutions, one after the other

The solutions of a parser path come one at a time: for each control path that gives a test case, one solution or
several, between which the lengths of extractions may have to vary.
-/

namespace PacketSmith

structure Solution where
  path : ProgramPath
  outcome : Outcome
  constraints : List (List Formula)
  context : Context
  packet : Packet
  model : Assignment

namespace Explore

def fixRandom (engine : Engine) : Explore (List Formula) := do
  update PathSolver.push
  let s := (← get).solver
  if s.isSat then
    let n := s.packet.displacements.length + s.context.displacements.length
    let fixed := s.randomConstraints (← Run.takeDraws engine n)
    update (PathSolver.assert fixed)
    let _ ← solve engine
    require (← get).solver.isSat
    return fixed
  else return []

def fixDraws (engine : Engine) (m : PathModel) : Explore (List Formula) :=
  if m.path.complete then fixRandom engine else pure []

def solution (engine : Engine) (m : PathModel) : Explore Solution := do
  let fixed ← fixDraws engine m
  let s := (← get).solver
  let some ρ := s.model? | throw .sortMismatch
  return ⟨m.path, m.outcome, s.constraints ++ [fixed], s.context, s.packet, ρ⟩

def release (engine : Engine) (m : PathModel) : Explore Unit :=
  if m.path.complete then update (PathSolver.pop engine.options) else pure ()

/-- Whether further solutions are asked for even if no lengths vary. -/
def wantsMore (engine : Engine) : Bool :=
  match engine.options.maxTestCasesPerPath with
  | some n => n != 0
  | none => false

def another (engine : Engine) (m : PathModel) : Explore (Option Solution) := do
  release engine m
  let (varied, s) ← (← get).solver.varyLengths engine.options.variation
  update fun _ => s
  if !varied && !wantsMore engine then return none
  else
    let outcome ← solve engine
    if outcome == .noPacketFound then return none
    else
      require (outcome == m.outcome)
      return some (← solution engine m)

end Explore

inductive StreamStage where
  | waiting
  | walking (walk : Walk Label ControlStep)
  | yielded (walk : Walk Label ControlStep) (model : PathModel) (count : Nat)
  | ended

structure SolutionStream where
  exploration : Exploration
  stage : StreamStage := .waiting

namespace SolutionStream

def of (path : ParserPath) (solver : PathSolver) : SolutionStream :=
  { exploration := { solver := solver, parserPath := path } }

def numberedFrom (fresh : Nat) (s : SolutionStream) : SolutionStream :=
  { s with exploration.solver.fresh := fresh }

def begin (engine : Engine) : Explore StreamStage := do
  let x ← get
  let (possible, s) ← x.solver.start engine.setting x.parserPath
  if !possible then
    Run.note (.parser x.parserPath false)
    set { x with solver := s }
    return .ended
  else
    Run.countCall
    let s := s.check engine.solver
    Run.note (.parser x.parserPath s.isSat)
    set { x with solver := s.refresh engine.options }
    if s.isSat then
      return .walking (← Walk.start (Explore.visitor engine) (engine.graph.outEdges engine.start))
    else return .ended

def step (engine : Engine) : StreamStage → Explore (Option Solution × StreamStage)
  | .waiting => do return (none, ← begin engine)
  | .walking w => do
    match ← Walk.move engine.graph .null (Explore.visitor engine) w with
    | (none, w) => return (none, if w.ended then .ended else .walking w)
    | (some m, w) =>
      if m.outcome.givesTestCase m.path.complete then
        return (some (← Explore.solution engine m), .yielded w m 1)
      else return (none, .walking w)
  | .yielded w m n => do
    if engine.options.maxTestCasesPerPath = some n then
      Explore.release engine m
      return (none, .walking w)
    else
      match ← Explore.another engine m with
      | some s => return (some s, .yielded w m (n + 1))
      | none => return (none, .walking w)
  | .ended => return (none, .ended)

def advance (engine : Engine) : Nat → StreamStage → Explore (Option Solution × StreamStage)
  | 0, stage => return (none, stage)
  | fuel + 1, stage => do
    match ← step engine stage with
    | (some s, stage) => return (some s, stage)
    | (none, .ended) => return (none, .ended)
    | (none, stage) => advance engine fuel stage

def stepLimit (engine : Engine) : Nat := 2 * engine.graph.walkBound + 3

/-- The next solution, or none where the stream has ended. -/
def next (engine : Engine) (s : SolutionStream) : Run (Option Solution × SolutionStream) := do
  let ((found, stage), x) ← (advance engine (stepLimit engine) s.stage).run s.exploration
  return (found, ⟨x, stage⟩)

end SolutionStream

end PacketSmith
