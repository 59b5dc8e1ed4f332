import PacketSmith.Outcome
import PacketSmith.Solver
import PacketSmith.Symbolic.ParserPath

/-!
# Solving along a path

A path solver follows a parser path and then a control path, edge by edge, and can go back.
-/

namespace PacketSmith

structure Level where
  context : Context := {}
  outcomes : List Outcome := []
  constraints : List Formula := []

/-- What is asserted, and a level for each edge of the path to go back to. -/
structure PathSolver where
  frames : List (List Formula) := [[], []]
  answer : Option Answer := none
  base : Level := {}
  levels : List Level := []
  pathId : Int := -1
  tally : Tally := {}
  fresh : Nat := 0
  packet : Packet := {}

namespace PathSolver

variable (s : PathSolver) (env : Setting) (o : Options)

/-! ## Levels and frames -/

def top : Level := s.levels.headD s.base

def context : Context := s.top.context

def formulas : List Formula := s.frames.reverse.flatten

def constraints : List (List Formula) :=
  s.base.constraints :: s.levels.reverse.map Level.constraints

def assert (fs : List Formula) (s : PathSolver) : PathSolver :=
  { s with
    frames := match s.frames with
      | [] => [fs]
      | frame :: rest => (frame ++ fs) :: rest }

def push : PathSolver :=
  { s with
    pathId := s.pathId + 1
    frames := [] :: s.frames
    levels := { context := s.context } :: s.levels }

def pop (s : PathSolver) : PathSolver :=
  { s with
    frames := if o.incremental then s.frames.tail else s.frames
    levels := s.levels.tail }

def reset : PathSolver := { s with frames := [[]] }

def refresh (s : PathSolver) : PathSolver := if o.incremental then s else s.reset

def modifyTop (f : Level → Level) (s : PathSolver) : PathSolver :=
  match s.levels with
  | [] => { s with base := f s.base }
  | l :: rest => { s with levels := f l :: rest }

def parent : Level := s.levels.tail.headD s.base

def record (outcome : Outcome) (s : PathSolver) : PathSolver :=
  let add (l : Level) : Level := { l with outcomes := l.outcomes ++ [outcome] }
  match s.levels with
  | l :: l' :: rest => { s with levels := l :: add l' :: rest }
  | _ => { s with base := add s.base }

def run {α : Type} (step : Symbolic α) (s : PathSolver) : Except Fault (α × PathSolver) :=
  let (r, t) := (step.run).run
    { context := s.context, tally := s.tally, fresh := s.fresh, packet := s.packet }
  match r with
  | .error f => .error f
  | .ok a => .ok (a, { s.modifyTop (fun l => { l with context := t.context }) with
      tally := t.tally, fresh := t.fresh, packet := t.packet })

/-! ## Constraints -/

def renew (s : PathSolver) : PathSolver :=
  { s with frames := if o.incremental then [] :: s.frames.tail else s.frames }

def start (path : ParserPath) (s : PathSolver) : Except Fault (Bool × PathSolver) := do
  let s := s.renew env.options
  require s.levels.isEmpty
  let context ← env.program.startContext env.options
  let s := { s with base := { context := context }, tally := {}, packet := {} }
  let (found, s) ← s.run (Symbolic.parserPath env path)
  match found with
  | none => return (false, s)
  | some fs => return (true, { s.assert fs with base.constraints := fs })

def egressConstraint : Symbolic Formula := do
  let ref : FieldRef := (.text "standard_metadata", .text "egress_spec")
  let some a ← Symbolic.read o ref | throw .sortMismatch
  let b ← Symbolic.read o ref
  let low : Formula := .rel .ult a.term (.const (BitVec.ofNat a.width 256))
  let dropped : Formula := match b with
    | some b => .rel .eq b.term (.const (BitVec.ofNat b.width 511))
    | none => .truth false
  return Term.any [low, dropped]

def edgeConstraints : Option ControlEdge → Symbolic (List Formula)
  | some e => Symbolic.controlEdge env e
  | none => return []

def lastConstraints (path : ControlPath) : Symbolic (List Formula) := do
  let added ← edgeConstraints env path.getLast?
  return added ++ [← egressConstraint env.options]

/-- Adds constraints to the current level and asserts them, and without keeping constraints those of
all levels as well. -/
def addConstraints (added : List Formula) (s : PathSolver) : PathSolver :=
  let s := if o.incremental then s else s.assert s.constraints.flatten
  let s := s.modifyTop fun l => { l with constraints := l.constraints ++ added }
  { s.assert added with answer := none }

def extend (path : ControlPath) (s : PathSolver) : Except Fault PathSolver := do
  require (path.length == s.levels.length || !env.options.incremental)
  let (added, s) ← s.run (lastConstraints env path)
  return s.addConstraints env.options added

/-! ## Answers -/

/-- Whether success can be inferred without the solver. -/
def infers (path : ControlPath) (complete : Bool) (s : PathSolver) : Except Fault Bool := do
  let c := s.context
  match path.getLast? with
  | none => return false
  | some e =>
    if complete || !c.uninitializedReads.isEmpty || !c.invalidWrites.isEmpty then return false
    else
      match e.label with
      | .action _ _ _ =>
        if !env.options.tableOpt then return false
        else
          let some t := env.pipeline.tables.get? e.src | throw .violated
          require (!t.hasConstEntries)
          return true
      | .branch _ _ =>
        if !env.options.conditionalOpt then return false
        else
          match s.parent.outcomes with
          | .noPacketFound :: rest =>
            require rest.isEmpty
            return true
          | _ => return false
      | _ => return false

def quick (path : ControlPath) (complete : Bool) (s : PathSolver) : Except Fault (Option (Outcome × PathSolver)) := do
  if ← s.infers env path complete then return some (.success, s.record .success) else return none

def check (solver : Solver) (s : PathSolver) : PathSolver :=
  { s with answer := some (solver s.formulas) }

def isSat : Bool := (s.answer.map Answer.isSat).getD false

def model? : Option Assignment := s.answer.bind Answer.model?

def outcome : Outcome :=
  if !s.isSat then .noPacketFound
  else if !s.context.uninitializedReads.isEmpty then .uninitializedRead
  else if !s.context.invalidWrites.isEmpty then .invalidHeaderWrite
  else .success

def solve (solver : Solver) (s : PathSolver) : Outcome × PathSolver :=
  let s := s.check solver
  (s.outcome, s.record s.outcome)

/-! ## Variation -/

def fixed (draw : Nat → Nat) (displacements : List (Variable × Nat)) : List Formula :=
  displacements.zipIdx.map fun ((name, w), i) =>
    .rel .eq (.var name w) (.const (BitVec.ofNat w (draw i)))

def randomConstraints (draw : Nat → Nat) (s : PathSolver) : List Formula :=
  fixed draw (s.packet.displacements ++ s.context.displacements)

def sameLengths (ρ : Assignment) : List Formula :=
  s.tally.lengths.values.map fun b => .rel .eq b.term (.const (b.term.eval ρ))

def varyLengths (condition : Option String) (s : PathSolver) : Except Fault (Bool × PathSolver) := do
  require (match s.answer with
    | some .unsat | none => false
    | _ => true)
  match condition with
  | none => return (false, s)
  | some condition =>
    if s.tally.lengths.entries.isEmpty then return (false, s)
    else
      let some ρ := s.model? | throw .sortMismatch
      let same := s.sameLengths ρ
      if condition == "and" then return (true, s.assert [.not (Term.all same)])
      else
        require (condition == "or")
        return (true, s.assert [.not (Term.any same)])

end PathSolver

end PacketSmith
