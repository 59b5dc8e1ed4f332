import PacketSmith.Graph.Walk
import PacketSmith.Program.Basic
import PacketSmith.Program.Edge

/-!
# Parser graphs and the paths through them

The graph of a parser has its states as nodes and one more node, `sink`, where every path ends. A path that has
extracted into a stack more often than the stack is high can go on only through an error.
-/

namespace PacketSmith

namespace Program

def parser (p : Program) : Except Fault Parser :=
  match p.parsers.get? "parser" with
  | some found => .ok found
  | none => .error (.missing "parser")

def parseState (p : Program) (name : String) : Except Fault ParseState := do
  let parser ← p.parser
  match parser.states.get? name with
  | some s => return s
  | none => throw (.missing name)

def stack (p : Program) (name : Label) : Except Fault Stack :=
  match p.headerStacks.get? name with
  | some s => .ok s
  | none => .error (.missing name)

def edgesOfState (states : Dict String ParseState) (s : ParseState) :
    Except Fault (List ParserEdge) := do
  let transitions ← s.transitions.mapM fun t => do
    match ← Parser.follow states t with
    | some next => return ⟨s.name, next, .transition t⟩
    | none =>
      require (t.destination == .text Transition.sink)
      return ⟨s.name, Transition.sink, .transition t⟩
  let errors : List ParserEdge := s.errors.map fun e => ⟨s.name, Transition.sink, .error e⟩
  return transitions ++ errors

def parserGraph (p : Program) : Except Fault (Graph String ParserStep) := do
  let parser ← p.parser
  let edges ← parser.states.values.mapM (edgesOfState parser.states)
  return edges.flatten.foldl Graph.addEdge .empty

/-! ## Paths -/

def countExtracts (p : Program) (counts : Dict Label Nat) (node : String) :
    Except Fault (Dict Label Nat) :=
  if node = Transition.sink then .ok counts
  else do
    let s ← p.parseState node
    s.stackExtracts.foldlM (fun counts name => do
      return counts.alter (← name.key) 0 (· + 1)) counts

def stackCounts (p : Program) (path : ParserPath) : Except Fault (Dict Label Nat) :=
  match path with
  | [] => .ok {}
  | first :: _ => do
    let counts ← p.countExtracts {} first.src
    path.foldlM (fun counts e => p.countExtracts counts e.dst) counts

def overfull (p : Program) : List (Label × Nat) → Except Fault Bool
  | [] => .ok false
  | (name, n) :: rest => do
    let s ← p.stack name
    if s.size < n then return true else p.overfull rest

/-- Takes transitions that have the same ends as one edge. Errors come first, then the edges in
the order in which their ends were first met. -/
def collapse (edges : List ParserEdge) : List ParserEdge :=
  let target (e : ParserEdge) : Option Label :=
    match e.label with
    | .transition t => some t.target
    | _ => none
  let groups := edges.foldl (fun (d : Dict Label (List ParserEdge)) e =>
    match target e with
    | some next => d.alter next [] (· ++ [e])
    | none => d) {}
  let merged := groups.values.filterMap fun group =>
    match group with
    | [] => none
    | [e] => some e
    | e :: _ => some { e with label := .composite (group.filterMap fun e =>
        match e.label with
        | .transition t => some t
        | _ => none) }
  edges.filter (fun e => !e.label.isTransition) ++ merged

def onward (p : Program) (collapsed : Bool) (path : ParserPath) (edges : List ParserEdge) :
    Except Fault (List ParserEdge) := do
  let counts ← p.stackCounts path
  if ← p.overfull counts.entries then return edges.filter fun e => e.label.isError
  else if collapsed then return collapse edges
  else return edges

def pathVisitor (p : Program) (collapsed : Bool) :
    Visitor (Except Fault) String ParserStep ParserPath where
  order := p.onward collapsed
  visit path complete := return (.proceed, if complete then some path else none)
  backtrack := return

/-- A bound on the number of visits: no path is longer than the number of states times the number
of extractions that the stacks allow, and at each of its nodes there are at most as many ways to go
on as edges. -/
def visitBound (p : Program) (g : Graph String ParserStep) : Nat :=
  let extractions := p.headerStacks.values.foldl (fun n s => n + s.size.toNat + 1) 1
  Nat.pow (g.numEdges + 2) ((g.nodes.length + 1) * (extractions + 1) + 1)

def parserPaths (p : Program) (g : Graph String ParserStep) (collapsed : Bool) :
    Except Fault (List ParserPath) := do
  let parser ← p.parser
  match g.outEdges? parser.initState with
  | none => throw (.missing parser.initState)
  | some leaving =>
    let visitor := p.pathVisitor collapsed
    let bound := p.visitBound g
    Walk.collect g Transition.sink visitor bound bound (← Walk.start visitor leaving)

def displayPaths (paths : List ParserPath) : List String :=
  (paths.mergeSort fun a b => a.length ≤ b.length).map fun path =>
    "[" ++ ", ".intercalate (path.map Edge.displayParser) ++ "]"

end Program

end PacketSmith
