import PacketSmith.Program.Basic
import PacketSmith.Program.Edge

/-!
# Control graphs

The control graph of a pipeline has tables and conditionals as nodes and the node null as its end. A conditional has
an edge for each of its two values.
-/

namespace PacketSmith

structure ControlGraph where
  graph : Graph Label ControlStep := {}
  places : Dict (Option SourceInfo) (List Label) := {}
deriving Inhabited

namespace Table

def sameElements (a b : List Label) : Bool :=
  a.all (fun x => b.contains x) && b.all (fun x => a.contains x)

def isHitResult (t : Table) (name : Label) : Except Fault Bool :=
  let names := t.successors.keys.map Prod.fst
  if sameElements names [.text hitName, .text missName] then .ok true
  else if sameElements names (t.actions.map Prod.fst) then .ok false
  else .error (.straySuccessors name)

def checkPriorities : List TableEntry → Except Fault Unit
  | [] => .ok ()
  | [_] => .ok ()
  | e :: e' :: rest =>
    if e'.priority = e.priority + 1 then checkPriorities (e' :: rest)
    else .error (.priorityGap e'.priority e.priority)

def checkEntries (t : Table) (name : Label) : Except Fault Unit := do
  if t.keyless && t.hasConstEntries then throw (.keylessEntries name t.entries.length)
  checkPriorities t.entries

def successor (t : Table) (action : Label × Int) : Except Fault Label :=
  match t.successors.get? action with
  | some next => .ok next
  | none => .error .missingPair

def outcomeSuccessor (name : String) : Except Fault Label := .error (.missing name)

end Table

namespace Program

def action (p : Program) (key : Label × Int) : Except Fault Action :=
  match p.actions.get? key with
  | some a => .ok a
  | none => .error .missingPair

def constEdges (p : Program) (t : Table) (name : Label) (hitResult : Bool) :
    Nat → List TableEntry → Except Fault (List ControlEdge)
  | _, [] => .ok []
  | i, e :: rest => do
    let a ← p.actionById e.actionId
    let next ← if hitResult then Table.outcomeSuccessor hitName else t.successor (a.name, a.id)
    return ⟨name, next, .constAction a.name a.id i⟩ :: (← p.constEdges t name hitResult (i + 1) rest)

def actionEdges (p : Program) (t : Table) (name : Label) (hitResult byDefault : Bool)
    (actions : List (Label × Int)) : Except Fault (List ControlEdge) :=
  actions.mapM fun a => do
    let next ←
      if hitResult then Table.outcomeSuccessor (if byDefault then missName else hitName)
      else t.successor a
    let _ ← p.action a
    return ⟨name, next, .action a.1 a.2 byDefault⟩

def tableEdges (p : Program) (t : Table) (name : Label) : Except Fault (List ControlEdge) := do
  let hitResult ← t.isHitResult name
  t.checkEntries name
  let hits ←
    if t.keyless then pure []
    else if t.hasConstEntries then p.constEdges t name hitResult 0 t.entries
    else p.actionEdges t name hitResult false t.actions
  let defaults ← if ← t.hasConstDefault then (fun a => [a]) <$> t.defaultAction else pure t.actions
  return hits ++ (← p.actionEdges t name hitResult true defaults)

def conditionalEdges (c : Conditional) (name : Label) : List ControlEdge :=
  [⟨name, c.trueNext, .branch true c.source⟩, ⟨name, c.falseNext, .branch false c.source⟩]

def expand (p : Program) (pipeline : Pipeline) (name : Label) (g : ControlGraph) :
    Except Fault (List ControlEdge × ControlGraph) :=
  match pipeline.tables.get? name with
  | some t => do
    let edges ← p.tableEdges t name
    return (edges, { g with graph := edges.foldl Graph.addEdge g.graph })
  | none =>
    match pipeline.conditionals.get? name with
    | none => .error .violated
    | some c =>
      let edges := conditionalEdges c name
      .ok (edges, {
        graph := edges.foldl Graph.addEdge g.graph
        places := g.places.alter c.source [] (· ++ [name]) })

def meet : List Label → List Label × List Label → List Label × List Label
  | [], s => s
  | next :: rest, (queue, met) =>
    if met.contains next || next == .null then meet rest (queue, met)
    else meet rest (queue ++ [next], met ++ [next])

def expandAll (p : Program) (pipeline : Pipeline) :
    Nat → List Label → List Label → ControlGraph → Except Fault ControlGraph
  | 0, _, _, _ => .error .endless
  | _ + 1, [], _, g => .ok g
  | fuel + 1, name :: queue, met, g => do
    let (edges, g) ← p.expand pipeline name g
    let (queue, met) := meet (edges.map Edge.dst) (queue, met)
    p.expandAll pipeline fuel queue met g

def controlGraph (p : Program) (pipeline : Pipeline) : Except Fault ControlGraph :=
  match pipeline.initTable with
  | .null => .ok {}
  | .str name =>
    p.expandAll pipeline (pipeline.tables.size + pipeline.conditionals.size + 3) [.text name]
      (name.toList.map fun c => .text c.toString) {}
  | _ => .error .wrongKind

def pathGraph (pipeline : Pipeline) (g : ControlGraph) : Label × Graph Label ControlStep :=
  match pipeline.initTable with
  | .null =>
    let start : Label := .text "fake_init_table"
    (start, Graph.empty.addEdge ⟨start, .null, .noop⟩)
  | name => (name.asLabel, g.graph)

def pipeline (p : Program) (name : String) : Except Fault Pipeline :=
  match p.pipelines.get? (.text name) with
  | some found => .ok found
  | none => .error .violated

end Program

end PacketSmith
