import PacketSmith.ControlGraph
import PacketSmith.Text.Lines

/-!
# Drawings of control graphs

The calls that draw a control graph. A conditional is an oval, red if it asks whether a header is valid, and a table
is a box. An action that adds or removes headers colours its edges green and counts both.
-/

namespace PacketSmith

inductive DrawCall where
  | comment (text : Label)
  | node (name label : Label) (shape color : String)
  | edge (src : Label) (dst : String) (label : Option String) (color style : String)
      (constraint : Option String)
  | render (file : String)

namespace Drawing

def nodeName (l : Label) : String := if l == .null then "null" else l.display

def ancestorCalls (ancestors : Dict Label Label) (node : Label) : List DrawCall :=
  match ancestors.get? node with
  | none => []
  | some a => [.edge (.text (nodeName node)) a.display none "orange" "dashed" (some "false")]

def headerChanges (a : Action) : Nat × Nat :=
  let count (name : String) := a.primitives.countP fun c => c.op == .str name
  (count "add_header", count "remove_header")

def branchCall (node : Label) (e : ControlEdge) : Except Fault DrawCall :=
  match e.label with
  | .branch value _ =>
    .ok (.edge node (nodeName e.dst) (some (Edge.displayBool value)) "black" "dashed" none)
  | _ => .error .noPart

def actionCall (p : Program) (node : Label) (e : ControlEdge) : Except Fault DrawCall :=
  match e.label with
  | .action name id _ | .constAction name id _ => do
    let (added, removed) := headerChanges (← p.action (name, id))
    let label :=
      (if added > 0 then s!"+{added}" else "") ++ (if removed > 0 then s!"-{removed}" else "")
    let color := if added + removed > 0 then "green" else "black"
    return .edge node (nodeName e.dst) (some label) color "solid" none
  | _ => .error .violated

def conditionalStyle (node : Label) (edges : List ControlEdge) : Except Fault (Label × String) :=
  match edges with
  | [] => .ok (node, "black")
  | e :: _ =>
    match e.label with
    | .branch _ none => .ok (.text (node.display ++ " (line -1)\n"), "black")
    | .branch _ (some s) =>
      match s.fragment with
      | .text fragment =>
        let color := if Text.holds fragment "isValid" then "red" else "black"
        .ok (.text (node.display ++ " (line " ++ s.line.display ++ ")\n" ++
          Text.breakLines 40 fragment), color)
      | _ => .error .wrongKind
    | _ => .error .violated

def nodeCalls (p : Program) (pipeline : Pipeline) (g : Graph Label ControlStep) (node : Label) :
    Except Fault (List DrawCall) := do
  let edges := g.outEdges node
  if pipeline.conditionals.contains node then
    let (label, color) ← conditionalStyle node edges
    return .node node label "oval" color :: (← edges.mapM (branchCall node))
  else if pipeline.tables.contains node then
    return .node node node "box" "black" :: (← edges.mapM (actionCall p node))
  else throw .violated

def calls (p : Program) (pipeline : Pipeline) (g : Graph Label ControlStep)
    (ancestors : Dict Label Label) : Except Fault (List DrawCall) := do
  let nodes ← g.nodes.mapM fun node => do
    let own ← if node == .null then pure [] else nodeCalls p pipeline g node
    return ancestorCalls ancestors node ++ own
  return .comment pipeline.name :: nodes.flatten ++
    [.render (pipeline.name.display ++ "_dot.gv")]

def both (p : Program) : Except Fault (List DrawCall) := do
  let ingress ← p.pipeline "ingress"
  let first ← p.controlGraph ingress
  let egress ← p.pipeline "egress"
  let second ← p.controlGraph egress
  return (← calls p ingress first.graph {}) ++ (← calls p egress second.graph {})

/-! ## Drawings in the DOT language

The calls that draw a graph become the lines of a description that layout programs read.
A drawing ends where it is written to a file, so a list of calls may give several files.
-/

def dotText (s : String) : String :=
  let char : Char → String
    | '"' => "\\\""
    | '\n' => "\\n"
    | c => c.toString
  "\"" ++ String.join (s.toList.map char) ++ "\""

def dotAttributes (attributes : List (String × String)) : String :=
  " [" ++ " ".intercalate (attributes.map fun (name, value) => name ++ "=" ++ dotText value) ++ "]"

def dotLine : DrawCall → Option String
  | .node name label shape color =>
    some (dotText name.display ++
      dotAttributes [("label", label.display), ("color", color), ("shape", shape)])
  | .edge src dst label color style constraint =>
    let optional (name : String) (value : Option String) : List (String × String) :=
      (value.map fun v => (name, v)).toList
    some (dotText src.display ++ " -> " ++ dotText dst ++
      dotAttributes (optional "label" label ++ [("color", color)] ++
        optional "constraint" constraint ++ [("style", style)]))
  | _ => none

def dotFile (comment : String) (lines : List String) : String :=
  "// " ++ comment ++ "\ndigraph \x7b\n" ++ String.join (lines.map fun l => "\t" ++ l ++ "\n") ++ "\x7d\n"

def dotFilesFrom (comment : String) (lines : List String) : List DrawCall → List (String × String)
  | [] => []
  | .comment text :: rest => dotFilesFrom text.display [] rest
  | .render file :: rest => (file, dotFile comment lines) :: dotFilesFrom comment [] rest
  | call :: rest => dotFilesFrom comment (lines ++ (dotLine call).toList) rest

def dotFiles (calls : List DrawCall) : List (String × String) := dotFilesFrom "" [] calls

end Drawing

end PacketSmith
