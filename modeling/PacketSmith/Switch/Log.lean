import PacketSmith.Program.PathItem
import PacketSmith.Symbolic.Transition
import PacketSmith.Text.Pattern

/-!
# The log of a switch

A switch writes a line for every state, table, action and condition that a packet meets. `Trace.scan` reads off the
lines what the packet visited, up to the end of the ingress.
-/

namespace PacketSmith

inductive Trace where
  | state (name : String)
  | action (table name : String)
  | condition (node : Label) (value : Bool) (place : Option (String × Int × String))
deriving DecidableEq

namespace Trace

def display : Trace → String
  | state name => name
  | action table name => "(" ++ Text.quoted table ++ ", " ++ Text.quoted name ++ ")"
  | condition node value place =>
    let shown := match place with
      | some (file, line, fragment) =>
        "(" ++ Text.quoted file ++ ", " ++ toString line ++ ", " ++ Text.quoted fragment ++ ")"
      | none => "None"
    "(" ++ node.inner ++ ", (" ++ Edge.displayBool value ++ ", " ++ shown ++ "))"

/-! ## Lines -/

inductive Line where
  | parserState (name : String)
  | applying (table : String)
  | runs (action : String)
  | parseError (name : String)
  | conditionAt (file : String) (line : Int) (fragment : String) (node : Option String)
      (value : String)
  | conditionNamed (name value : String)
  | parserEnd
  | packetTooShort
  | ingressEnd
  | noise

def any : Text.Part := .run Text.Part.anything 0 true true

def isWordChar (c : Char) : Bool := c.isAlphanum || c == '_'

def conditionEnd : List Text.Part :=
  [.text "Condition \"", any, .text "\" ", .optional [.text "(", any, .text ") "], .text "is ", any]

def conditionStart : List Text.Part := [.text "[cxt ", .run Text.Part.isDigit 1 true false, .text "] "]

def conditionAtPattern : List Text.Part :=
  conditionStart ++ [.run Text.Part.anything 0 false true, .text "(",
    .run Text.Part.isDigit 1 true true, .text ") "] ++ conditionEnd

def conditionNamedPattern : List Text.Part := conditionStart ++ conditionEnd

def quotedAfter (s : String) : List Text.Part := [.text (s ++ " '"), any, .text "'"]

def wordAfter (s : String) (ofClass : Char → Bool) : List Text.Part :=
  [.text s, .run ofClass 0 true true, .lineEnd]

def patterns : List (List Text.Part × (List (Option String) → Option Line)) := [
  (quotedAfter "Parser state", fun
    | [some name] => some (.parserState name)
    | _ => none),
  (quotedAfter "Applying table", fun
    | [some name] => some (.applying name)
    | _ => none),
  (wordAfter "Action " fun c => isWordChar c || c == '.', fun
    | [some name] => some (.runs name)
    | _ => none),
  (wordAfter "Exception while parsing: " isWordChar, fun
    | [some name] => some (.parseError name)
    | _ => none),
  (conditionAtPattern, fun
    | [some file, some line, some fragment, node, some value] =>
      (Text.int? line).map fun n => .conditionAt file n fragment node value
    | _ => none),
  (conditionNamedPattern, fun
    | [some name, _, some value] => some (.conditionNamed name value)
    | _ => none),
  ([.text "Parser 'parser': end"], fun _ => some .parserEnd),
  ([.text "Exception while parsing: PacketTooShort"], fun _ => some .packetTooShort),
  ([.text "Pipeline 'ingress': end"], fun _ => some .ingressEnd)]

def Line.ofText (s : String) : Line :=
  (Text.firstSome (fun (p, make) => (Text.search p s).bind make) patterns).getD .noise

/-! ## Scanning -/

abbrev Places := Dict (Option SourceInfo) (List Label)

def nodeAt (places : Places) (file : String) (line : Int) (fragment : String) : Except Fault Label :=
  let place : SourceInfo := ⟨.text file, .text fragment, .int line, .null⟩
  match places.entries.find? fun e => (e.1.map fun s => place.same s).getD false with
  | some (_, [node]) => .ok node
  | _ => .error .violated

structure Scan where
  visited : List Trace := []
  table : String := ""
  applied : Bool := false

def Scan.step (places : Places) (s : Scan) (line : String) : Except Fault (Option Scan) :=
  let visit (t : Trace) : Except Fault (Option Scan) :=
    .ok (some { s with visited := t :: s.visited, applied := false })
  match Line.ofText line with
  | .parserState name => visit (.state name)
  | .applying table => .ok (some { s with table := table, applied := true })
  | .runs name =>
    if name == "add_header" then .ok (some s)
    else if s.applied then visit (.action s.table name)
    else .error .violated
  | .parseError name => visit (.state name)
  | .conditionAt file line fragment node value => do
    let node ← match node with
      | some name => pure (.text name)
      | none => nodeAt places file line fragment
    require (value == "true" || value == "false")
    visit (.condition node (value == "true") (some (file, line, fragment)))
  | .conditionNamed name value => visit (.condition (.text name) (value == "true") none)
  | .parserEnd => visit (.state "sink")
  | .packetTooShort => visit (.state "PacketTooShort")
  | .ingressEnd => .ok none
  | .noise => .ok (some s)

def scanIngress (places : Places) : Scan → List String → Except Fault (List Trace × List String)
  | s, [] => .ok (s.visited.reverse, [])
  | s, line :: rest => do
    match ← s.step places (line ++ "\n") with
    | some s => scanIngress places s rest
    | none => return (s.visited.reverse, rest)

/-- Whether a line ends what belongs to a packet. A single quote does not show in a line that has
a double quote as well. -/
def endsPacket (line : String) : Bool :=
  (Text.holds line "Pipeline 'egress': end" && !line.toList.contains '"') ||
    Text.holds line "Dropping packet at the end of ingress"

def scan (places : Places) (lines : List String) : Except Fault (List Trace × List String) := do
  let (visited, rest) ← scanIngress places {} lines
  return (visited, (rest.dropWhile fun line => !endsPacket line).drop 1)

end Trace

namespace Visit

def item (e : ControlEdge) : PathItem :=
  match e.label with
  | .action name id _ => .action e.src e.dst name id
  | .branch value source => .branch e.src e.dst value source
  | .noop => .noop e.src e.dst
  | .constAction _ _ i => .plain i e.src e.dst

def meets : Visit → Trace → Except Fault Bool
  | .state name, .state seen => .ok (name == .text seen)
  | .node e, .action table name =>
    if e.src == .text table then (item e).equal (.value (.str name)) else .ok false
  | .node e, .condition name value place =>
    if e.src == name then
      (item e).equal (.pair (.bool value) (place.map fun (file, line, fragment) =>
        [.str file, .int line, .str fragment]))
    else .ok false
  | _, _ => .ok false

def meetAll : List Visit → List Trace → Except Fault Bool
  | [], [] => .ok true
  | v :: vs, t :: ts => do if ← v.meets t then meetAll vs ts else return false
  | _, _ => .ok false

def agree (vs : List Visit) (ts : List Trace) : Except Fault Bool :=
  if vs.length = ts.length then meetAll vs ts else .ok false

end Visit

end PacketSmith
