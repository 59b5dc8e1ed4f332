import PacketSmith.Graph.Basic
import PacketSmith.Program.Parser
import PacketSmith.Program.Pipeline

/-!
# Edges of parsers and pipelines

Paths are counted and recorded under the keys of their edges. Actions are told apart by name and number only, so the
hit and the miss of one action have one key.
-/

namespace PacketSmith

inductive ParserStep where
  | transition (t : Transition)
  | composite (parts : List Transition)
  | error (e : ParseError)
deriving DecidableEq, Inhabited

abbrev ParserEdge := Edge String ParserStep

inductive ControlStep where
  | action (name : Label) (id : Int) (byDefault : Bool)
  | constAction (name : Label) (id : Int) (entry : Nat)
  | branch (value : Bool) (source : Option SourceInfo)
  | noop
deriving DecidableEq, Inhabited

abbrev ControlEdge := Edge Label ControlStep

abbrev ParserPath := List ParserEdge

abbrev ControlPath := List ControlEdge

inductive EdgeKey where
  | transition (t : Transition)
  | parser (e : ParserEdge)
  | composite (upTo : ParserPath)
  | action (name : Label) (id : Int)
  | control (e : ControlEdge)
  | branch (value : Bool) (source : Option SourceInfo)
  | noop
deriving DecidableEq

namespace ParserStep

def isTransition : ParserStep → Bool
  | transition _ => true
  | _ => false

def isError : ParserStep → Bool
  | error _ => true
  | _ => false

end ParserStep

def ControlStep.isConst : ControlStep → Bool
  | constAction _ _ _ => true
  | _ => false

namespace Edge

def parserKey (before : ParserPath) (e : ParserEdge) : EdgeKey :=
  match e.label with
  | .transition t => .transition t
  | .composite _ => .composite (before ++ [e])
  | .error _ => .parser e

def parserKeys (path : ParserPath) : List EdgeKey :=
  path.zipIdx.map fun (e, i) => parserKey (path.take i) e

def controlKey (e : ControlEdge) : EdgeKey :=
  match e.label with
  | .action name id _ => .action name id
  | .constAction _ _ _ => .control e
  | .branch value source => .branch value source
  | .noop => .noop

def displayParser (e : ParserEdge) : String :=
  match e.label with
  | .error err => e.src ++ " -(" ++ err.error.display ++ ")-> " ++ e.dst
  | _ => e.src ++ " -> " ++ e.dst

def displayBool (b : Bool) : String := if b then "True" else "False"

def displayBranch (value : Bool) (source : Option SourceInfo) : String :=
  let place := match source with
    | some s => s.display
    | none => "None"
  "(" ++ displayBool value ++ ", " ++ place ++ ")"

def displayControl (e : ControlEdge) : String :=
  match e.label with
  | .action name _ _ => "u'" ++ name.display ++ "'"
  | .constAction _ _ _ => e.src.display ++ " -> " ++ e.dst.display
  | .branch value source => displayBranch value source
  | .noop => "'No-Op'"

end Edge

end PacketSmith
