import PacketSmith.ControlGraph
import PacketSmith.ParserGraph
import PacketSmith.Symbolic.Action

/-!
# Transitions

*Parsers.* The elements of a key are laid side by side, each filled up to whole bytes, and compared with the value of
a transition in the bits that the mask selects. A transition is taken if no earlier one agrees with the key and it
agrees itself.

*Pipelines.* A branch needs the condition to have its value. An action needs nothing: the key of the table is
recorded, and the entry can be chosen to fit.
-/

namespace PacketSmith

namespace Transition

variable (keys : List (Option Bits))

def sideBySide (a b : Bits) : Bits := ⟨a.width + b.width, .concat a.term b.term⟩

def wholeBytes (k : Bits) : Bits := k.resize (8 * ((k.width + 7) / 8))

def keyConstraint (value mask : Option Int) : Except Fault Formula := do
  let some value := value | throw .violated
  let some _ := keys.head? | throw .violated
  let parts ← keys.mapM fun
    | some k => .ok (wholeBytes k)
    | none => .error .noPart
  match parts with
  | [] => throw .violated
  | first :: rest =>
    let key := rest.foldl sideBySide first
    let mask := mask.getD (-1)
    return .rel .eq (.arith .and key.term (.const (BitVec.ofInt key.width mask)))
      (.arith .and (.const (BitVec.ofInt key.width value)) (.const (BitVec.ofInt key.width mask)))

def agrees (t : Transition) : Except Fault Formula :=
  keyConstraint keys t.value t.mask

def noneOf (ts : List Transition) : Except Fault (List Formula) := do
  let fs ← ts.mapM (agrees keys)
  return if fs.isEmpty then [] else [.not (Term.any fs)]

def constraints (all : List Transition) (t : Transition) : Except Fault (List Formula) := do
  let earlier ← noneOf keys (all.takeWhile (· != t))
  if t.value.isSome then return earlier ++ [← agrees keys t] else return earlier

def compositeConstraints (all parts : List Transition) : Except Fault (List Formula) := do
  let before := all.takeWhile fun t => !parts.contains t
  let fs ← before.mapM fun t => do
    require t.value.isSome (.refuted "Reached default transition before first component transition")
    agrees keys t
  let rest := all.dropWhile fun t => !parts.contains t
  require (!rest.isEmpty)
  let earlier := if fs.isEmpty then [] else [Term.not (Term.any fs)]
  let each ← parts.mapM fun t => do return Term.all (← constraints keys rest t)
  return earlier ++ [Term.any each]

end Transition

namespace Symbolic

def matchTypes : List String := ["exact", "lpm", "ternary", "range"]

def readTarget (o : Options) (k : TableKey) : Symbolic (Option Bits) := do
  match ← lift k.target.items with
  | [_, _] =>
    let h ← lift (k.target.elem 0)
    let f ← lift (k.target.elem 1)
    let h ← lift h.key
    let f ← lift f.key
    read o (h, f)
  | _ => throw .malformed

def branch (env : Setting) (node : Label) (value : Bool) : Symbolic (List Formula) := do
  let some c := env.pipeline.conditionals.get? node | throw (.missing node)
  setSource c.source
  let v ← Symbolic.value env false c.expression
  return [← lift (v.isTruth value)]

def tableAction (env : Setting) (node name : Label) (id : Int) : Symbolic (List Formula) := do
  let some t := env.pipeline.tables.get? node | throw .violated
  setSource t.source
  require ((t.matchType.str?.map matchTypes.contains).getD false)
    (.unsupported ("Match type " ++ t.matchType.display ++ " not supported!"))
  setKeys node (← t.key.mapM (readTarget env.options))
  action env node (← lift (env.program.action (name, id)))
  return []

def controlStep (env : Setting) (node : Label) : ControlStep → Symbolic (List Formula)
  | .branch value _ => branch env node value
  | .action name id _ => tableAction env node name id
  | .constAction _ _ _ => throw (.unsupported "ConstActionTransition is not yet supported")
  | .noop => return []

def controlEdge (env : Setting) (e : ControlEdge) : Symbolic (List Formula) := do
  let added ← controlStep env e.src e.label
  setSource none
  return added

end Symbolic

inductive Visit where
  | state (name : Label)
  | node (e : ControlEdge)
deriving DecidableEq

namespace Visit

def ofParser (substitute : Bool) (path : ParserPath) : List Visit :=
  path.flatMap fun e =>
    match e.label with
    | .error err =>
      (if substitute then [] else [state (.text e.src)]) ++ [state err.error]
    | _ => [state (.text e.src)]

def expected (substitute : Bool) (path : ParserPath) (control : ControlPath) : List Visit :=
  ofParser substitute path ++ state (.text Transition.sink) :: control.map node

def display : Visit → String
  | state name => name.display
  | node e => "(" ++ e.src.inner ++ ", " ++ e.displayControl ++ ")"

def inner : Visit → String
  | state name => name.inner
  | node e => (node e).display

end Visit

end PacketSmith
