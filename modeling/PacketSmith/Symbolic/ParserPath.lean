import PacketSmith.Symbolic.Transition

/-!
# Constraints of a parser path

A path that ends with an error stops at the operation that raises it.
-/

namespace PacketSmith

namespace Symbolic

inductive OpsResult where
  | impossible
  /-- The position after the operations, the error that ended them or the empty text, and the
  constraints that they add. -/
  | reached (pos : Bits) (fail : Label) (added : List Formula)

def failAt (e : ParserEdge) (i : Nat) : Option Label :=
  match e.label with
  | .error err => if err.opIndex = some i ∧ e.dst = Transition.sink then some err.error else none
  | _ => none

def stackOutOfBounds : Label := .text "StackOutOfBounds"

def isFailure (fail : Label) : Bool := fail.toJson.truth

def stateOps (env : Setting) (e : ParserEdge) :
    Nat → Label → Bits → List ParseOp → Symbolic OpsResult
  | _, fail, pos, [] => return .reached pos fail []
  | i, fail, pos, op :: rest => do
    let out ← outOfBounds env op
    let fail := (failAt e i).getD fail
    if (failAt e i).isSome && !out && fail == stackOutOfBounds then return .impossible
    else if out && fail != stackOutOfBounds then return .impossible
    else
      let (pos, added) ← parseOp env op fail pos
      if isFailure fail then return .reached pos fail added
      else
        match ← stateOps env e (i + 1) fail pos rest with
        | .impossible => return .impossible
        | .reached pos fail more => return .reached pos fail (added ++ more)

def keyElement (env : Setting) : Operand → Symbolic (Option Bits)
  | .field h f => do
    let h ← lift h.key
    let f ← lift f.key
    read env.options (h, f)
  | .stackField stack f => do
    let (key, s) ← lift (stackOf env.program stack)
    let element ← lastElement key s.size
    read env.options (element, ← lift f.key)
  | v => throw (.unsupported ("Transition key type not supported: " ++ v.classText))

def keyUnderflow : List Operand → Symbolic Bool
  | [] => return false
  | v :: rest => do
    let name ← lift v.headerName
    if (← stackCount (← lift name.key)) = 0 then return true else keyUnderflow rest

def onwardConstraints (env : Setting) (s : ParseState) (e : ParserEdge) : Symbolic (List Formula) := do
  let keys ← s.key.mapM (keyElement env)
  if keys.isEmpty then return []
  else
    match e.label with
    | .composite parts => lift (Transition.compositeConstraints keys s.transitions parts)
    | .transition t => lift (Transition.constraints keys s.transitions t)
    | .error _ => return []

inductive StatesResult where
  | impossible
  | reached (fail : Label) (constraints : List Formula)

def shortState : String := "PacketTooShort"

def states (env : Setting) (parser : Parser) : Bits → ParserPath → Symbolic StatesResult
  | _, [] => return .reached (.text "") []
  | pos, e :: rest => do
    let some s := parser.states.get? e.src | throw (.missing e.src)
    match ← stateOps env e 0 (.text "") pos s.ops with
    | .impossible => return .impossible
    | .reached newPos fail added =>
      if e.dst = shortState then
        tooShort newPos
        return .reached fail added
      else if isFailure fail then return .reached fail added
      else
        let under ← keyUnderflow s.stackKeys
        match e.label with
        | .error err =>
          require err.opIndex.isNone
          require (err.error == stackOutOfBounds)
          require (e.dst == Transition.sink)
          if under then return .reached err.error added else return .impossible
        | _ =>
          if under then return .impossible
          else
            let onward ← onwardConstraints env s e
            match rest with
            | [] => return .reached fail (added ++ onward)
            | _ =>
              match ← states env parser newPos.settle rest with
              | .impossible => return .impossible
              | .reached fail more => return .reached fail (added ++ onward ++ more)

def setError (env : Setting) (fail : Label) : Symbolic Unit :=
  if isFailure fail then do
    write env.options (.text "standard_metadata", .text "parser_error")
      (some (← lift (env.program.errorBits fail)))
  else pure ()

def packetConstraints (o : Options) : Symbolic (List Formula) := do
  let (added, packet) := (← get).packet.constraints o
  modify fun s => { s with packet := packet }
  lift added

def parserPath (env : Setting) (path : ParserPath) : Symbolic (Option (List Formula)) := do
  let parser ← lift env.program.parser
  require (!path.isEmpty) .unset
  match ← states env parser (Bits.ofInt 0 32) path with
  | .impossible => return none
  | .reached fail constraints =>
    write env.options (.text "meta_meta", .text "packet_len") (some Packet.size)
    setError env fail
    return some (constraints ++ (← packetConstraints env.options))

end Symbolic

end PacketSmith
