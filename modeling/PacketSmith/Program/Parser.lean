import PacketSmith.Dict
import PacketSmith.Program.Action

/-!
# Parsers

A state runs its operations, computes its key and takes the first transition whose value agrees with the key under the
mask. A transition without value is the default.
-/

namespace PacketSmith

inductive ParseKind where
  | extract
  | extractVL
  | set
  /-- Ends the parser with an error unless a condition holds. -/
  | verify
  | shift
deriving DecidableEq

namespace ParseKind

def name : ParseKind → String
  | extract => "extract"
  | extractVL => "extract_VL"
  | set => "set"
  | verify => "verify"
  | shift => "shift"

def ofName? (s : String) : Option ParseKind :=
  [extract, extractVL, set, verify, shift].find? fun k => k.name == s

end ParseKind

inductive ParseOp where
  | plain (kind : ParseKind) (values : List Operand)
  | primitive (call : PrimitiveCall)

namespace ParseOp

def name : ParseOp → String
  | plain kind _ => kind.name
  | primitive _ => "primitive"

def ofJson (v : Json) : Except Fault ParseOp := do
  match ← v.get "op" with
  | .str "primitive" => return .primitive (← PrimitiveCall.ofJson (← (← v.get "parameters").elem 0))
  | op =>
    match op.str?.bind ParseKind.ofName? with
    | none => throw (.unexpectedOp op.display)
    | some kind => return .plain kind (← (← (← v.get "parameters").items).mapM Operand.ofJson)

def stackParts : ParseOp → List Operand
  | plain _ values => (values.reverse.map Operand.stackParts).flatten
  | primitive _ => []

end ParseOp

structure Transition where
  kind : Label
  target : Label
  value : Option Int
  mask : Option Int
deriving DecidableEq, Inhabited

namespace Transition

def sink : String := "sink"

def destination (t : Transition) : Label := if t.target == .null then .text sink else t.target

def ofJson (v : Json) : Except Fault Transition := do
  let kind ← if ← v.holds "type" then v.get "type" else pure .null
  let value ←
    match ← v.get "value" with
    | .null => pure none
    | .str "default" => pure none
    | given => some <$> given.toHexInt
  let mask ←
    match ← v.get "mask" with
    | .null => pure none
    | given => some <$> given.toHexInt
  return ⟨kind.asLabel, (← v.get "next_state").asLabel, value, mask⟩

def distinct (ts : List Transition) : List Transition :=
  ts.foldl (fun kept t =>
    if kept.any fun k => k.value == t.value && k.mask == t.mask then kept else kept ++ [t]) []

end Transition

structure ParseError where
  error : Label
  opIndex : Option Nat
deriving DecidableEq

structure ParseState where
  name : String
  id : Int
  ops : List ParseOp
  transitions : List Transition
  key : List Operand
  errors : List ParseError
  stackExtracts : List Json
deriving Inhabited

structure ErrorTable where
  byId : Dict Int Label := {}
  byName : Dict Label Int := {}

namespace ErrorTable

def add (t : ErrorTable) (v : Json) : Except Fault ErrorTable := do
  match ← v.items with
  | [error, id] =>
    let id ← id.toInt
    let error ← error.key
    return ⟨t.byId.insert id error, t.byName.insert error id⟩
  | _ => throw .malformed

def ofJson (v : Json) : Except Fault ErrorTable := do
  let t ← (← v.items).foldlM add {}
  for name in ["NoError", "PacketTooShort", "HeaderTooShort", "StackOutOfBounds"] do
    require (t.byName.contains (.text name))
  return t

def named (t : ErrorTable) (id : Json) : Except Fault Label := do
  let key ← id.key
  match id.number?.bind t.byId.get? with
  | some error => return error
  | none => throw (.missing key)

end ErrorTable

namespace ParseState

def stackKeys (s : ParseState) : List Operand :=
  s.key.filter fun
    | .stackField _ _ => true
    | _ => false

def stackExtract (op : ParseOp) : Except Fault (List Json) :=
  match op with
  | .plain .extract values | .plain .extractVL values =>
    match values with
    | [] => .error .outOfRange
    | .stack name :: _ => .ok [name]
    | _ => .ok []
  | _ => .ok []

def errorsOf (table : ErrorTable) (lengthErrors : Bool) (op : ParseOp) :
    Except Fault (List Label) :=
  match op with
  | .plain .verify values =>
    match (values[1]? : Option Operand) with
    | none => .error .outOfRange
    | some (.hexstr n) => (fun e => [e]) <$> table.named (.int n)
    | some (.bool v) => (fun e => [e]) <$> table.named v
    | some _ => .error .noPart
  | op =>
    if lengthErrors then
      let bounds : List Label := if op.stackParts.isEmpty then [] else ["StackOutOfBounds"]
      let own : List Label :=
        match op with
        | .plain .extract _ => ["PacketTooShort"]
        | .plain .extractVL _ => ["PacketTooShort", "HeaderTooShort"]
        | _ => []
      .ok (bounds ++ own)
    else .ok []

def readOps (table : ErrorTable) (lengthErrors : Bool) :
    Nat → List Json → Except Fault (List ParseOp × List Json × List ParseError)
  | _, [] => .ok ([], [], [])
  | i, v :: rest => do
    let op ← ParseOp.ofJson v
    let extracted ← stackExtract op
    let errors ← errorsOf table lengthErrors op
    let (ops, extracted', errors') ← readOps table lengthErrors (i + 1) rest
    return (op :: ops, extracted ++ extracted', errors.map (fun e => ⟨e, some i⟩) ++ errors')

def ofJson (table : ErrorTable) (lengthErrors : Bool) (v : Json) : Except Fault ParseState := do
  let some name ← v.given "name" | throw (.lacking "Parser_States" "name")
  let some id ← v.given "id" | throw (.lacking "Parser_States" "id")
  let id ← id.toInt
  let (ops, extracted, errors) ← readOps table lengthErrors 0 (← (← v.get "parser_ops").items)
  let transitions ← (← (← v.get "transitions").items).mapM Transition.ofJson
  let key ← (← (← v.get "transition_key").items).mapM Operand.ofJson
  let state : ParseState := {
    name := name.display
    id := id
    ops := ops
    transitions := Transition.distinct transitions
    key := key
    errors := errors
    stackExtracts := extracted }
  if lengthErrors && !state.stackKeys.isEmpty then
    return { state with errors := errors ++ [⟨"StackOutOfBounds", none⟩] }
  else return state

end ParseState

structure Parser where
  name : String
  id : Int
  initState : String
  states : Dict String ParseState

namespace Parser

def follow (states : Dict String ParseState) (t : Transition) : Except Fault (Option String) :=
  if t.target.toJson.truth then
    match t.target with
    | .text s => if states.contains s then .ok (some s) else .error (.missing s)
    | other => .error (.missing other)
  else .ok none

def ofJson (table : ErrorTable) (lengthErrors : Bool) (v : Json) : Except Fault Parser := do
  let some name ← v.given "name" | throw (.lacking "Parser" "name")
  let some id ← v.given "id" | throw (.lacking "Parser" "id")
  let id ← id.toInt
  let some initState ← v.given "init_state" | throw (.lacking "Parser" "init_state")
  let states ← (← (← v.get "parse_states").items).mapM (ParseState.ofJson table lengthErrors)
  let states := Dict.ofList (states.map fun s => (s.name, s))
  for s in states.values do
    for t in s.transitions do
      let _ ← follow states t
  return ⟨name.display, id, initState.display, states⟩

end Parser

end PacketSmith
