import PacketSmith.Json.Access

/-!
# Operands

A program file gives each operand by a `type` and a `value`. The value of an expression that itself has a type is that
operand.
-/

namespace PacketSmith

inductive Operand where
  | expression (op : Json) (cond left : Option Operand) (right : Operand)
  | field (header field : Json)
  | stackField (stack field : Json)
  | hexstr (value : Int)
  | lookahead (offset size : Json)
  | header (name : Json)
  | stack (name : Json)
  | headerStack (name : Json)
  | bool (value : Json)
  | runtimeData (index : Int)
  | calculation (name : Json)
  | counterArray (name : Json)
  | meterArray (name : Json)
  | registerArray (name : Json)
  | regular (name : Json)
  | externInstance (name : Json)
deriving Inhabited

namespace Operand

def named? : String → Option (Json → Operand)
  | "header" => some .header
  | "stack" => some .stack
  | "header_stack" => some .headerStack
  | "bool" => some .bool
  | "calculation" => some .calculation
  | "counter_array" => some .counterArray
  | "meter_array" => some .meterArray
  | "register_array" => some .registerArray
  | "regular" => some .regular
  | "extern" => some .externInstance
  | _ => none

mutual

def read : Nat → Json → Except Fault Operand
  | 0, _ => .error .endless
  | fuel + 1, v => do
    let type ← v.get "type"
    let value ← v.get "value"
    match type with
    | .str "expression" =>
      if ← value.holds "type" then read fuel value else readExpression fuel value
    | .str "field" => return .field (← value.elem 0) (← value.elem 1)
    | .str "stack_field" => return .stackField (← value.elem 0) (← value.elem 1)
    | .str "hexstr" => return .hexstr (← value.toHexInt)
    | .str "runtime_data" | .str "local" => return .runtimeData (← value.toInt)
    | .str "lookahead" => return .lookahead (← value.elem 0) (← value.elem 1)
    | .str name =>
      match named? name with
      | some make => return make value
      | none => throw (.unknownType name)
    | other => throw (.unknownType other.display)

def readExpression : Nat → Json → Except Fault Operand
  | 0, _ => .error .endless
  | fuel + 1, v => do
    let op ← v.get "op"
    let cond ← if ← v.holds "cond" then some <$> read fuel (← v.get "cond") else pure none
    let left ←
      match ← v.get "left" with
      | .null => pure none
      | given => some <$> read fuel given
    let right ← read fuel (← v.get "right")
    return .expression op cond left right

end

def ofJson (v : Json) : Except Fault Operand := read (2 * v.height + 2) v

def nameText : Json → Except Fault String
  | .str s => .ok s
  | _ => .error .wrongKind

def display : Operand → Except Fault String
  | .expression op (some cond) left _ => do
    let cond ← cond.display
    let left ← match left with
      | some l => l.display
      | none => pure "None"
    return "(" ++ cond ++ " " ++ op.display ++ " : " ++ left ++ ")"
  | .expression op none none right => do
    return op.display ++ "(" ++ (← right.display) ++ ")"
  | .expression op none (some left) right => do
    return "(" ++ (← left.display) ++ " " ++ op.display ++ " " ++ (← right.display) ++ ")"
  | .field h f | .stackField h f => .ok (h.display ++ "." ++ f.display)
  | .hexstr n => .ok (toString n)
  | .header name | .stack name | .headerStack name => nameText name
  | .bool value => .ok value.display
  | .runtimeData i => .ok ("runtime_data[" ++ toString i ++ "]")
  | .calculation name => .ok ("Calculation<" ++ name.display ++ ">")
  | .counterArray name => .ok ("CounterArray<" ++ name.display ++ ">")
  | .meterArray name => .ok ("MeterArray<" ++ name.display ++ ">")
  | .registerArray name => .ok ("RegisterArray<" ++ name.display ++ ">")
  | .lookahead _ _ | .regular _ | .externInstance _ => .ok "<object>"

def hasText : Operand → Bool
  | .expression _ (some cond) left _ =>
    cond.hasText && (match left with
      | some l => l.hasText
      | none => true)
  | .expression _ none none right => right.hasText
  | .expression _ none (some left) right => left.hasText && right.hasText
  | .lookahead _ _ | .regular _ | .externInstance _ => false
  | _ => true

def stackParts : Operand → List Operand
  | .stackField h f => [.stackField h f]
  | .stack name => [.stack name]
  | .expression _ cond left right =>
    (match cond with
      | some c => c.stackParts
      | none => []) ++ right.stackParts ++
    (match left with
      | some l => l.stackParts
      | none => [])
  | _ => []

end Operand

end PacketSmith
