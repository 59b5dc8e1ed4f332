import PacketSmith.Audit.Expression

/-!
# Expressions and references

The right-hand sides of assignments are bits, and the expressions of conditionals are truth values. The counters,
meters and registers that actions use are declared.
-/

namespace PacketSmith.Audit

variable (v : Json)

def isCalled (name text : String) : Except Fault Bool := do return (← v.get name) == .str text

def parameters (n : Nat) : Except Fault Json := do
  let params ← v.get "parameters"
  require ((← params.length) == n)
  return params

def checkParsers : Check Unit := do
  (← each v "parsers").forM fun p => do
    (← each p "parse_states").forM fun s => do
      (← each s "parser_ops").forM fun op => do
        if ← isCalled op "op" "set" then
          let right ← (← parameters op 2).elem 1
          checkKind .bits right right

def namesUnder (name : String) : Except Fault (List Json) := do
  require (← v.holds name)
  (← each v name).mapM fun x => do
    require (← x.holds "name")
    let n ← x.get "name"
    let _ ← n.key
    return n

structure ArrayUse where
  op : String
  count : Nat
  position : Nat
  kind : String
  finding : String

def arrayUses : List ArrayUse := [
  ⟨"count", 2, 0, "counter_array", "count operation for counter"⟩,
  ⟨"execute_meter", 3, 0, "meter_array", "execute_meter for meter"⟩,
  ⟨"register_read", 3, 1, "register_array", "register_read from register"⟩,
  ⟨"register_write", 3, 0, "register_array", "register_write to register"⟩]

def checkArray (declared : String → List Json) (u : ArrayUse) (primitive : Json) : Check Unit := do
  let ref ← (← parameters primitive u.count).elem u.position
  require (← ref.holds "type")
  require (← ref.holds "value")
  require (← isCalled ref "type" u.kind)
  let name ← ref.get "value"
  let _ ← name.key
  if !(declared u.kind).any name.same then
    say ("Found " ++ u.finding ++ " named '" ++ name.display ++ "' that is not defined in '" ++ u.kind ++
      "s' key.")
    tally 1

def checkAssignment (primitive : Json) : Check Unit := do
  let right ← (← parameters primitive 2).elem 1
  require (← right.holds "type")
  if ← isCalled right "type" "expression" then
    require (← right.holds "value")
    checkKind .bits right right

def checkPrimitives : Check Unit := do
  let counters ← namesUnder v "counter_arrays"
  let meters ← namesUnder v "meter_arrays"
  let registers ← namesUnder v "register_arrays"
  let declared (kind : String) : List Json :=
    if kind = "counter_array" then counters else if kind = "meter_array" then meters else registers
  (← each v "actions").forM fun action => do
    require (← action.holds "name")
    require (← action.holds "primitives")
    (← each action "primitives").forM fun primitive => do
      require (← primitive.holds "op")
      if ← isCalled primitive "op" "assign" then checkAssignment primitive
      else
        let op ← primitive.get "op"
        match arrayUses.find? fun u => op == .str u.op with
        | some u => checkArray declared u primitive
        | none => pure ()

def checkConditionals : Check Unit := do
  (← each v "pipelines").forM fun p => do
    (← each p "conditionals").forM fun c => do
      checkKind .truth (← c.get "expression") c

end PacketSmith.Audit
