import PacketSmith.Audit.Log

/-!
# The kinds of expressions

A leaf of an expression shows its kind, and an operator has a signature. The operands of an equality, and those of a
choice, have to be of one kind.
-/

namespace PacketSmith.Audit

inductive Kind where
  | bits
  | truth
  | header
  | union
  | stack
deriving DecidableEq

inductive Rejection where
  | mismatch (operand : String) (expected found : Kind) (expression : Json)
  | shapeless (expression : Json)
  | fault (f : Fault)

namespace Kind

def name : Kind → String
  | bits => "bitvec"
  | truth => "bool"
  | header => "header"
  | union => "header_union"
  | stack => "header_stack"

inductive Signature where
  | unary (operand result : Kind)
  | binary (operand result : Kind)
  | equality
  | choice
deriving DecidableEq

def signatures : List (String × Signature) := [
  ("valid", .unary header truth), ("valid_union", .unary union truth),
  ("d2b", .unary bits truth), ("b2d", .unary truth bits), ("not", .unary truth truth),
  ("and", .binary truth truth), ("or", .binary truth truth),
  ("==", .equality), ("!=", .equality),
  ("<", .binary bits truth), ("<=", .binary bits truth), (">", .binary bits truth),
  (">=", .binary bits truth), ("~", .unary bits bits),
  ("&", .binary bits bits), ("|", .binary bits bits), ("^", .binary bits bits),
  ("+", .binary bits bits), ("-", .binary bits bits), ("*", .binary bits bits),
  ("<<", .binary bits bits), (">>", .binary bits bits), ("two_comp_mod", .binary bits bits),
  ("usat_cast", .binary bits bits), ("sat_cast", .binary bits bits),
  ("?", .choice), ("last_stack_index", .unary stack bits)]

def leaves : List (String × Kind) := [
  ("header", header), ("header_union", union), ("header_stack", stack), ("hexstr", bits),
  ("field", bits), ("local", bits), ("lookahead", bits), ("stack_field", bits), ("bool", truth)]

def shape {α : Type} (r : Except Fault α) : Except Rejection α := r.mapError .fault

def expect (operand : String) (expected found : Kind) (expression : Json) : Except Rejection Unit :=
  if found = expected then .ok () else .error (.mismatch operand expected found expression)

def ofOperator (kindOf : Json → Except Rejection Kind) (e : Json) : Except Rejection Kind := do
  let op ← shape (e.get "op")
  match (op.str?).bind fun s => signatures.lookup s with
  | none => throw (.fault (.unknownOperator op.display))
  | some (.unary operand result) =>
    shape do require ((← e.get "left").label? = some .null)
    expect "right" operand (← kindOf (← shape (e.get "right"))) e
    return result
  | some (.binary operand result) =>
    expect "left" operand (← kindOf (← shape (e.get "left"))) e
    expect "right" operand (← kindOf (← shape (e.get "right"))) e
    return result
  | some .equality =>
    let left ← kindOf (← shape (e.get "left"))
    expect "right" left (← kindOf (← shape (e.get "right"))) e
    return truth
  | some .choice =>
    expect "cond" truth (← kindOf (← shape (e.get "cond"))) e
    let left ← kindOf (← shape (e.get "left"))
    expect "right" left (← kindOf (← shape (e.get "right"))) e
    return left

def ofTyped (kindOf : Json → Except Rejection Kind) (e : Json) : Except Rejection Kind := do
  shape do require (← e.holds "value")
  let t ← shape (e.get "type")
  if t.str? = some "expression" then kindOf (← shape (e.get "value"))
  else match (t.str?).bind fun s => leaves.lookup s with
    | some k => return k
    | none => throw (.fault (.unknownExpression t.display))

def upTo : Nat → Json → Except Rejection Kind
  | 0, _ => .error (.fault .endless)
  | n + 1, e => do
    if ← shape (e.holds "type") then ofTyped (upTo n) e
    else if ← shape (e.holds "op") then ofOperator (upTo n) e
    else throw (.shapeless e)

def ofJson (e : Json) : Except Rejection Kind := upTo e.height e

end Kind

def reject {α : Type} : Rejection → Check α
  | .fault f => throw f
  | .shapeless e => do
    say "No key 'type' or 'op' in expr:"
    sayValue e
    throw .violated
  | .mismatch operand expected found e => do
    say ("Expected operand '" ++ operand ++ "' of expression below to have type '" ++ expected.name ++
      "' but found type '" ++ found.name ++ "' instead:")
    sayValue e
    throw (.exit 1)

def checkKind (expected : Kind) (expression around : Json) : Check Unit :=
  match Kind.ofJson expression with
  | .error r => reject r
  | .ok found =>
    match Kind.expect "expression" expected found around with
    | .ok _ => pure ()
    | .error r => reject r

end PacketSmith.Audit
