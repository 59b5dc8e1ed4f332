import PacketSmith.Fault

/-!
# Taking values apart

What is asked of a value of another kind is a fault of that kind, and what is not there is a missing key or a position
out of range.
-/

namespace PacketSmith.Json

variable (v : Json)

def get (name : String) : Except Fault Json :=
  match v with
  | .obj members =>
    match members.lookup name with
    | some found => .ok found
    | none => .error (.missing name)
  | _ => .error .wrongKind

def elem (i : Nat) : Except Fault Json :=
  match v with
  | .arr elems =>
    match elems[i]? with
    | some found => .ok found
    | none => .error .outOfRange
  | .str s =>
    match s.toList[i]? with
    | some c => .ok (.str c.toString)
    | none => .error .outOfRange
  | .obj _ => .error (.missing (.int i))
  | _ => .error .wrongKind

def holds (name : String) : Except Fault Bool :=
  match v with
  | .obj members => .ok ((members.lookup name).isSome)
  | .arr elems => .ok (elems.any fun e => e.str? == some name)
  | .str s => .ok (Text.holds s name)
  | _ => .error .wrongKind

def items : Except Fault (List Json) :=
  match v with
  | .arr elems => .ok elems
  | .obj members => .ok (members.map fun m => .str m.1)
  | .str s => .ok (s.toList.map fun c => .str c.toString)
  | _ => .error .wrongKind

def length : Except Fault Nat := v.items.map List.length

def pairs : Except Fault (List (String × Json)) :=
  match v with
  | .obj members => .ok members
  | _ => .error .noPart

def given (name : String) : Except Fault (Option Json) := do
  if ← v.holds name then
    match ← v.get name with
    | .null => return none
    | found => return some found
  else return none

def truncate (x : Float) : Except Fault Int :=
  if x.isNaN then .error .malformed
  else if x.isInf then .error .overflow
  else
    let (negative, b) := Decimal.decode x
    let n : Nat := if b.q ≥ 0 then b.m * Nat.pow 2 b.q.toNat else b.m / Nat.pow 2 (-b.q).toNat
    .ok (if negative then -(n : Int) else n)

/-- The integer that a value gives: a number without its fraction, or a decimal text. -/
def toInt : Except Fault Int :=
  match v with
  | .int n => .ok n
  | .bool b => .ok (if b then 1 else 0)
  | .float x => truncate x
  | .str s =>
    match Text.int? s with
    | some n => .ok n
    | none => .error .malformed
  | _ => .error .wrongKind

def toHexInt : Except Fault Int :=
  match v with
  | .str s =>
    match Text.hexInt? s with
    | some n => .ok n
    | none => .error .malformed
  | _ => .error .wrongKind

def key : Except Fault Label :=
  match v.label? with
  | some l => .ok l
  | none => .error .wrongKind

def asLabel : Label := v.label?.getD (.text v.inner)

/-- The number that a value is among keys, where truth values count as 0 and 1. -/
def number? : Json → Option Int
  | .int n => some n
  | .bool b => some (if b then 1 else 0)
  | .float x =>
    match truncate x with
    | .ok n => if Float.ofInt n == x then some n else none
    | .error _ => none
  | _ => none

mutual

def height : Json → Nat
  | .arr elems => heightOfAll elems + 1
  | .obj members => heightOfMembers members + 1
  | _ => 1

def heightOfAll : List Json → Nat
  | [] => 0
  | v :: rest => max v.height (heightOfAll rest)

def heightOfMembers : List (String × Json) → Nat
  | [] => 0
  | (_, v) :: rest => max v.height (heightOfMembers rest)

end

def same (v w : Json) : Bool :=
  match v.number?, w.number? with
  | some n, some k => n == k
  | _, _ => v == w

end PacketSmith.Json
