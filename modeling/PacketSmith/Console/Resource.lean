import PacketSmith.Dict
import PacketSmith.Json.Access

/-!
# Resources of a switch

What the console knows about a switch. The kinds of a thing have names and numbers, which go from 0 in the order of
the names.
-/

namespace PacketSmith.Console

/-! ## Kinds -/

structure Kinds where
  names : List String

namespace Kinds

def indexOf? (name : String) : List String → Option Nat
  | [] => none
  | n :: rest => if n = name then some 0 else (indexOf? name rest).map (· + 1)

def number (k : Kinds) (name : Json) : Except Fault Nat := do
  let l ← name.key
  match l with
  | .text s =>
    match indexOf? s k.names with
    | some i => return i
    | none => throw (.missing l)
  | _ => throw (.missing l)

def name (k : Kinds) (number : Json) : Except Fault String := do
  let l ← number.key
  match number.number? with
  | some n =>
    match if n < 0 then none else k.names[n.toNat]? with
    | some s => return s
    | none => throw (.missing l)
  | none => throw (.missing l)

def replicators : Kinds := ⟨["none", "SimplePre", "SimplePreLAG"]⟩

def meters : Kinds := ⟨["packets", "bytes"]⟩

def tables : Kinds := ⟨["simple", "indirect", "indirect_ws"]⟩

def resources : Kinds :=
  ⟨["table", "action_prof", "action", "meter_array", "counter_array", "register_array", "parse_vset"]⟩

def matching : Kinds := ⟨["exact", "lpm", "ternary", "valid", "range"]⟩

end Kinds

inductive MatchKind where
  | exact
  | longest
  | ternary
  | valid
  | range
deriving DecidableEq

namespace MatchKind

def all : List MatchKind := [exact, longest, ternary, valid, range]

def number : MatchKind → Nat
  | exact => 0
  | longest => 1
  | ternary => 2
  | valid => 3
  | range => 4

def name : MatchKind → String
  | exact => "exact"
  | longest => "lpm"
  | ternary => "ternary"
  | valid => "valid"
  | range => "range"

def ofJson (v : Json) : Except Fault MatchKind := do
  let n ← Kinds.matching.number v
  return all.getD n .exact

def hasPriority : MatchKind → Bool
  | ternary | range => true
  | _ => false

end MatchKind

inductive TableKind where
  | simple
  | indirect
  | selecting
deriving DecidableEq

namespace TableKind

def number : TableKind → Nat
  | simple => 0
  | indirect => 1
  | selecting => 2

def ofJson (v : Json) : Except Fault TableKind := do
  match ← Kinds.tables.number v with
  | 0 => return .simple
  | 1 => return .indirect
  | _ => return .selecting

end TableKind

inductive Replicator where
  | absent
  | plain
  | lags
deriving DecidableEq

namespace Replicator

def number : Replicator → Nat
  | absent => 0
  | plain => 1
  | lags => 2

def ofNumber : Nat → Replicator
  | 1 => .plain
  | 2 => .lags
  | _ => .absent

def ofName (name : String) : Except Fault Replicator := do
  return ofNumber (← Kinds.replicators.number (.str name))

def services : Replicator → List (Option String)
  | absent => [some "standard", none]
  | plain => [some "standard", some "simple_pre"]
  | lags => [some "standard", some "simple_pre_lag"]

end Replicator

/-! ## Resources -/

inductive ResourceKind where
  | table
  | profile
  | action
  | meter
  | counter
  | register
  | valueSet
deriving DecidableEq

namespace ResourceKind

def all : List ResourceKind := [table, profile, action, meter, counter, register, valueSet]

def name : ResourceKind → String
  | table => "table"
  | profile => "action_prof"
  | action => "action"
  | meter => "meter_array"
  | counter => "counter_array"
  | register => "register_array"
  | valueSet => "parse_vset"

def noun : ResourceKind → String
  | table => "table"
  | profile => "action profile"
  | action => "action"
  | meter => "meter"
  | counter => "counter"
  | register => "register"
  | valueSet => "parser value set"

end ResourceKind

def nameColumn : Nat := 30

structure ActionInfo where
  name : String
  id : Json
  params : List (Json × Json) := []

def ActionInfo.paramText (a : ActionInfo) : Except Fault String := do
  let shown ← a.params.mapM fun (name, width) =>
    match name with
    | .str s => Except.ok (s ++ "(" ++ width.display ++ ")")
    | _ => Except.error Fault.wrongKind
  return ",\t".intercalate shown

def ActionInfo.line (a : ActionInfo) : Except Fault String := do
  return Text.padRight nameColumn a.name ++ " [" ++ (← a.paramText) ++ "]"

structure KeyInfo where
  name : String
  kind : MatchKind
  width : Json

/-- A set of members and groups that tables share. -/
structure ProfileInfo where
  name : String
  id : Json
  selects : Bool := false
  actions : List String := []
  users : Nat := 0

def ProfileInfo.line (p : ProfileInfo) : String :=
  Text.padRight nameColumn p.name ++ " [" ++ (if p.selects then "True" else "False") ++ "]"

structure TableInfo where
  name : String
  id : Json
  kind : MatchKind := .exact
  source : TableKind := .simple
  timeouts : Json := .bool false
  actions : List String := []
  key : List KeyInfo := []
  profile : Option Nat := none

def TableInfo.keyText (t : TableInfo) : String :=
  ",\t".intercalate (t.key.map fun k => k.name ++ "(" ++ k.kind.name ++ ", " ++ k.width.display ++ ")")

structure MeterInfo where
  name : String
  id : Json
  kind : Nat := 0
  direct : Bool := false
  size : Json := .null
  binding : Json := .null
  rates : Json := .null

structure CounterInfo where
  name : String
  id : Json
  direct : Json := .null
  size : Json := .null
  binding : Json := .null

structure RegisterInfo where
  name : String
  id : Json
  width : Json := .null
  size : Json := .null

structure ValueSetInfo where
  name : String
  id : Json
  width : Json := .null

def ValueSetInfo.line (s : ValueSetInfo) : String :=
  Text.padRight nameColumn s.name ++ " [compressed bitwidth:" ++ s.width.display ++ "]"

end PacketSmith.Console
