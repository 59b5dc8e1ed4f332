import PacketSmith.Dict
import PacketSmith.Json.Access
import PacketSmith.Json.Writer

/-!
# The log of an audit

An audit prints what looks wrong in a program file. It goes on after most findings, and ends early where the file has
not the shape that is needed to go on.
-/

namespace PacketSmith.Audit

variable (v : Json)

structure Log where
  lines : List String := []
  repeatedIds : Dict String Nat := {}
  repeatedNames : Dict String Nat := {}
  total : Nat := 0

abbrev Check := ExceptT Fault (StateM Log)

def say (line : String) : Check Unit := modify fun l => { l with lines := line :: l.lines }

def sayValue : Check Unit := say (v.render .sortedSpaced)

def tally (n : Nat) : Check Unit := modify fun l => { l with total := l.total + n }

def each (name : String) : Except Fault (List Json) := do (← v.get name).items

def numberText : Json → Except Fault String
  | .int n => .ok (toString n)
  | .bool b => .ok (if b then "1" else "0")
  | .float x => toString <$> Json.truncate x
  | _ => .error .wrongKind

def isWhole : Json → Bool
  | .int _ | .bool _ => true
  | _ => false

def textMember (name : String) : Except Fault String := do
  require (← v.holds name)
  match ← v.get name with
  | .str s => return s
  | _ => throw .violated

def listMember (name : String) : Except Fault (List Json) := do
  require (← v.holds name)
  match ← v.get name with
  | .arr vs => return vs
  | _ => throw .violated

def wholeMember (name : String) : Except Fault Json := do
  require (← v.holds name)
  let found ← v.get name
  require (isWhole found)
  return found

def lookup (entries : List (Json × Json)) (key : Json) : Option Json :=
  (entries.find? fun e => e.1.same key).map Prod.snd

def file (entries : List (Json × Json)) (key value : Json) : List (Json × Json) :=
  if entries.any fun e => e.1.same key then
    entries.map fun e => if e.1.same key then (e.1, value) else e
  else entries ++ [(key, value)]

end PacketSmith.Audit
