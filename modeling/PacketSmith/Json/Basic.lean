/-!
# JSON values

An object is a list of members, since the order of the members of a program file shows in what the library answers.
Integers are unbounded and kept apart from floating point numbers.
-/

namespace PacketSmith

inductive Json where
  | null
  | bool (b : Bool)
  | int (n : Int)
  | float (x : Float)
  | str (s : String)
  | arr (elems : List Json)
  | obj (members : List (String × Json))
deriving Inhabited, BEq

inductive Label where
  | null
  | bool (b : Bool)
  | int (n : Int)
  | float (bits : UInt64)
  | text (s : String)
deriving Inhabited, DecidableEq

namespace Label

instance : Coe String Label := ⟨Label.text⟩

def toJson : Label → Json
  | .null => .null
  | .bool b => .bool b
  | .int n => .int n
  | .float bits => .float (Float.ofBits bits)
  | .text s => .str s

end Label

namespace Json

def label? : Json → Option Label
  | .null => some .null
  | .bool b => some (.bool b)
  | .int n => some (.int n)
  | .float x => some (.float x.toBits)
  | .str s => some (.text s)
  | .arr _ => none
  | .obj _ => none

def member? (name : String) : Json → Option Json
  | .obj members => members.lookup name
  | _ => none

def str? : Json → Option String
  | .str s => some s
  | _ => none

def int? : Json → Option Int
  | .int n => some n
  | _ => none

def arr? : Json → Option (List Json)
  | .arr elems => some elems
  | _ => none

/-- Whether a value counts as true: the absent value, zero, and what is empty do not. -/
def truth : Json → Bool
  | .null => false
  | .bool b => b
  | .int n => n != 0
  | .float x => x != 0.0
  | .str s => s != ""
  | .arr elems => !elems.isEmpty
  | .obj members => !members.isEmpty

/-- The letters of escapes, with the characters that they stand for. -/
def escapes : List (Char × Char) :=
  [('"', '"'), ('\\', '\\'), ('b', '\x08'), ('f', '\x0c'), ('n', '\n'), ('r', '\r'), ('t', '\t')]

def ofMembers (members : List (String × Json)) : Json :=
  .obj (members.foldl (fun acc m => put m.1 m.2 acc) [])
where
  put (name : String) (value : Json) : List (String × Json) → List (String × Json)
    | [] => [(name, value)]
    | (name', value') :: rest =>
      if name' == name then (name', value) :: rest else (name', value') :: put name value rest

end Json

end PacketSmith
