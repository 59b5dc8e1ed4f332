import PacketSmith.Decimal.Shortest
import PacketSmith.Json.Basic
import PacketSmith.Text.Integer

/-!
# Writing JSON

A printer of JSON values in ASCII. A character beyond ASCII is written by its code, in two units if it needs them.
-/

namespace PacketSmith.Json

structure Layout where
  comma : String
  colon : String
  sorted : Bool

namespace Layout

def compact : Layout := ⟨",", ":", false⟩

def spaced : Layout := ⟨", ", ": ", false⟩

def sortedSpaced : Layout := ⟨", ", ": ", true⟩

end Layout

namespace Writer

def unit (n : Nat) : String := "\\u" ++ Text.zeroFill 4 (Text.hexDigits n)

def char (c : Char) : String :=
  match escapes.find? fun e => e.2 = c with
  | some (name, _) => "\\".push name
  | none =>
    let n := c.toNat
    if 0x20 ≤ n && n < 0x7f then c.toString
    else if n < 0x10000 then unit n
    else unit (0xd800 + (n - 0x10000) / 0x400) ++ unit (0xdc00 + (n - 0x10000) % 0x400)

def string (s : String) : String :=
  (s.toList.foldl (fun acc c => acc ++ char c) "\"").push '"'

def float (x : Float) : String :=
  if x.isNaN then "NaN"
  else if x.isInf then if x < 0 then "-Infinity" else "Infinity"
  else Decimal.text x

def sort : Json → Json
  | .arr elems => .arr (elems.attach.map fun ⟨e, _⟩ => sort e)
  | .obj members =>
    .obj ((members.attach.map fun ⟨m, _⟩ => (m.1, sort m.2)).mergeSort fun a b => a.1 ≤ b.1)
  | v => v
termination_by v => v
decreasing_by
  · have := List.sizeOf_lt_of_mem ‹_›
    simp
    omega
  · have := List.sizeOf_lt_of_mem ‹m ∈ members›
    obtain ⟨k, v⟩ := m
    simp at *
    omega

mutual

def value (l : Layout) (acc : String) : Json → String
  | .null => acc ++ "null"
  | .bool b => acc ++ (if b then "true" else "false")
  | .int n => acc ++ toString n
  | .float x => acc ++ float x
  | .str s => acc ++ string s
  | .arr elems => (elements l true (acc.push '[') elems).push ']'
  | .obj ms => (members l true (acc.push '\x7b') ms).push '\x7d'

def elements (l : Layout) (first : Bool) (acc : String) : List Json → String
  | [] => acc
  | v :: rest =>
    elements l false (value l (if first then acc else acc ++ l.comma) v) rest

def members (l : Layout) (first : Bool) (acc : String) : List (String × Json) → String
  | [] => acc
  | (name, v) :: rest =>
    let acc := (if first then acc else acc ++ l.comma) ++ string name ++ l.colon
    members l false (value l acc v) rest

end

end Writer

def render (l : Layout) (v : Json) : String :=
  Writer.value l "" (if l.sorted then Writer.sort v else v)

/-! ## JSON over several lines

Each element and each member has a line of its own, two blanks further in than what holds it. A list or an object
without parts stays on one line.
-/

namespace Writer

def newLine (depth : Nat) : String := "\n" ++ String.join (List.replicate depth "  ")

mutual

def block (depth : Nat) : Json → String
  | .arr [] => "[]"
  | .arr (v :: rest) => "[" ++ blockElements (depth + 1) (v :: rest) ++ newLine depth ++ "]"
  | .obj [] => "\x7b\x7d"
  | .obj (m :: rest) => "\x7b" ++ blockMembers (depth + 1) (m :: rest) ++ newLine depth ++ "\x7d"
  | v => value .compact "" v

def blockElements (depth : Nat) : List Json → String
  | [] => ""
  | [v] => newLine depth ++ block depth v
  | v :: rest => newLine depth ++ block depth v ++ "," ++ blockElements depth rest

def blockMembers (depth : Nat) : List (String × Json) → String
  | [] => ""
  | [(name, v)] => newLine depth ++ string name ++ ": " ++ block depth v
  | (name, v) :: rest =>
    newLine depth ++ string name ++ ": " ++ block depth v ++ "," ++ blockMembers depth rest

end

end Writer

def indented (v : Json) : String := Writer.block 0 v

end PacketSmith.Json
