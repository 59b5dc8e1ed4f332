import PacketSmith.Program.Operand

/-!
# Actions

An action is a list of primitive calls over the parameters that a table entry
gives it.
-/

/-! ## Places in the source

Where a part of a program stands in its source text. Two places are the same if file, line and fragment agree and the
columns do not differ, an unknown column differing from none.
-/

namespace PacketSmith

structure SourceInfo where
  filename : Label
  fragment : Label
  line : Label
  column : Label := .null
deriving DecidableEq, Inhabited

namespace SourceInfo

def ofJson (v : Json) : Except Fault SourceInfo := do
  let filename ← v.get "filename"
  let fragment ← v.get "source_fragment"
  let line ← (← v.get "line").toInt
  let column ← (← v.get "column").toInt
  return ⟨filename.asLabel, fragment.asLabel, .int line, .int column⟩

def ofOwner (v : Json) : Except Fault (Option SourceInfo) := do
  if ← v.holds "source_info" then some <$> ofJson (← v.get "source_info") else return none

def same (a b : SourceInfo) : Bool :=
  a.filename == b.filename && a.line == b.line &&
    (a.column == .null || b.column == .null || a.column == b.column) && a.fragment == b.fragment

def spot (a : SourceInfo) : Label × Label × Label := (a.filename, a.line, a.fragment)

def describe (a : SourceInfo) : String :=
  let column := if a.column == .null then "<unknown>" else a.column.display
  a.filename.display ++ ":" ++ a.line.display ++ "," ++ column ++ " : " ++ a.fragment.display

def display (a : SourceInfo) : String :=
  "(" ++ a.filename.inner ++ ", " ++ a.line.inner ++ ", " ++ a.fragment.inner ++ ")"

end SourceInfo

structure PrimitiveCall where
  op : Json
  parameters : List Operand
  source : Option SourceInfo

namespace PrimitiveCall

def ofJson (v : Json) : Except Fault PrimitiveCall := do
  let op ← v.get "op"
  let parameters ← (← (← v.get "parameters").items).mapM Operand.ofJson
  let _ ← parameters.mapM Operand.display
  return ⟨op, parameters, ← SourceInfo.ofOwner v⟩

end PrimitiveCall

structure ActionParameter where
  name : Json
  width : Int

namespace ActionParameter

def ofJson (v : Json) : Except Fault ActionParameter := do
  let name ← v.get "name"
  return ⟨name, ← (← v.get "bitwidth").toInt⟩

end ActionParameter

structure Action where
  name : Label
  id : Int
  parameters : List ActionParameter
  primitives : List PrimitiveCall
deriving Inhabited

namespace Action

def ofJson (v : Json) : Except Fault Action := do
  let name ← v.get "name"
  let id ← (← v.get "id").toInt
  let parameters ← (← (← v.get "runtime_data").items).mapM ActionParameter.ofJson
  let primitives ← (← (← v.get "primitives").items).mapM PrimitiveCall.ofJson
  return ⟨← name.key, id, parameters, primitives⟩

end Action

end PacketSmith
