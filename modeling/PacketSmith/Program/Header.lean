import PacketSmith.Dict
import PacketSmith.Json.Access

/-!
# Headers

One field of a header type may vary in length: its size is then what the fields of fixed size leave of the greatest
length.
-/

namespace PacketSmith

structure Field where
  name : String
  /-- The size in bits, the greatest one if the field varies in length. A field that varies in
  length has none if its type bounds no length. -/
  size : Option Int
  signed : Bool := false
  varLength : Bool := false
deriving DecidableEq

namespace Field

def ofJson (v : Json) : Except Fault Field := do
  let n ← v.length
  require (n ≥ 2)
  let name ← v.elem 0
  let size ← v.elem 1
  if n == 3 then
    let size ← size.toInt
    return { name := name.display, size := some size, signed := (← v.elem 2).truth }
  else
    match size with
    | .str "*" => return { name := name.display, size := none, varLength := true }
    | size => return { name := name.display, size := some (← size.toInt) }

def display (f : Field) : String :=
  let size := match f.size with
    | some n => toString n
    | none => "None"
  "HLIR_Field(" ++ f.name ++ ", " ++ size ++ " " ++ (if f.varLength then "(max)" else "") ++ ", " ++
    (if f.signed then "True" else "False") ++ ")"

end Field

structure HeaderType where
  name : String
  id : Int
  fields : Dict String Field
  lengthExp : Option Int
  maxLength : Option Int

namespace HeaderType

def fixedLength (fields : List Field) : Int :=
  fields.foldl (fun n f => n + (if f.varLength then 0 else f.size.getD 0)) 0

def bound (maxLength fixed : Int) (fields : Dict String Field) : Dict String Field :=
  fields.map fun f => if f.varLength then { f with size := some (maxLength - fixed) } else f

def ofJson (v : Json) : Except Fault HeaderType := do
  let some name ← v.given "name" | throw (.lacking "Header_Type" "name")
  let some id ← v.given "id" | throw (.lacking "Header_Type" "id")
  let id ← id.toInt
  let some fields ← v.given "fields" | throw .lackingFields
  let fields ← (← fields.items).mapM Field.ofJson
  let table := Dict.ofList (fields.map fun f => (f.name, f))
  let lengthExp ← (← v.given "length_exp").mapM Json.toInt
  let maxLength ← (← v.given "max_length").mapM Json.toInt
  let maxLength := maxLength.map (· * 8)
  return {
    name := name.display
    id := id
    fields := match maxLength with
      | some n => bound n (fixedLength fields) table
      | none => table
    lengthExp := lengthExp
    maxLength := maxLength }

end HeaderType

structure Header where
  name : String
  id : Int
  typeName : String
  metadata : Bool
  piOmit : Bool
  fields : Dict String Field

namespace Header

def validField : Field := { name := "$valid$", size := some 1 }

def ofJson (types : Dict String HeaderType) (v : Json) : Except Fault Header := do
  let some name ← v.given "name" | throw (.lacking "Headers" "name")
  let some id ← v.given "id" | throw (.lacking "Headers" "id")
  let id ← id.toInt
  let some typeName ← v.given "header_type" | throw (.lacking "Headers" "header_type")
  let typeName := typeName.display
  let some metadata ← v.given "metadata" | throw (.lacking "Headers" "metadata")
  let piOmit ← v.given "pi_omit"
  let some type := types.get? typeName | throw (.missing typeName)
  let own : Dict String Field :=
    if metadata.truth then .empty else Dict.empty.insert validField.name validField
  return {
    name := name.display
    id := id
    typeName := typeName
    metadata := metadata.truth
    piOmit := (piOmit.map Json.truth).getD false
    fields := type.fields.values.foldl (fun d f => d.insert f.name f) own }

end Header

structure Stack where
  name : Label
  id : Int
  headerType : Label
  size : Int

namespace Stack

def ofJson (v : Json) : Except Fault Stack := do
  let name ← v.get "name"
  let id ← (← v.get "id").toInt
  let headerType ← v.get "header_type"
  let size ← (← v.get "size").toInt
  return ⟨← name.key, id, headerType.asLabel, size⟩

end Stack

end PacketSmith
