import PacketSmith.Program.Basic
import PacketSmith.Term.Bits
import PacketSmith.Options

/-!
# Externs

An extern is an object of a program whose methods are implemented outside of it. A method works on the terms of its
arguments: a field is one term, and a header is the list of the terms of its fields.
-/

namespace PacketSmith

inductive ExternArgument where
  | field (v : Option Bits)
  | header (vs : List (Option Bits))

/-- What a method gives back for an argument. A field that it does not give stays as it is. -/
inductive ExternResult where
  | field (v : Option (Option Bits))
  | header (vs : List (Option (Option Bits)))

def ExternArgument.kept : ExternArgument → ExternResult
  | .field _ => .field none
  | .header vs => .header (vs.map fun _ => none)

abbrev ExternMethod := List ExternArgument → Except Fault (List ExternResult)

abbrev ExternObject := String → Option ExternMethod

abbrev ExternDefinition := List Int → Except Fault ExternObject

abbrev ExternFiles := String → Option ExternDefinition

namespace Extern

/-! ## Shifting to the right -/

def shiftField (n : Int) (input output : Option Bits) : Except Fault Bits :=
  match input, output with
  | some a, some b => do
    require (a.width == b.width)
    return a.arithInt .ashr n
  | _, _ => .error .violated

def applyFields (n : Int) : ExternMethod
  | [.field a, .field b] => do return [.field none, .field (some (some (← shiftField n a b)))]
  | _ => .error .violated

def applyHeaders (n : Int) : ExternMethod
  | [] | [_] => .error .outOfRange
  | .header a :: .header b :: rest => do
    require (a.length == b.length)
    let shifted ← (a.zip b).mapM fun (x, y) => shiftField n x y
    return (ExternArgument.header a).kept :: .header (shifted.map fun b => some (some b)) ::
      rest.map ExternArgument.kept
  | _ => .error .violated

def shiftRight : ExternDefinition
  | [n] => .ok fun
    | "apply_fields" => some (applyFields n)
    | "apply_headers" => some (applyHeaders n)
    | "rshift_bv" => some fun _ => .error .wrongKind
    | "n" => some fun _ => .error .wrongKind
    | _ => none
  | _ => .error .wrongKind

/-! ## Loading -/

def attributeValues (e : ExternInstance) : Except Fault (List Int) :=
  e.attributes.mapM fun a => do
    require (a.type == .str "hexstr")
    a.value.toHexInt

def fileNames (definitions : Option (List String)) : Except Fault (Dict String String) :=
  (definitions.getD []).foldlM (fun d s =>
    match s.toList.span (· != ':') with
    | (name, _ :: file) => .ok (d.insert (String.ofList name) (String.ofList file))
    | (_, []) => .error .malformed) {}

def load (files : ExternFiles) (o : Options) (p : Program) :
    Except Fault (Dict Label ExternObject) := do
  let names ← fileNames o.externDefinitions
  p.externs.entries.foldlM (fun d (name, e) => do
    let missing := Fault.refuted ("Extern definition not provided for '" ++ name.display ++ "'")
    let .text key := name | throw missing
    let some file := names.get? key | throw missing
    let values ← attributeValues e
    let some make := files file | throw .fileMissing
    return d.insert name (← make values)) {}

end Extern

end PacketSmith
