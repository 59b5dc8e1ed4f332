import PacketSmith.Audit.Log

/-!
# Field lists

Some operations keep fields of a packet that goes through the switch again.
-/

namespace PacketSmith.Audit

/-! ## Shapes -/

/-- Whether a field of a header type has the needed shape: a name, a positive width and a sign, or a
name and a star. -/
def isField : Json → Bool
  | .arr [.str _, width, sign] =>
    isWhole width && ((width.number?).map fun n => decide (0 < n)).getD false && isWhole sign
  | .arr [.str _, .str star] => star == "*"
  | _ => false

def headerType (v : Json) : Except Fault (String × Json) := do
  let name ← textMember v "name"
  let _ ← wholeMember v "id"
  require ((← listMember v "fields").all isField)
  return (name, v)

def truthMember (v : Json) (name : String) : Except Fault Bool := do
  require (← v.holds name)
  match ← v.get name with
  | .bool b => return b
  | _ => throw .violated

def headerOf (types : Dict String Json) (v : Json) : Except Fault (String × Json) := do
  let name ← textMember v "name"
  let _ ← wholeMember v "id"
  require (types.contains (← textMember v "header_type"))
  let _ ← truthMember v "metadata"
  let _ ← truthMember v "pi_omit"
  return (name, v)

def hasField (type : Json) (name : String) : Except Fault Bool := do
  return (← each type "fields").any fun f => ((f.arr?).bind List.head?).any fun n => n == .str name

def checkElement (types headers : Dict String Json) (e : Json) : Except Fault Unit := do
  require (← e.holds "type")
  require (← e.holds "value")
  let type ← e.get "type"
  let value ← e.get "value"
  require (type == .str "field" || type == .str "hexstr")
  match value with
  | .str _ => require (type == .str "hexstr")
  | .arr parts =>
    if type == .str "field" then
      match parts with
      | [.str header, .str field] =>
        match headers.get? header with
        | none => throw .violated
        | some h =>
          match types.get? (← textMember h "header_type") with
          | none => throw .violated
          | some t => require (← hasField t field)
      | _ => throw .violated
  | _ => throw .violated

def fieldList (types headers : Dict String Json) (v : Json) : Except Fault (Json × Json) := do
  require (← v.holds "id")
  require (← v.holds "name")
  (← listMember v "elements").forM (checkElement types headers)
  let id ← v.get "id"
  let _ ← id.key
  return (id, v)

/-! ## Suspicious elements -/

def isLineFrom (start s : String) : Bool :=
  Text.startsWith s start &&
    let rest := s.toList.drop start.length
    !(if rest.getLast? = some '\n' then rest.dropLast else rest).contains '\n'

inductive ElementKind where
  | fine
  | constant
  | packet
  | temporary
deriving DecidableEq

def elementKind (headers : Dict String Json) (e : Json) : Except Fault ElementKind := do
  match ← e.get "type", ← e.get "value" with
  | .str "field", .arr [.str header, .str field] =>
    match headers.get? header with
    | none => throw .violated
    | some h =>
      if !(← truthMember h "metadata") then return .packet
      else if isLineFrom "scalars" header && isLineFrom "tmp" field then return .temporary
      else return .fine
  | _, _ => return .constant

def elementsOf (kind : ElementKind) (elements : List (ElementKind × Json)) : List Json :=
  (elements.filter fun e => e.1 = kind).map Prod.snd

def sayElements (title : List String) (elements : List Json) : Check Unit := do
  if !elements.isEmpty then
    say ""
    title.forM say
    sayValue (.arr elements)

def isHexText (s : String) : Bool :=
  match s.toList with
  | '0' :: 'x' :: rest =>
    let digits := if rest.getLast? = some '\n' then rest.dropLast else rest
    !digits.isEmpty && digits.all fun c => c.isDigit || ('a' ≤ c && c ≤ 'f') || ('A' ≤ c && c ≤ 'F')
  | _ => false

def listNumber (param : Json) : Except Fault Int := do
  require (← param.holds "type")
  require ((← param.get "type") == .str "hexstr")
  require (← param.holds "value")
  match ← param.get "value" with
  | .str s =>
    require (isHexText s)
    (Json.str s).toHexInt
  | _ => throw .violated

def checkList (lists : List (Json × Json)) (headers : Dict String Json) (action id primitive param : Json) :
    Check Bool := do
  let number ← listNumber param
  let some found := lookup lists (.int number) | throw .violated
  let elements ← (← each found "elements").mapM fun e => do return (← elementKind headers e, e)
  if elements.all fun e => e.1 = .fine then return false
  say ""
  say "----------"
  say ("The action named '" ++ action.display ++ "' (id " ++ (← numberText id) ++
    ") contains primitive op '" ++ (← primitive.get "op").display ++ "'")
  say "The field lists for resubmit, recirculate, or clone3 operations should"
  say "contain only metadata field names, but the wrong or suspicious-looking"
  say "field list elements below were found:"
  sayElements ["Field list element has type other than 'field':"] (elementsOf .constant elements)
  sayElements ["Field is part of a packet header:"] (elementsOf .packet elements)
  sayElements ["Field is metadata, but its name looks like it may be a compiler-",
    "generated temporary, not one that the user wrote in their program:"] (elementsOf .temporary elements)
  say ""
  say "The BMv2 JSON data details below may be useful to developers:"
  sayValue primitive
  say ("field_list id=" ++ toString number ++ " info:")
  sayValue found
  return true

/-! ## Operations -/

def keepers : List (String × Nat) := [
  ("resubmit", 0), ("recirculate", 0), ("clone_ingress_pkt_to_egress", 1),
  ("clone_egress_pkt_to_egress", 1)]

abbrev Found := Dict String (Nat × Nat)

def checkKeeper (lists : List (Json × Json)) (headers : Dict String Json) (action id : Json) (counts : Found)
    (primitive : Json) : Check Found := do
  let op ← textMember primitive "op"
  let params ← listMember primitive "parameters"
  match keepers.lookup op with
  | none => return counts
  | some position =>
    require (params.length == position + 1)
    if position = 1 then
      let first ← (Json.arr params).elem 0
      let _ ← textMember first "type"
      require (← first.holds "value")
    let suspicious ← checkList lists headers action id primitive (← (Json.arr params).elem position)
    if suspicious then tally 1
    return counts.alter op (0, 0) fun (n, bad) => (n + 1, if suspicious then bad + 1 else bad)

def column (n : Nat) : String := Text.padLeft 5 (toString n)

def sayFound (counts : Found) : Check Unit := do
  let rows := keepers.map fun k => (k.1, counts.getD k.1 (0, 0))
  let sum (f : Nat × Nat → Nat) : Nat := (rows.map fun r => f r.2).foldl (· + ·) 0
  if 0 < sum Prod.fst then
    say "  #"
    say "found # bad Primitive operation name"
    say "----- ----- ------------------------"
    rows.forM fun (op, n, bad) => say (column n ++ " " ++ column bad ++ " " ++ op)
    say "----- ----- ------------------------"
    say (column (sum Prod.fst) ++ " " ++ column (sum Prod.snd) ++ " Total")

def checkFieldLists (v : Json) : Check Unit := do
  let types ← (← listMember v "header_types").mapM fun t => (headerType t : Except Fault _)
  let types := Dict.ofList types
  let headers ← (← listMember v "headers").mapM fun h => (headerOf types h : Except Fault _)
  let headers := Dict.ofList headers
  let lists ← (← listMember v "field_lists").mapM fun l => (fieldList types headers l : Except Fault _)
  let lists := lists.foldl (fun d l => file d l.1 l.2) []
  let counts ← (← listMember v "actions").foldlM (fun counts action => do
    let id ← wholeMember action "id"
    let name ← textMember action "name"
    let _ ← listMember action "runtime_data"
    (← listMember action "primitives").foldlM (checkKeeper lists headers (.str name) id) counts)
    ({} : Found)
  sayFound counts

end PacketSmith.Audit
