import PacketSmith.Audit.FieldList
import PacketSmith.Audit.Reference
import PacketSmith.Audit.Unique

/-!
# The audit of a program file

Numbers and names that are used twice, kinds of expressions, references to arrays, field lists, and the names that
tables give to actions. Findings that count fail the audit at its end.
-/

namespace PacketSmith.Audit

def actionNames (v : Json) : Except Fault (List (Json × Json)) := do
  (← each v "actions").foldlM (fun names action => do
    require (← action.holds "name")
    require (← action.holds "id")
    let id ← action.get "id"
    return file names id (← action.get "name")) []

def numbersOf (names : List (Json × Json)) (name : Json) : String :=
  let ids := ((names.filter fun e => e.2.same name).map Prod.fst).mergeSort fun a b =>
    (a.number?).getD 0 ≤ (b.number?).getD 0
  " ".intercalate (ids.map Json.display)

def checkAction (names : List (Json × Json)) (table id : Json) (action : Json × Json) : Check Unit := do
  let (number, name) := action
  require (isWhole number && (name.str?).isSome)
  match lookup names number with
  | none => throw (.missing (← number.key))
  | some declared =>
    if !declared.same name then
      say ("Table '" ++ table.display ++ "' (id " ++ (← numberText id) ++ ") has action with id " ++
        (← numberText number) ++ " and name '" ++ name.display ++
        "', but the only action ids associated with that name are: " ++ numbersOf names name)

def listOf : Json → Except Fault (List Json)
  | .arr vs => .ok vs
  | _ => .error .violated

def checkActions (v : Json) : Check Unit := do
  let names ← actionNames v
  (← each v "pipelines").forM fun p => do
    (← each p "tables").forM fun t => do
      let id ← t.get "id"
      let name ← t.get "name"
      let numbers ← t.get "action_ids"
      let actions ← t.get "actions"
      let numbers ← listOf numbers
      let actions ← listOf actions
      require (numbers.length == actions.length)
      (numbers.zip actions).forM (checkAction names name id)

def check (v : Json) : Check Unit := do
  checkUnique v
  checkParsers v
  checkPrimitives v
  checkConditionals v
  checkFieldLists v
  checkActions v
  let total := (← get).total
  if 0 < total then
    say (toString total ++ " total errors")
    throw .violated

def run (v : Json) : String × Except Fault Unit :=
  let (r, log) := (ExceptT.run (check v)).run {}
  (String.join (log.lines.reverse.map fun l => l ++ "\n"), r)

end PacketSmith.Audit
