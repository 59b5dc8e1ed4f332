import PacketSmith.Audit.Log

/-!
# Numbers and names that are used twice

Objects of a kind have numbers and names, and no two of them may share one. Tables, conditionals and action calls
share their names, and those of all pipelines are taken together.
-/

namespace PacketSmith.Audit

variable (v : Json)

def noteId (noun : String) (seen : List Json) (id : Json) : Check (List Json) := do
  let _ ← id.key
  if seen.any id.same then
    say ("Several objects of type '" ++ noun ++ "' have the same id " ++ (← numberText id))
    modify fun l => { l with repeatedIds := l.repeatedIds.alter noun 0 (· + 1) }
  return id :: seen

def noteName (noun : String) (seen : List Json) (name : Json) : Check (List Json) := do
  let _ ← name.key
  if seen.any name.same then
    say ("Duplicate objects of type '" ++ noun ++ "' with name '" ++ name.display ++ "'")
    modify fun l => { l with repeatedNames := l.repeatedNames.alter noun 0 (· + 1) }
  return name :: seen

def uniqueIds (noun name : String) : Check Unit := do
  if ← v.holds name then
    let _ ← (← each v name).foldlM (fun seen x => do noteId noun seen (← x.get "id")) []

def uniqueNames (noun name : String) : Check Unit := do
  if ← v.holds name then
    let _ ← (← each v name).foldlM (fun seen x => do noteName noun seen (← x.get "name")) []

def unique (noun name : String) : Check Unit := do
  uniqueIds v noun name
  uniqueNames v noun name

def uniqueAcross (noun name : String) : Check Unit := do
  if ← v.holds "pipelines" then
    let _ ← (← each v "pipelines").foldlM (fun seen pipeline => do
      if ← pipeline.holds name then
        (← each pipeline name).foldlM (fun (names, ids) x => do
          let names ← noteName noun names (← x.get "name")
          let ids ← noteId noun ids (← x.get "id")
          return (names, ids)) seen
      else return seen) ([], [])

def controlNodes (pipeline : Json) : Except Fault (List Json) := do
  let tables ← pipeline.get "tables"
  let conditionals ← pipeline.get "conditionals"
  match tables, conditionals, pipeline.member? "action_calls" with
  | .arr ts, .arr cs, none => return ts ++ cs
  | .arr ts, .arr cs, some (.arr as) => return ts ++ cs ++ as
  | _, _, _ => throw .wrongKind

def uniqueNodes : Check Unit := do
  let _ ← (← each v "pipelines").foldlM (fun seen pipeline => do
    (← controlNodes pipeline).foldlM (fun seen x => do noteName "control node" seen (← x.get "name")) seen) []

def firstKinds : List (String × String) := [
  ("header type", "header_types"), ("header", "headers"), ("header stack", "header_stacks"),
  ("extern", "extern_instances"), ("parser vset", "parse_vsets"), ("parser", "parsers")]

/-- The kinds of objects whose numbers and names are checked after those of parse states. -/
def otherKinds : List (String × String) := [
  ("deparser", "deparsers"), ("calculation", "calculations"), ("counter", "counter_arrays"),
  ("meter", "meter_arrays"), ("register", "register_arrays")]

def numberedKinds : List (String × String) := [
  ("checksum", "checksums"), ("learn list", "learn_lists"), ("field list", "field_lists"),
  ("action", "actions")]

def pipelineKinds : List (String × String) := [
  ("action profile", "action_profiles"), ("table", "tables"), ("conditional", "conditionals")]

def sayCounts (what : String) (counts : Dict String Nat) : Check Unit :=
  (counts.entries.mergeSort fun a b => a.1 ≤ b.1).forM fun (noun, n) => do
    say ("Found " ++ toString n ++ " duplicate " ++ what ++ " errors among objects of type '" ++ noun ++ "'")
    tally n

def checkUnique : Check Unit := do
  firstKinds.forM fun (noun, name) => unique v noun name
  (← each v "parsers").forM fun p => unique p "parse state" "parse_states"
  otherKinds.forM fun (noun, name) => unique v noun name
  numberedKinds.forM fun (noun, name) => uniqueIds v noun name
  unique v "pipeline" "pipelines"
  uniqueNodes v
  pipelineKinds.forM fun (noun, name) => uniqueAcross v noun name
  sayCounts "id" (← get).repeatedIds
  sayCounts "name" (← get).repeatedNames

end PacketSmith.Audit
