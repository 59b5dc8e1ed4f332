import PacketSmith.Dict
import PacketSmith.Program.Action

/-!
# Pipelines

A table names a successor for each of its actions, or one for a hit and one for a miss. Its default action may be
constant, and so may its entries.
-/

namespace PacketSmith

variable (v : Json)

structure TableKey where
  matchType : Json
  target : Json
  mask : Json
deriving Inhabited

namespace TableKey

def ofJson : Except Fault TableKey := do
  let matchType ← v.get "match_type"
  let target ← v.get "target"
  return ⟨matchType, target, ← v.get "mask"⟩

end TableKey

structure DefaultEntry where
  actionId : Json
  actionConst : Json
  entryConst : Json
deriving Inhabited

namespace DefaultEntry

def ofJson : Except Fault DefaultEntry := do
  let actionId ← v.get "action_id"
  let actionConst ← v.get "action_const"
  let entryConst ← v.get "action_entry_const"
  require (actionConst.same entryConst)
  return ⟨actionId, actionConst, entryConst⟩

end DefaultEntry

structure MatchKey where
  matchType : Json
  key : Json

namespace MatchKey

def ofJson : Except Fault MatchKey := do
  let matchType ← v.get "match_type"
  return ⟨matchType, ← v.get "key"⟩

def display (k : MatchKey) : String :=
  "MatchKey " ++ k.matchType.display ++ " key=" ++ k.key.display

end MatchKey

structure TableEntry where
  matchKeys : List MatchKey
  actionId : Int
  actionData : Json
  priority : Int

namespace TableEntry

def exactInt : Json → Except Fault Int
  | .int n => .ok n
  | .bool b => .ok (if b then 1 else 0)
  | _ => .error .violated

def ofJson : Except Fault TableEntry := do
  let matchKeys ← (← (← v.get "match_key").items).mapM MatchKey.ofJson
  let entry ← v.get "action_entry"
  let actionId ← exactInt (← entry.get "action_id")
  let actionData ← entry.get "action_data"
  let priority ← exactInt (← v.get "priority")
  return ⟨matchKeys, actionId, actionData, priority⟩

def displayAction (e : TableEntry) : String :=
  "ActionEntry action_id=" ++ toString e.actionId ++ " params=" ++ e.actionData.display

end TableEntry

def hitName : String := "__HIT__"

def missName : String := "__MISS__"

structure Table where
  name : Label
  id : Int
  key : List TableKey
  matchType : Json
  maxSize : Int
  actions : List (Label × Int)
  baseDefaultNext : Json
  successors : Dict (Label × Int) Label
  defaultEntry : Option DefaultEntry
  entries : List TableEntry
  source : Option SourceInfo
deriving Inhabited

namespace Table

variable (t : Table)

def outcomeId? : String → Option Int
  | "__HIT__" => some (-1)
  | "__MISS__" => some (-2)
  | _ => none

def actionIds (table : Label) (actions : List (Label × Int)) : Except Fault (Dict Label Int) :=
  actions.foldlM (fun d a =>
    if d.contains a.1 then throw (.repeatedAction a.1 table) else return d.insert a.1 a.2) {}

def readSuccessors (ids : Dict Label Int) (members : List (String × Json)) :
    Except Fault (Dict (Label × Int) Label) :=
  members.foldlM (fun d m => do
    match outcomeId? m.1 with
    | some id => return d.insert (.text m.1, id) m.2.asLabel
    | none =>
      match ids.get? (.text m.1) with
      | none => throw (.missing m.1)
      | some id =>
        require (id != -1 && id != -2)
        return d.insert (.text m.1, id) m.2.asLabel) {}

def ofJson : Except Fault Table := do
  let name ← v.get "name"
  let id ← (← v.get "id").toInt
  let key ← (← (← v.get "key").items).mapM TableKey.ofJson
  let matchType ← v.get "match_type"
  let maxSize ← (← v.get "max_size").toInt
  let _ ← v.get "support_timeout"
  let _ ← v.get "direct_meters"
  let ids ← (← (← v.get "action_ids").items).mapM Json.toInt
  let names ← (← v.get "actions").items
  require (ids.length == names.length)
  let actions ← (names.zip ids).mapM fun a => do return (← a.1.key, a.2)
  let byName ← actionIds name.asLabel actions
  let baseDefaultNext ← v.get "base_default_next"
  let successors ← readSuccessors byName (← (← v.get "next_tables").pairs)
  let defaultEntry ←
    if ← v.holds "default_entry" then some <$> DefaultEntry.ofJson (← v.get "default_entry")
    else pure none
  let entries ←
    if ← v.holds "entries" then (← (← v.get "entries").items).mapM TableEntry.ofJson else pure []
  let source ← SourceInfo.ofOwner v
  return {
    name := ← name.key
    id := id
    key := key
    matchType := matchType
    maxSize := maxSize
    actions := actions
    baseDefaultNext := baseDefaultNext
    successors := successors
    defaultEntry := defaultEntry
    entries := entries
    source := source }

def defaultAction : Except Fault (Label × Int) :=
  match t.defaultEntry with
  | none => .error .violated
  | some d => do
    let key ← d.actionId.key
    match d.actionId.number? with
    | none => throw (.missing key)
    | some id =>
      match t.actions.reverse.find? fun a => a.2 == id with
      | some a => return (a.1, id)
      | none => throw (.missing key)

def hasConstEntries : Bool := !t.entries.isEmpty

def hasConstDefault : Except Fault Bool :=
  match t.defaultEntry with
  | some d => .ok d.actionConst.truth
  | none => .error .noPart

def keyless : Bool := t.key.isEmpty

def display : String := "Table " ++ t.name.display

end Table

structure Conditional where
  name : Label
  id : Int
  expression : Operand
  trueNext : Label
  falseNext : Label
  source : Option SourceInfo
deriving Inhabited

namespace Conditional

def ofJson : Except Fault Conditional := do
  let name ← v.get "name"
  let id ← (← v.get "id").toInt
  let expression ← Operand.ofJson (← v.get "expression")
  let trueNext ← v.get "true_next"
  let falseNext ← v.get "false_next"
  let source ← SourceInfo.ofOwner v
  return ⟨← name.key, id, expression, trueNext.asLabel, falseNext.asLabel, source⟩

def display (c : Conditional) : Except Fault String := do
  return c.name.display ++ ": if " ++ (← c.expression.display) ++ " then " ++ c.trueNext.display ++
    " else " ++ c.falseNext.display

end Conditional

structure Pipeline where
  name : Label
  id : Int
  initTable : Json
  tables : Dict Label Table
  conditionals : Dict Label Conditional
deriving Inhabited

namespace Pipeline

def ofJson : Except Fault Pipeline := do
  let name ← v.get "name"
  let id ← (← v.get "id").toInt
  let initTable ← v.get "init_table"
  let tables ← (← (← v.get "tables").items).mapM Table.ofJson
  let conditionals ← (← (← v.get "conditionals").items).mapM Conditional.ofJson
  return {
    name := ← name.key
    id := id
    initTable := initTable
    tables := Dict.ofList (tables.map fun t => (t.name, t))
    conditionals := Dict.ofList (conditionals.map fun c => (c.name, c)) }

end Pipeline

end PacketSmith
