import PacketSmith.Program.Pipeline

/-!
# Commands that set up tables

A command sets the default action of a table, or adds an entry with its keys.
-/

namespace PacketSmith

inductive EntryValue where
  | number (width value : Nat)
  | unknown (width : Nat) (name : String)
deriving DecidableEq, Inhabited

namespace EntryValue

def width : EntryValue → Nat
  | number w _ => w
  | unknown w _ => w

def text : EntryValue → String
  | number _ n => toString n
  | unknown _ name => name

def value? : EntryValue → Option Nat
  | number _ n => some n
  | unknown _ _ => none

end EntryValue

inductive KeyMatch where
  | exact
  | lpm
  | ternary
  | range
deriving DecidableEq, Inhabited

namespace KeyMatch

def name : KeyMatch → String
  | exact => "exact"
  | lpm => "lpm"
  | ternary => "ternary"
  | range => "range"

def ofName? (s : String) : Option KeyMatch :=
  [exact, lpm, ternary, range].find? fun k => k.name == s

def needsPriority : KeyMatch → Bool
  | ternary | range => true
  | _ => false

end KeyMatch

structure EntryKey where
  kind : KeyMatch
  field : String
  value : EntryValue
deriving DecidableEq, Inhabited

namespace EntryKey

def text (k : EntryKey) : String :=
  match k.kind with
  | .exact => k.value.text
  | .lpm => k.value.text ++ "/" ++ toString k.value.width
  | .ternary => k.value.text ++ "&&&" ++ toString (Nat.pow 2 k.value.width - 1)
  | .range => k.value.text ++ "->" ++ k.value.text

def toJson (k : EntryKey) : Json :=
  let value : Json := match k.value.value? with
    | some n => .int n
    | none => .null
  let head : List (String × Json) := [("match_kind", .str k.kind.name), ("key_field_name", .str k.field)]
  match k.kind with
  | .exact => .obj (head ++ [("value", value)])
  | .lpm => .obj (head ++ [("value", value), ("prefix_length", .int k.value.width)])
  | .ternary => .obj (head ++ [("value", value), ("mask", .int (Nat.pow 2 k.value.width - 1 : Nat))])
  | .range => .obj (head ++ [("min_value", value), ("max_value", value)])

end EntryKey

structure EntryConfig where
  table : Label
  action : Label
  byDefault : Bool
  keys : List EntryKey
  params : List (Json × EntryValue)

namespace EntryConfig

def priority (c : EntryConfig) : Option Nat :=
  if c.keys.any fun k => k.kind.needsPriority then some 1 else none

end EntryConfig

namespace Table

def keyField (k : TableKey) : Except Fault String := do
  let parts ← (← k.target.items).mapM fun
    | .str s => .ok s
    | _ => .error .wrongKind
  return ".".intercalate parts

def entryKey (k : TableKey) (v : EntryValue) : Except Fault EntryKey := do
  let field ← keyField k
  match k.matchType.str?.bind KeyMatch.ofName? with
  | some kind => return ⟨kind, field, v⟩
  | none => throw (.unsupported ("Match type " ++ k.matchType.display ++ " not supported"))

def entryConfig (t : Table) (action : Label) (byDefault : Bool) (values : List EntryValue)
    (params : List (Json × EntryValue)) : Except Fault (Option EntryConfig) := do
  let keys ← (t.key.zip values).mapM fun (k, v) => entryKey k v
  let some entry := t.defaultEntry | throw .noPart
  if keys.isEmpty && entry.actionConst.truth then return none
  else return some ⟨t.name, action, byDefault, keys, params⟩

end Table

inductive TableCommand where
  | setDefault (table action : Label) (params : List (Json × EntryValue))
  | add (table action : Label) (keys : List EntryKey) (params : List (Json × EntryValue))
      (priority : Option Nat)

namespace TableCommand

def ofConfig (t : Table) (c : EntryConfig) : TableCommand :=
  if c.keys.isEmpty || t.hasConstEntries || c.byDefault then .setDefault c.table c.action c.params
  else .add c.table c.action c.keys c.params c.priority

def setDefaultText (table action : String) (params : List String) : String :=
  table ++ " " ++ action ++ " " ++ " ".intercalate params

def addText (table action : String) (keys params : List String) (priority : Option Int) : String :=
  table ++ " " ++ action ++ " " ++ " ".intercalate keys ++ " => " ++ " ".intercalate params ++
    (match priority with
      | some n => if n = 0 then "" else " " ++ toString n
      | none => "")

def paramText (p : Json × EntryValue) : String :=
  match p.2.value? with
  | some n => toString n
  | none => "None"

def isDefault : TableCommand → Bool
  | setDefault _ _ _ => true
  | add _ _ _ _ _ => false

def arguments : TableCommand → String
  | setDefault table action params =>
    setDefaultText table.display action.display (params.map paramText)
  | add table action keys params priority =>
    addText table.display action.display (keys.map EntryKey.text) (params.map paramText)
      (priority.map fun n => n)

def text (c : TableCommand) : String :=
  (if c.isDefault then "table_set_default " else "table_add ") ++ c.arguments

def paramJson (p : Json × EntryValue) : Json :=
  .obj [("name", p.1), ("value", match p.2.value? with
    | some n => .int n
    | none => .null)]

def toJson : TableCommand → Json
  | setDefault table action params =>
    .obj [("command", .str "table_set_default"), ("table_name", table.toJson),
      ("action_name", action.toJson), ("action_parameters", .arr (params.map paramJson))]
  | add table action keys params priority =>
    .obj ([("command", .str "table_add"), ("table_name", table.toJson),
      ("keys", .arr (keys.map EntryKey.toJson)), ("action_name", action.toJson),
      ("action_parameters", .arr (params.map paramJson))] ++
      (match priority with
        | some n => [("priority", .int n)]
        | none => []))

end TableCommand

end PacketSmith
