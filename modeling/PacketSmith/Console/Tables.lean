import PacketSmith.Console.Entry

/-!
# Commands for tables

Lists tables and actions, sets default actions, and adds, changes and deletes entries.
-/

namespace PacketSmith.Console.Dialog

def sorted (names : List String) : List String := names.mergeSort (· ≤ ·)

def sayActions (names : List String) : Dialog Unit := do
  let c ← catalog
  (sorted names).forM fun name => do
    match c.actions.get? name with
    | some a => say (← part a.line)
    | none => throw (.fault (.missing (.text name)))

def showTables : Handler := taking 0 fun _ => do
  let c ← catalog
  (sorted c.tables.keys).forM fun name => (c.tables.get? name).forM fun t => say (c.tableLine t)
  return .null

def showActions : Handler := taking 0 fun _ => do
  sayActions (← catalog).actions.keys
  return .null

def tableActions : Handler := on table 1 fun t _ => do
  sayActions t.actions
  return .null

def tableInfo : Handler := on table 1 fun t _ => do
  say ((← catalog).tableLine t)
  say ("".pushn '*' 80)
  sayActions t.actions
  return .null

def setDefault : Handler := takingMore 2 fun args => do
  let tableName ← argument args 0
  let actionName ← argument args 1
  let t ← table tableName
  let a ← tableAction t tableName actionName
  let data ← actionData a actionName (args.drop 2)
  say ("Setting default action of " ++ tableName)
  sayAction actionName data
  order "bm_mt_set_default_action" [.text t.name, .text a.name, .params data]

def resetDefault : Handler := on table 1 fun t _ => do
  order "bm_mt_reset_default_entry" [.text t.name]

/-- Tells the number of entries of a table. The switch is asked twice, once for what is printed and
once for the value. -/
def entryCount : Handler := on table 1 fun t _ => do
  say (← request "bm_mt_get_num_entries" [.text t.name]).display
  request "bm_mt_get_num_entries" [.text t.name]

def clearTable : Handler := on table 1 fun t _ => do
  order "bm_mt_clear_entries" [.text t.name, .bool false]

def addEntry : Handler := takingMore 3 fun args => do
  let tableName ← argument args 0
  let actionName ← argument args 1
  let t ← table tableName
  let a ← tableAction t tableName actionName
  let (args, priority) ← splitPriority t args
  let i ← arrow 2 args
  let fields := (args.take i).drop 2
  if fields.length ≠ t.key.length then refuse s!"Table {tableName} needs {t.key.length} key fields"
  let data ← actionData a a.name (args.drop (i + 1))
  let key ← told (keyValues t.key fields)
  say ("Adding entry to " ++ t.kind.name ++ " match table " ++ tableName)
  sayUnder "match key:" ("\t".intercalate (key.map KeyValue.display))
  sayAction actionName data
  let handle ← request "bm_mt_add_entry"
    [.text t.name, .key key, .text a.name, .params data, .priority priority]
  say ("Entry has been added with handle " ++ handle.display)
  return handle

def setTimeout : Handler := taking 3 fun args => do
  let tableName ← argument args 0
  let t ← table tableName
  if !t.timeouts.truth then refuse ("Table " ++ tableName ++ " does not support entry timeouts")
  let entry ← handle "entry handle" (← argument args 1)
  let time ← handle "timeout" (← argument args 2)
  say s!"Setting a {time} ms timeout for entry {entry}"
  order "bm_mt_set_entry_ttl" [.text t.name, .int entry, .int time]

def paramsAfterHandle (args : List String) : Dialog (List String) := do
  if (← argument args 3) == "=>" then return args.drop 4 else return args.drop 3

def modifyEntry : Handler := takingMore 3 fun args => do
  let tableName ← argument args 0
  let t ← table tableName
  let a ← tableAction t tableName (← argument args 1)
  let entry ← handle "entry handle" (← argument args 2)
  let data ← actionData a a.name (← paramsAfterHandle args)
  say s!"Modifying entry {entry} for {t.kind.name} match table {tableName}"
  order "bm_mt_modify_entry" [.text t.name, .int entry, .text a.name, .params data]

def deleteEntry : Handler := taking 2 fun args => do
  let tableName ← argument args 0
  let t ← table tableName
  let entry ← handle "entry handle" (← argument args 1)
  say s!"Deleting entry {entry} from {tableName}"
  order "bm_mt_delete_entry" [.text t.name, .int entry]

end PacketSmith.Console.Dialog
