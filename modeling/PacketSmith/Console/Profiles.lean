import PacketSmith.Console.Tables

/-!
# Commands for action profiles

An action profile holds members, which are actions with parameters, and groups of members.
-/

namespace PacketSmith.Console.Dialog

def checkIndirect (t : TableInfo) : Dialog Unit :=
  if t.source = .simple then refuse "Cannot run this command on non-indirect table" else pure ()

def checkSelecting (t : TableInfo) : Dialog Unit :=
  if t.source = .selecting then pure ()
  else refuse "Cannot run this command on non-indirect table, or on indirect table with no selector"

def checkSelects (p : ProfileInfo) : Dialog Unit :=
  if p.selects then pure () else refuse "Cannot run this command on an action profile without selector"

def profileAction (p : ProfileInfo) (profile action : String) : Dialog ActionInfo := do
  match (← catalog).actionAmong? p.actions action with
  | some a => return a
  | none => refuse ("Action profile '" ++ profile ++ "' has no action '" ++ action ++ "'")

/-! ## Members and groups -/

def createMember : Handler := takingMore 2 fun args => do
  let profileName ← argument args 0
  let p ← profile profileName
  let a ← profileAction p profileName (← argument args 1)
  let data ← actionData a a.name (args.drop 2)
  let member ← request "bm_mt_act_prof_add_member" [.text p.name, .text a.name, .params data]
  say ("Member has been created with handle " ++ member.display)
  return member

def deleteMember : Handler := on profile 2 fun p args => do
  let member ← handle "member handle" (← argument args 1)
  order "bm_mt_act_prof_delete_member" [.text p.name, .int member]

def modifyMember : Handler := takingMore 3 fun args => do
  let profileName ← argument args 0
  let p ← profile profileName
  let a ← profileAction p profileName (← argument args 1)
  let member ← handle "member handle" (← argument args 2)
  let data ← actionData a a.name (← paramsAfterHandle args)
  order "bm_mt_act_prof_modify_member" [.text p.name, .int member, .text a.name, .params data]

def createGroup : Handler := on profile 1 fun p _ => do
  checkSelects p
  let group ← request "bm_mt_act_prof_create_group" [.text p.name]
  say ("Group has been created with handle " ++ group.display)
  return group

def deleteGroup : Handler := on profile 2 fun p args => do
  checkSelects p
  let group ← handle "group handle" (← argument args 1)
  order "bm_mt_act_prof_delete_group" [.text p.name, .int group]

def changeGroup (name : String) : Handler := on profile 3 fun p args => do
  checkSelects p
  let member ← handle "member handle" (← argument args 1)
  let group ← handle "group handle" (← argument args 2)
  order name [.text p.name, .int member, .int group]

def addToGroup : Handler := changeGroup "bm_mt_act_prof_add_member_to_group"

def removeFromGroup : Handler := changeGroup "bm_mt_act_prof_remove_member_from_group"

/-! ## Entries -/

def addIndirect (selecting : Bool) (name : String) : Handler := takingMore 2 fun args => do
  let t ← table (← argument args 0)
  if selecting then checkSelecting t else checkIndirect t
  let (args, priority) ← splitPriority t args
  let i ← arrow 1 args
  if args.length ≠ i + 2 then refuse "Invalid arguments, could not find handle"
  let target ← handle "handle" (← argument args (i + 1))
  let key ← told (keyValues t.key ((args.take i).drop 1))
  say ("Adding entry to indirect match table " ++ t.name)
  let entry ← request name [.text t.name, .key key, .int target, .priority priority]
  say ("Entry has been added with handle " ++ entry.display)
  return entry

def addWithMember : Handler := addIndirect false "bm_mt_indirect_add_entry"

def addWithGroup : Handler := addIndirect true "bm_mt_indirect_ws_add_entry"

def deleteIndirect : Handler := taking 2 fun args => do
  let tableName ← argument args 0
  let t ← table tableName
  checkIndirect t
  let entry ← handle "entry handle" (← argument args 1)
  say s!"Deleting entry {entry} from {tableName}"
  order "bm_mt_indirect_delete_entry" [.text t.name, .int entry]

def defaultIndirect (selecting : Bool) (name : String) : Handler := on table 2 fun t args => do
  if selecting then checkSelecting t else checkIndirect t
  let target ← handle "handle" (← argument args 1)
  order name [.text t.name, .int target]

def defaultMember : Handler := defaultIndirect false "bm_mt_indirect_set_default_member"

def defaultGroup : Handler := defaultIndirect true "bm_mt_indirect_ws_set_default_group"

def resetIndirect : Handler := on table 1 fun t _ => do
  order "bm_mt_indirect_reset_default_entry" [.text t.name]

/-! ## Commands by the table -/

def byTable (newer : String) (command : Handler) (selecting inUse : Bool) : Handler := takingMore 1 fun args => do
  let t ← table (← argument args 0)
  if selecting then checkSelecting t else checkIndirect t
  let some p := (← catalog).profileOf? t | throw (.fault .violated)
  if p.users = 0 then throw (.fault .violated)
  if !inUse && p.users > 1 then refuse "Legacy command does not work with shared action profiles"
  if !inUse then warn ("This is a deprecated command, use '" ++ newer ++ "' instead")
  command (" ".intercalate (p.name :: args.drop 1))

end PacketSmith.Console.Dialog
