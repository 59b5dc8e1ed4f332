import PacketSmith.Console.Profiles

/-!
# Commands that list entries

Lists the entries of tables, and the members and groups of action profiles, as the switch
reports them.
-/

namespace PacketSmith.Console.Dialog

/-! ## Actions, members and groups -/

def sayActionData (name data : Reply) : Dialog Unit := do
  let shown ← (← part data.items).mapM fun d => part d.hex
  say ("Action entry: " ++ name.display ++ " - " ++ ", ".intercalate shown)

def sayActionEntry (e : Reply) : Dialog Unit := do
  match (← part (e.part "action_type")).number? with
  | some 0 => say "EMPTY"
  | some 1 => sayActionData (← part (e.part "action_name")) (← part (e.part "action_data"))
  | some 2 => say ("Index: member(" ++ (← part (e.part "mbr_handle")).display ++ ")")
  | some 3 => say ("Index: group(" ++ (← part (e.part "grp_handle")).display ++ ")")
  | _ => pure ()

def sayMember (m : Reply) : Dialog Unit := do
  say ("Dumping member " ++ (← part (m.part "mbr_handle")).display)
  sayActionData (← part (m.part "action_name")) (← part (m.part "action_data"))

def sayGroup (g : Reply) : Dialog Unit := do
  say ("Dumping group " ++ (← part (g.part "grp_handle")).display)
  let members := (← part (do (← g.part "mbr_handles").items)).map Reply.display
  say ("Members: [" ++ ", ".intercalate members ++ "]")

def sayEach (one : Reply → Dialog Unit) (things : Reply) : Dialog Unit := do
  (← part things.items).forM fun r => do
    say "**********"
    one r

def sayProfile (p : ProfileInfo) : Dialog Unit := do
  let members ← request "bm_mt_act_prof_get_members" [.text p.name]
  say "=========="
  say "MEMBERS"
  sayEach sayMember members
  if p.selects then
    let groups ← request "bm_mt_act_prof_get_groups" [.text p.name]
    say "=========="
    say "GROUPS"
    sayEach sayGroup groups

/-! ## Entries -/

def fieldText (kind : MatchKind) (field : Reply) : Except Fault String := do
  let of (name : String) : Except Fault Reply := do (← field.part kind.name).part name
  match kind with
  | .exact => (← of "key").hex
  | .longest => return (← (← of "key").hex) ++ "/" ++ (← of "prefix_length").display
  | .ternary => return (← (← of "key").hex) ++ " &&& " ++ (← (← of "mask").hex)
  | .valid => return if (← of "key").truth then "01" else "00"
  | .range => return (← (← of "start").hex) ++ " -> " ++ (← (← of "end_").hex)

def sayFields (width : Nat) : List Reply → List KeyInfo → Dialog Unit
  | field :: fields, k :: ks => do
    let kind ← part (field.part "type")
    if kind.number? ≠ some (k.kind.number : Int) then throw (.fault .violated)
    let text ← part (fieldText k.kind field)
    say ("* " ++ Text.padRight width k.name ++ ": " ++ Text.padRight 10 k.kind.name.toUpper ++ text)
    sayFields width fields ks
  | _, _ => pure ()

def sayEntry (t : TableInfo) (e : Reply) : Dialog Unit := do
  let width := (t.key.map fun k => k.name.length).foldl max 20
  say ("Dumping entry " ++ Text.hex (← part (do (← e.part "entry_handle").whole)))
  say "Match key:"
  sayFields width (← part (do (← e.part "match_key").items)) t.key
  let priority ← part (do (← e.part "options").part "priority")
  if (← part priority.toInt) ≥ 0 then say ("Priority: " ++ priority.display)
  sayActionEntry (← part (e.part "action_entry"))
  match ← part (e.part "life") with
  | .null => pure ()
  | life =>
    let hit ← part (life.part "time_since_hit_ms")
    let timeout ← part (life.part "timeout_ms")
    say ("Life: " ++ hit.display ++ "ms since hit, timeout is " ++ timeout.display ++ "ms")

/-! ## Commands -/

def dumpEntry : Handler := on table 2 fun t args => do
  let entry ← handle "entry handle" (← argument args 1)
  sayEntry t (← request "bm_mt_get_entry" [.text t.name, .int entry])
  return .null

def dumpMember : Handler := on profile 2 fun p args => do
  let member ← handle "member handle" (← argument args 1)
  sayMember (← request "bm_mt_act_prof_get_member" [.text p.name, .int member])
  return .null

def dumpGroup : Handler := on profile 2 fun p args => do
  let group ← handle "group handle" (← argument args 1)
  sayGroup (← request "bm_mt_act_prof_get_group" [.text p.name, .int group])
  return .null

def dumpProfile : Handler := taking 1 fun args => do
  sayProfile (← profile (← argument args 0))
  return .null

def dumpTable : Handler := on table 1 fun t _ => do
  let entries ← request "bm_mt_get_entries" [.text t.name]
  say "=========="
  say "TABLE ENTRIES"
  sayEach (sayEntry t) entries
  if t.source ≠ .simple then
    match (← catalog).profileOf? t with
    | some p => sayProfile p
    | none => throw (.fault .violated)
  let standard ← request "bm_mt_get_default_entry" [.text t.name]
  say "=========="
  say "Dumping default entry"
  sayActionEntry standard
  say "=========="
  return .dict [("table", .text t.name), ("entries", entries)]

def dumpEntryByKey : Handler := takingMore 1 fun args => do
  let tableName ← argument args 0
  let t ← table tableName
  let (args, priority) ← splitPriority t args
  let fields := args.drop 1
  if fields.length ≠ t.key.length then refuse s!"Table {tableName} needs {t.key.length} key fields"
  let key ← told (keyValues t.key fields)
  sayEntry t (← request "bm_mt_get_entry_from_key" [.text t.name, .key key, .priority priority])
  return .null

end PacketSmith.Console.Dialog
