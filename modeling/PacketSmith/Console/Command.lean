import PacketSmith.Console.Cells
import PacketSmith.Console.Device
import PacketSmith.Console.Dump
import PacketSmith.Console.Multicast
import PacketSmith.Text.Listing

/-!
# The commands of the console

Some commands on action profiles have an older form that names a table instead; its help says so.
-/

/-! ## Completion

While a command is typed, the console offers words that it may go on with: the names of resources, and after the name of
a table or an action profile the names of its actions.
-/

namespace PacketSmith.Console

inductive Completion where
  | nothing
  | tables
  | tableActions
  | profiles
  | profileActions
  | meters
  | counters
  | registers
  | valueSets
  | checksums (width : Nat)
  | commands
deriving DecidableEq

namespace Completion

def offers (names : List String) (text : String) : List String :=
  (names.mergeSort (· ≤ ·)).filter fun n => Text.startsWith n text

def actions (find : String → Option (List String)) (text name : String) : Except Fault (List String) :=
  if name = "" then .error (.missing (.text ""))
  else .ok (offers ((find name).getD []) text)

def actionsOfTable (c : Catalog) : String → String → Except Fault (List String) :=
  actions fun name => (c.tables.get? name).map TableInfo.actions

def actionsOfProfile (c : Catalog) : String → String → Except Fault (List String) :=
  actions fun name => (c.profileNamed? name).map ProfileInfo.actions

def firstAction (names : List String) (actionsOf : String → String → Except Fault (List String))
    (text line : String) : Except Fault (List String) :=
  let args := Text.words line
  let settled := if text = "" then args.length else args.length - 1
  if settled = 1 && !args.isEmpty then .ok (offers names text)
  else match args with
    | _ :: name :: _ => if settled = 2 then actionsOf text name else .ok []
    | _ => .error .outOfRange

def complete (k : Completion) (c : Catalog) (known : List String) (text line : String) :
    Except Fault (List String) :=
  match k with
  | nothing => .error .noPart
  | tables => .ok (offers c.tables.keys text)
  | tableActions => firstAction c.tables.keys (actionsOfTable c) text line
  | profiles => .ok (offers c.profileNames.keys text)
  | profileActions => firstAction c.profileNames.keys (actionsOfProfile c) text line
  | meters => .ok (offers c.meters.keys text)
  | counters => .ok (offers c.counters.keys text)
  | registers => .ok (offers c.registers.keys text)
  | valueSets => .ok (offers c.valueSets.keys text)
  | checksums width =>
    let names := c.checksums.entries.filterMap fun (name, w) =>
      match name with
      | .text s => if w = width then some s else none
      | _ => none
    .ok (offers names text)
  | commands => .ok (offers known text)

end Completion

structure Command where
  name : String
  completion : Completion
  run : Handler
  help : Option String

namespace Command

open Dialog

/-- The help of a command says what it does and how it is used. -/
def doc (name : String) (completion : Completion) (run : Handler) (about usage : String) : Command :=
  ⟨name, completion, run, some (about ++ ": " ++ name ++ usage)⟩

def older (name : String) (completion : Completion) (newer : String) (command : Handler)
    (selecting : Bool) (about usage : String) : Command where
  name := name
  completion := completion
  run := byTable newer command selecting false
  help := some ("[DEPRECATED!] " ++ about ++ ": " ++ name ++ usage ++ "\nUse '" ++ newer ++ "' instead")

def ofConsole : List Command := [
  ⟨"greet", .nothing, greet, none⟩,
  ⟨"EOF", .nothing, quit, none⟩,
  ⟨"shell", .nothing, runShell, some
    "Run a shell command"⟩]

def ofTables : List Command := [
  doc "show_tables" .nothing showTables "List tables defined in the P4 program" "",
  doc "show_actions" .nothing showActions "List actions defined in the P4 program" "",
  doc "table_show_actions" .tables tableActions
    "List one table's actions as per the P4 program" " <table_name>",
  doc "table_info" .tables tableInfo "Show info about a table" " <table_name>",
  doc "table_set_default" .tableActions setDefault
    "Set default action for a match table" " <table name> <action name> <action parameters>",
  doc "table_reset_default" .tables resetDefault "Reset default entry for a match table" " <table name>",
  doc "table_num_entries" .tables entryCount
    "Return the number of entries in a match table (direct or indirect)" " <table name>",
  doc "table_clear" .tables clearTable
    "Clear all entries in a match table (direct or indirect), but not the default entry" " <table name>",
  doc "table_add" .tableActions addEntry
    "Add entry to a match table" " <table name> <action name> <match fields> => <action parameters> [priority]",
  doc "table_set_timeout" .tables setTimeout
    "Set a timeout in ms for a given entry; the table has to support timeouts"
    " <table_name> <entry handle> <timeout (ms)>",
  doc "table_modify" .tableActions modifyEntry
    "Add entry to a match table" " <table name> <action name> <entry handle> [action parameters]",
  doc "table_delete" .tables deleteEntry "Delete entry from a match table" " <table name> <entry handle>"]

def ofProfiles : List Command := [
  doc "act_prof_create_member" .profileActions createMember
    "Add a member to an action profile" " <action profile name> <action_name> [action parameters]",
  doc "act_prof_delete_member" .profiles deleteMember
    "Delete a member in an action profile" " <action profile name> <member handle>",
  doc "act_prof_modify_member" .profileActions modifyMember
    "Modify member in an action profile" " <action profile name> <action_name> <member_handle> [action parameters]",
  doc "act_prof_create_group" .profiles createGroup "Add a group to an action pofile" " <action profile name>",
  doc "act_prof_delete_group" .profiles deleteGroup
    "Delete a group from an action profile" " <action profile name> <group handle>",
  doc "act_prof_add_member_to_group" .profiles addToGroup
    "Add member to group in an action profile" " <action profile name> <member handle> <group handle>",
  doc "act_prof_remove_member_from_group" .profiles removeFromGroup
    "Remove member from group in action profile" " <action profile name> <member handle> <group handle>",
  doc "table_indirect_add" .tables addWithMember
    "Add entry to an indirect match table" " <table name> <match fields> => <member handle> [priority]",
  ⟨"table_indirect_add_with_group", .tables, addWithGroup, some
    ("Add entry to an indirect match table: table_indirect_add <table name> <match fields> => " ++
     "<group handle> [priority]")⟩,
  doc "table_indirect_delete" .tables deleteIndirect
    "Delete entry from an indirect match table" " <table name> <entry handle>",
  doc "table_indirect_set_default" .tables defaultMember
    "Set default member for indirect match table" " <table name> <member handle>",
  ⟨"table_indirect_set_default_with_group", .tables, defaultGroup, some
    ("Set default group for indirect match table: table_indirect_set_default <table name> " ++
     "<group handle>")⟩,
  doc "table_indirect_reset_default" .tables resetIndirect
    "Reset default entry for indirect match table" " <table name>"]

def ofProfilesByTable : List Command := [
  older "table_indirect_create_member" .tableActions "act_prof_create_member" createMember false
    "Add a member to an indirect match table" " <table name> <action_name> [action parameters]",
  older "table_indirect_delete_member" .tables "act_prof_delete_member" deleteMember false
    "Delete a member in an indirect match table" " <table name> <member handle>",
  older "table_indirect_modify_member" .tableActions "act_prof_modify_member" modifyMember false
    "Modify member in an indirect match table" " <table name> <action_name> <member_handle> [action parameters]",
  older "table_indirect_create_group" .tables "act_prof_create_group" createGroup true
    "Add a group to an indirect match table" " <table name>",
  older "table_indirect_delete_group" .tables "act_prof_delete_group" deleteGroup true
    "Delete a group" " <table name> <group handle>",
  older "table_indirect_add_member_to_group" .tables "act_prof_add_member_to_group" addToGroup true
    "Add member to group" " <table name> <member handle> <group handle>",
  older "table_indirect_remove_member_from_group" .tables "act_prof_remove_member_from_group" removeFromGroup true
    "Remove member from group" " <table name> <member handle> <group handle>"]

def ofMulticast : List Command := [
  doc "mc_mgrp_create" .nothing createMulticast "Create multicast group" " <group id>",
  doc "mc_mgrp_destroy" .nothing destroyMulticast "Destroy multicast group" " <group id>",
  doc "mc_node_create" .nothing createNode
    "Create multicast node" " <rid> <space-separated port list> [ | <space-separated lag list> ]",
  doc "mc_node_update" .nothing updateNode
    "Update multicast node" " <node handle> <space-separated port list> [ | <space-separated lag list> ]",
  doc "mc_node_associate" .nothing associateNode
    "Associate node to multicast group" " <group handle> <node handle>",
  ⟨"mc_node_dissociate", .nothing, dissociateNode, some
    "Dissociate node from multicast group: mc_node_associate <group handle> <node handle>"⟩,
  doc "mc_node_destroy" .nothing destroyNode "Destroy multicast node" " <node handle>",
  doc "mc_set_lag_membership" .nothing setLag
    "Set lag membership of port list" " <lag index> <space-separated port list>",
  ⟨"mc_dump", .nothing, dumpMulticast, some
    "Dump entries in multicast engine"⟩]

def ofCells : List Command := [
  doc "meter_array_set_rates" .meters setArrayRates
    "Configure rates for an entire meter array" " <name> <rate_1>:<burst_1> <rate_2>:<burst_2> ...",
  doc "meter_set_rates" .meters setRates
    "Configure rates for a meter"
    (" <name> <index> <rate_1>:<burst_1> <rate_2>:<burst_2> ...\nRate uses units/microsecond and burst uses units " ++
     "where units is bytes or packets"),
  doc "meter_get_rates" .meters getRates "Retrieve rates for a meter" " <name> <index>",
  doc "counter_read" .counters readCounter "Read counter value" " <name> <index>",
  doc "counter_write" .counters writeCounter "Write counter value" " <name> <index> <packets> <bytes>",
  doc "counter_reset" .counters resetCounter "Reset counter" " <name>",
  doc "register_read" .registers readRegister "Read register value" " <name> [index]",
  doc "register_write" .registers writeRegister "Write register value" " <name> <index> <value>",
  doc "register_reset" .registers resetRegister "Reset all the cells in the register array to 0" " <name>"]

def ofEntries : List Command := [
  doc "table_dump_entry" .tables dumpEntry
    "Display some information about a table entry" " <table name> <entry handle>",
  doc "act_prof_dump_member" .profiles dumpMember
    "Display some information about a member" " <action profile name> <member handle>",
  doc "table_dump_member" .tables (byTable "act_prof_dump_member" dumpMember false true)
    "Display some information about a member" " <table name> <member handle>",
  ⟨"act_prof_dump_group", .profiles, dumpGroup, some
    ("Display some information about a group: table_dump_group <action profile name> <group " ++
     "handle>")⟩,
  doc "table_dump_group" .tables (byTable "act_prof_dump_group" dumpGroup false true)
    "Display some information about a group" " <table name> <group handle>",
  doc "act_prof_dump" .profiles dumpProfile "Display entries in an action profile" " <action profile name>",
  doc "table_dump" .tables dumpTable "Display entries in a match-table" " <table name>",
  doc "table_dump_entry_from_key" .tables dumpEntryByKey
    "Display some information about a table entry" " <table name> <match fields> [priority]"]

def ofSwitch : List Command := [
  doc "load_new_config_file" .nothing loadConfig "Load new json config" " <path to .json file>",
  ⟨"swap_configs", .nothing, swapConfigs, some
    "Swap the 2 existing configs, need to have called load_new_config_file before"⟩,
  doc "show_pvs" .nothing showValueSets "List parser value sets defined in the P4 program" "",
  doc "pvs_add" .valueSets addValue
    "\n        Add a value to a parser value set"
    " <pvs_name> <value>\n        bmv2 will not report an error if the value already exists.\n        ",
  doc "pvs_remove" .valueSets removeValue
    "\n        Remove a value from a parser value set"
    " <pvs_name> <value>\n        bmv2 will not report an error if the value does not exist.\n        ",
  doc "pvs_get" .valueSets getValues
    "\n        Print all values from a parser value set"
    " <pvs_name>\n        Values are displayed in no particular order, one per line.\n        ",
  doc "pvs_clear" .valueSets clearValues
    "\n        Remove all values from a parser value set" " <pvs_name>\n        ",
  doc "port_add" .nothing addPort
    "Add a port to the switch (behavior depends on device manager used)" " <iface_name> <port_num> [pcap_path]",
  doc "port_remove" .nothing removePort
    "Removes a port from the switch (behavior depends on device manager used)" " <port_num>",
  doc "show_ports" .nothing showPorts "Shows the ports connected to the switch" "",
  doc "switch_info" .nothing switchInfo "Show some basic info about the switch" "",
  doc "reset_state" .nothing resetState
    "Reset all state in the switch (table entries, registers, ...), but P4 config is preserved" "",
  ⟨"write_config_to_file", .nothing, saveConfig, some
    ("Retrieves the JSON config currently used by the switch and dumps it to user-specified " ++
     "file")⟩,
  ⟨"serialize_state", .nothing, saveState, some
    "Serialize the switch state and dumps it to user-specified file"⟩,
  doc "set_crc16_parameters" (.checksums 16) (setChecksum 16)
    "Change the parameters for a custom crc16 hash"
    " <name> <polynomial> <initial remainder> <final xor value> <reflect data?> <reflect remainder?>",
  doc "set_crc32_parameters" (.checksums 32) (setChecksum 32)
    "Change the parameters for a custom crc32 hash"
    " <name> <polynomial> <initial remainder> <final xor value> <reflect data?> <reflect remainder?>"]

def others : List Command :=
  ofConsole ++ ofTables ++ ofProfiles ++ ofProfilesByTable ++ ofMulticast ++ ofCells ++ ofEntries ++
    ofSwitch

/-! ## Help -/

def helpText : String := "List available commands with \"help\" or detailed help with \"help cmd\"."

def sayTopics (title : String) (names : List String) : Dialog Unit := do
  if names.isEmpty then return
  say title
  say ("".pushn '=' title.length)
  (Text.listing 79 (names.mergeSort (· ≤ ·))).forM say
  say ""

def sayHelp (name : String) : Dialog Reply := do
  let helps := ("help", some helpText) :: others.map fun c => (c.name, c.help)
  if name = "" then
    say ""
    sayTopics "Documented commands (type help <topic>):" ((helps.filter fun h => h.2.isSome).map Prod.fst)
    sayTopics "Undocumented commands:" ((helps.filter fun h => h.2.isNone).map Prod.fst)
  else match (helps.lookup name).join with
    | some text => say text
    | none => say ("*** No help on " ++ name)
  return .null

def all : List Command := ⟨"help", .commands, sayHelp, some helpText⟩ :: others

def find? (name : String) : Option Command := all.find? fun c => c.name == name

def start (name line : String) : Dialog Reply :=
  match find? name with
  | some c => c.run line
  | none => throw (.fault .noPart)

def complete (c : Catalog) (name text line : String) : Except Fault (List String) :=
  match find? name with
  | some k => k.completion.complete c (all.map Command.name) text line
  | none => .error .noPart

end Command

end PacketSmith.Console
