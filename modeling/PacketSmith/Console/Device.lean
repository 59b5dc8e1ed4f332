import PacketSmith.Console.Tables
import PacketSmith.Json.Reader

/-!
# Commands for the switch as a whole

Configurations, sets of values of the parser, ports, checksums, and the state of the
switch.
-/

namespace PacketSmith.Console.Dialog

/-! ## Files -/

def writeFile (name : String) (content : Reply) : Dialog Unit := do
  if name.toList.contains '/' then throw (.fault .fileMissing)
  modify fun t => { t with files := t.files.insert name "" }
  match content with
  | .text s => modify fun t => { t with files := t.files.insert name s }
  | _ => throw (.fault .wrongKind)

def loadConfig : Handler := taking 1 fun args => do
  match (← get).files.get? (← argument args 0) with
  | none => refuse "Not a valid filename"
  | some text =>
    say "Loading new Json config"
    match Json.parse? text with
    | none => refuse "Not a valid JSON file"
    | some v =>
      let _ ← ask ⟨"bm_load_new_config", [.text text]⟩
      let (r, c) := (ExceptT.run (Catalog.Load.file v)).run {}
      modify fun t => { t with catalog := c }
      part r
      return .null

def command (name : String) : Dialog Reply := do
  let _ ← ask ⟨name, []⟩
  return .null

def swapConfigs (_ : String) : Dialog Reply := minded do
  say "Swapping configs"
  command "bm_swap_configs"

def resetState : Handler := taking 0 fun _ => do
  command "bm_reset_state"

def saveReport (name : String) : Handler := taking 1 fun args => do
  let content ← ask ⟨name, []⟩
  writeFile (← argument args 0) content
  return .null

def saveConfig : Handler := saveReport "bm_get_config"

def saveState : Handler := saveReport "bm_serialize_state"

/-! ## Sets of values -/

def valueSet : String → Dialog ValueSetInfo := resource Catalog.valueSet? .valueSet

def showValueSets : Handler := taking 0 fun _ => do
  let c ← catalog
  (sorted c.valueSets.keys).forM fun name => (c.valueSets.get? name).forM fun s => say s.line
  return .null

def changeValue (name : String) : Handler := taking 2 fun args => do
  let setName ← argument args 0
  let s ← valueSet setName
  let v ← told (setValue (← argument args 1) s.width)
  order name [.text setName, .bytes v]

def addValue : Handler := changeValue "bm_parse_vset_add"

def removeValue : Handler := changeValue "bm_parse_vset_remove"

def getValues : Handler := taking 1 fun args => do
  let setName ← argument args 0
  let _ ← valueSet setName
  let values ← request "bm_parse_vset_get" [.text setName]
  (← part values.items).forM fun v => do say (← part v.hex)
  return .null

def clearValues : Handler := taking 1 fun args => do
  let setName ← argument args 0
  let _ ← valueSet setName
  order "bm_parse_vset_clear" [.text setName]

/-! ## Ports -/

def portArgument (s : String) : Dialog Int := integer s "Bad format for port_num, must be an integer"

def addPort : Handler := takingMore 2 fun args => do
  let port ← portArgument (← argument args 1)
  let _ ← ask ⟨"bm_dev_mgr_add_port",
    [.text (← argument args 0), .int port, .text (args.getD 2 "")]⟩
  return .null

def removePort : Handler := taking 1 fun args => do
  let port ← portArgument (← argument args 0)
  let _ ← ask ⟨"bm_dev_mgr_remove_port", [.int port]⟩
  return .null

def portExtra (r : Reply) : Except Fault String :=
  match r with
  | .dict entries => do
    let shown ← entries.mapM fun (name, v) =>
      match v with
      | .text s => Except.ok (name ++ "=" ++ s)
      | _ => Except.error Fault.wrongKind
    return "; ".intercalate shown
  | _ => .error .noPart

def showPorts : Handler := taking 0 fun _ => do
  let ports ← ask ⟨"bm_dev_mgr_show_ports", []⟩
  say (Text.padCentre 10 "port #" ++ Text.padCentre 20 "iface name" ++ Text.padCentre 10 "status" ++
    "extra info")
  say ("".pushn '=' 50)
  (← part ports.items).forM fun p => do
    let status := if (← part (p.part "is_up")).truth then "UP" else "DOWN"
    let extra ← part (do portExtra (← p.part "extra"))
    let number ← part (p.part "port_num")
    let name ← part (p.part "iface_name")
    say ((← part (number.centred 10)) ++ (← part (name.centred 20)) ++ Text.padCentre 10 status ++ extra)
  return .null

/-! ## The switch -/

def reportPart (row : Reply) : Except Fault String := do
  match (← row.items).drop 2 with
  | .text s :: _ => return s
  | _ :: _ => throw .wrongKind
  | [] => throw .outOfRange

def reportParts (info : Reply) : Except Fault (List String) := do
  let rows ← (← info.part "thrift_spec").items
  (rows.drop 1).mapM reportPart

def switchInfo : Handler := taking 0 fun _ => do
  let info ← ask ⟨"bm_mgmt_get_info", []⟩
  let names ← part (reportParts info)
  if names.isEmpty then throw (.fault .malformed)
  let width := (names.map String.length).foldl max 0 + 5
  names.forM fun name => do
    say (Text.padRight width name ++ ": " ++ (← part (info.part name)).display)
  return .null

def setChecksum (width : Nat) : Handler := taking 6 fun args => do
  let name ← argument args 0
  if (← catalog).checksums.get? (.text name) ≠ some width then
    throw (.resource s!"crc{width}_custom" name)
  let polynomial ← told (signedWord width (← argument args 1))
  let start ← told (signedWord width (← argument args 2))
  let final ← told (signedWord width (← argument args 3))
  let data ← told (truthValue (← argument args 4))
  let remainder ← told (truthValue (← argument args 5))
  order s!"bm_set_crc{width}_custom_parameters"
    [.text name, .checksum width polynomial start final data remainder]

def greet (_ : String) : Dialog Reply := do
  say "hello"
  return .null

def quit (_ : String) : Dialog Reply := do
  say ""
  return .bool true

def runShell (line : String) : Dialog Reply := do
  say ((← read).shell line)
  return .null

end PacketSmith.Console.Dialog
