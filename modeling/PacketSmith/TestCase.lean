import PacketSmith.Outcome
import PacketSmith.Symbolic.Transition
import PacketSmith.TableCommand

/-!
# Test cases

A test case is what is written for a path: a packet, commands that set up the tables, and what the path is expected to
visit. It is read off an assignment that satisfies the constraints of the path.
-/

namespace PacketSmith

structure ProgramPath where
  id : Int
  parser : ParserPath
  control : ControlPath
  complete : Bool

namespace ProgramPath

def expected (p : ProgramPath) : List Visit := Visit.expected true p.parser p.control

def display (p : ProgramPath) : String :=
  let n := p.parser.length
  let k := p.control.length
  toString p.id ++ " Exp path (len " ++ toString n ++ "+" ++ toString k ++ "=" ++ toString (n + k) ++
    ") complete_path " ++ Edge.displayBool p.complete ++ ": [" ++
    ", ".intercalate (p.expected.map Visit.inner) ++ "]"

end ProgramPath

structure TestCase where
  path : ProgramPath
  outcome : Outcome
  commands : List TableCommand
  payload : Option (List UInt8)
  inputMetadata : List (FieldRef × Nat)
  uninitializedReads : List Access
  invalidWrites : List Access

namespace TestCase

/-! ## Building -/

def entryValue (ρ : Assignment) (b : Bits) : EntryValue := .number b.width (b.evalNat ρ)

def keyValue (ρ : Assignment) : Option Bits → Except Fault EntryValue
  | some b => .ok (entryValue ρ b)
  | none => .error .noPart

def commandFor (env : Setting) (c : Context) (ρ : Assignment) (e : ControlEdge) :
    Except Fault (Option TableCommand) := do
  match env.pipeline.tables.get? e.src, c.tableKeys.get? e.src, e.label with
  | some t, some keys, .action name id byDefault =>
    let a ← env.program.action (name, id)
    let params ← a.parameters.zipIdx.mapM fun (p, i) => do
      return (p.name, entryValue ρ (← c.parameter e.src i))
    let values ← keys.mapM (keyValue ρ)
    match ← t.entryConfig name byDefault values params with
    | some config => return some (.ofConfig t config)
    | none => return none
  | _, _, _ => return none

def commandsFor (env : Setting) (c : Context) (ρ : Assignment) (path : ControlPath) :
    Except Fault (List TableCommand) := do
  return (← path.mapM (commandFor env c ρ)).filterMap id

def assemble (o : Options) (packet : Packet) (path : ProgramPath) (metadata : Dict FieldRef Bits)
    (reads writes : List Access) (commands : List TableCommand) (ρ : Assignment) :
    Except Fault TestCase := do
  let payload ← packet.payload ρ
  let outcome :=
    if !reads.isEmpty then .uninitializedRead
    else if !writes.isEmpty then .invalidHeaderWrite
    else .success
  require (outcome != .success || o.minPacketLength ≤ payload.length)
  return {
    path := path
    outcome := outcome
    commands := commands
    payload := some payload
    inputMetadata := metadata.entries.map fun (ref, b) => (ref, b.evalNat ρ)
    uninitializedReads := if outcome = .uninitializedRead then reads else []
    invalidWrites := if outcome = .invalidHeaderWrite then writes else [] }

def withoutPacket (path : ProgramPath) : TestCase :=
  { path := path, outcome := .noPacketFound, commands := [], payload := none, inputMetadata := [],
    uninitializedReads := [], invalidWrites := [] }

def build (env : Setting) (c : Context) (packet : Packet) (path : ProgramPath)
    (model : Option Assignment) : Except Fault TestCase :=
  match model with
  | none => .ok (withoutPacket path)
  | some ρ => do
    let commands ← commandsFor env c ρ path.control
    assemble env.options packet path c.inputMetadata c.uninitializedReads c.invalidWrites commands ρ

/-! ## Writing -/

def payloads (t : TestCase) : List (List UInt8) :=
  match t.payload with
  | some (b :: bs) => [b :: bs]
  | _ => []

def bytesText (bs : List UInt8) : String :=
  String.join (bs.map fun b => Text.zeroFill 2 (Text.hexDigits b.toNat))

def sourceJson : Option SourceInfo → Json
  | none => .null
  | some s => .obj [("filename", s.filename.toJson), ("line", s.line.toJson),
      ("column", s.column.toJson), ("source_fragment", s.fragment.toJson)]

def accessesJson (as : List Access) : Json :=
  .arr (as.map fun (ref, source) =>
    .obj [("variable_name", .arr [ref.1.toJson, ref.2.toJson]), ("source_info", sourceJson source)])

def packetJson (t : TestCase) : Json :=
  match t.payload with
  | none => .arr []
  | some bytes =>
    let metadata := t.inputMetadata.map fun (ref, n) =>
      (ref.1.display ++ "." ++ ref.2.display, Json.int n)
    .arr [.obj [("port", .int 0), ("packet_len_bytes", .int bytes.length),
      ("packet_hexstr", .str (bytesText bytes)), ("input_metadata", Json.ofMembers metadata)]]

def members (t : TestCase) : List (String × Json) :=
  let texts (l : List String) : Json := .arr (l.map .str)
  let optional (name : String) (as : List Access) : List (String × Json) :=
    if as.isEmpty then [] else [(name, accessesJson as)]
  [("log_file_id", .int t.path.id), ("result", .str t.outcome.name),
    ("expected_path", texts (t.path.expected.map Visit.display)),
    ("complete_path", .bool t.path.complete),
    ("ss_cli_setup_cmds", texts (t.commands.map TableCommand.text)),
    ("input_packets", t.packetJson),
    ("parser_path_len", .int t.path.parser.length),
    ("ingress_path_len", .int t.path.control.length)] ++
  optional "uninitialized_read_data" t.uninitializedReads ++
  optional "invalid_header_write_data" t.invalidWrites ++
  [("parser_path", texts (t.path.parser.map Edge.displayParser)),
    ("ingress_path", texts (t.path.control.map Edge.displayControl)),
    ("table_setup_cmd_data", .arr (t.commands.map TableCommand.toJson))]

def toJson (t : TestCase) : Json := .obj t.members

end TestCase

end PacketSmith
