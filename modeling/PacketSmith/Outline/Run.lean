import PacketSmith.Generate
import PacketSmith.Outline.Program

/-!
# Outlines of runs

Terms are shown by their values under an assignment: a bit vector by its width and
its value, and a formula by its truth value. A test case is shown without the values that a solver picks.
-/

namespace PacketSmith.Outline

open Shown

section

variable (ρ : Assignment)

def bits (b : Bits) : Json := (b.width, hex (b.evalNat ρ))

def value : Value → Json
  | .bits b => bits ρ b
  | .formula f => f.eval ρ
  | .absent => .null

def formulas (fs : List Formula) : Json := fs.map fun f => f.eval ρ

def bytes (bs : List UInt8) : Json := TestCase.bytesText bs

def access (a : Access) : Json := (a.1, a.2)

def context (c : Context) (t : Tally) : Json :=
  let values := c.values.entries.mergeSort fun (a, _) (b, _) =>
    if a.1 == b.1 then labelLe a.2 b.2 else labelLe a.1 b.1
  .obj [("values", .arr (values.map fun e => .arr [e.1.1, e.1.2, e.2.map (bits ρ)])),
    ("uninitialized_reads", c.uninitializedReads.map access), ("invalid_header_writes", c.invalidWrites.map access),
    ("input_metadata", c.inputMetadata.keys),
    ("stacks", (t.stackCounts.entries.filter fun e => e.2 != 0).mergeSort fun a b => labelLe a.1 b.1),
    ("vl", t.lengths.entries.map fun e => (e.1, bits ρ e.2))]

end

instance : Shown SwitchCall := ⟨fun
  | .setDefault line => .arr ["do_table_set_default", line]
  | .addEntry line => .arr ["do_table_add", line]
  | .clearTable name => .arr ["do_table_clear", name]
  | .packet i bs => .arr ["packet", i, bytes bs]
  | .flush i => .arr ["flush", i]
  | .close i => .arr ["close", i]
  | .shutdown => .arr ["shutdown"]⟩

def firstWords (n : Nat) (s : String) : Json := " ".intercalate ((s.splitOn " ").take n)

def commandShape (c : TableCommand) : Json :=
  .obj (c.toJson.members.map fun (name, v) => (name,
    match name with
    | "keys" => v.list.map fun k => Json.obj (k.members.filter fun m =>
      ["value", "min_value", "max_value"].all (· != m.1))
    | "action_parameters" => v.list.map fun p => p.member? "name"
    | _ => v))

def caseShape (t : TestCase) : Json :=
  .obj (t.members.map fun (name, v) => (name,
    match name with
    | "ss_cli_setup_cmds" => t.commands.map fun c => firstWords 3 c.text
    | "input_packets" => t.payload.toList.map fun _ => Json.obj [("port", .int 0),
      ("input_metadata", t.inputMetadata.map fun e => e.1.1.display ++ "." ++ e.1.2.display)]
    | "table_setup_cmd_data" => t.commands.map commandShape
    | _ => v))

def switchCallShape (c : SwitchCall) : Json :=
  match shown c with
  | .arr (name :: argument :: _) => (name, firstWords 2 argument.display)
  | v => v

def mean (m : Mean) : Json := (m.sum, m.count)

def statistics (s : Statistics) : Json :=
  let outcomes := s.outcomes.entries.map fun e => (e.1.name, e.2)
  .obj [("num_test_cases", s.testCases), ("num_solver_calls", s.solverCalls),
    ("num_covered_edges", s.coveredEdges), ("num_control_path_edges", .int 0),
    ("full_path_len", mean s.fullPathLength), ("unsat_path_len", mean s.unsatPathLength),
    ("unsat_paths", s.unsatPaths), ("by_result", outcomes.mergeSort fun a b => a.1 ≤ b.1),
    ("control_edges", s.edges.values.mergeSort (· ≤ ·))]

def produced (g : Generated) : List (String × Json) :=
  let cases := g.progress.cases.reverse
  [("cases", cases.map caseShape),
    ("pcap_packets", shown (cases.flatMap fun t => t.payloads).length),
    ("stats", statistics g.progress.statistics)]

end PacketSmith.Outline
