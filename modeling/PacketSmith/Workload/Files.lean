import PacketSmith.Console.Catalog
import PacketSmith.Console.Parameter
import PacketSmith.Generate

/-!
# Files of workloads

A workload runs a part of the library on program files, and its report lets two runs be compared. A workload over
programs takes a number of them from the front of a list.
-/

namespace PacketSmith.Workload

abbrev Files := Dict String Json

def Files.read (files : Files) (name : String) : Except Fault Json :=
  match files.get? name with
  | some source => .ok source
  | none => .error .fileMissing

def generated : List String :=
  ["demo1b.json", "config-table.json", "add-remove-header.json",
    "header-stack-variable-length.json", "parser-error.json", "demo9b.json"]

def parsed : List String :=
  ["parser-parallel-paths-complex.json", "demo9b.json", "header-stack-variable-length.json",
    "parser-parallel-paths.json", "demo1b.json", "demo10b.json"]

def front (n : Int) (names : List String) : List String :=
  if 0 ≤ n then names.take n.toNat else names.take (names.length - (-n).toNat)

def onFront {α : Type} (n : Int) (names : List String) (report : String → Except Fault α) :
    Except Fault (List α) :=
  (front n names).mapM report

end PacketSmith.Workload

/-! ## Workloads that build programs

A program is read, and its graphs are built and explored.
-/

namespace PacketSmith

structure ProgramSurvey where
  headers : Nat
  headerTypes : Nat
  tables : Nat
  controlEdges : Nat
  parserEdges : Nat
  standard : Header
  start : ParseState
  actions : List Label

namespace ProgramSurvey

def standardName : String := "standard_metadata"

def of (source : Json) : Except Fault ProgramSurvey := do
  let p ← Program.ofJson false source
  let parserGraph ← p.parserGraph
  let pipeline ← p.pipeline "ingress"
  let control ← p.controlGraph pipeline
  let some standard := p.headers.get? standardName | throw (.missing standardName)
  let parser ← p.parser
  return {
    headers := p.headers.size
    headerTypes := p.headerTypes.size
    tables := pipeline.tables.size
    controlEdges := control.graph.numEdges
    parserEdges := parserGraph.numEdges
    standard := standard
    start := ← p.parseState parser.initState
    actions := p.actions.keys.map Prod.fst }

end ProgramSurvey

namespace Workload

def build (files : Files) (n : Int) : Except Fault (List ProgramSurvey) :=
  onFront n generated fun name => do ProgramSurvey.of (← files.read name)

def pathExtent (source : Json) : Except Fault (Nat × Nat) := do
  let p ← Program.ofJson false source
  let paths ← p.parserPaths (← p.parserGraph) true
  match (paths.map List.length).max? with
  | some longest => return (paths.length, longest)
  | none => throw .malformed

def parse (files : Files) (n : Int) : Except Fault (List (String × Nat × Nat)) :=
  onFront n parsed fun name => do return (name, ← pathExtent (← files.read name))

end Workload

end PacketSmith

/-! ## Workloads that generate test cases

The values that a solver picks are not part of a report: it holds the outcomes of the paths, in order of their names,
or their number.
-/

namespace PacketSmith.Workload

def outcomes (files : Files) (solver : Solver) (name : String) (o : Options) :
    Except Fault (List Outcome) := do
  let l ← Loaded.ofJson o (fun _ => none) (← files.read name)
  let g ← l.generate solver (fun _ => 0) (fun _ => [])
  return g.progress.results.values.map PathResult.outcome

def sorted (os : List Outcome) : List Outcome := os.mergeSort fun a b => a.name ≤ b.name

def generate (files : Files) (solver : Solver) (n : Int) :
    Except Fault (List (String × List Outcome)) :=
  onFront n generated fun name => do return (name, sorted (← outcomes files solver name {}))

def cover (files : Files) (solver : Solver) (n : Int) : Except Fault (List (List Outcome)) := do
  let edges ← outcomes files solver "edge_coverage_ordering.json"
    { numTestCases := some n, edgeCoverage := true }
  let shared ← outcomes files solver "two-config-table.json"
    { numTestCases := some n, consolidateTables := some (-1) }
  return [sorted edges, sorted shared]

/-- The options of the variants, each with its program: all lengths of extractions, parser paths in
turns with errors that depend on the length of the packet, and constraints that are stated anew for
each path. -/
def variants (n : Int) : List (String × Options) :=
  [("two-extract-vl.json",
      { numTestCases := some n, extractVlVariation := some "and", maxTestCasesPerPath := some 0 }),
    ("parser-error.json",
      { numTestCases := some n, roundRobinParserPaths := true, packetLengthErrors := true }),
    ("demo1b.json", { numTestCases := some n, incremental := false })]

def vary (files : Files) (solver : Solver) (n : Int) : Except Fault (List Nat) :=
  (variants n).mapM fun (name, o) => do return (← outcomes files solver name o).length

end PacketSmith.Workload

/-! ## Workloads that load catalogs

A sample program with a table of each kind is loaded, and values of each form are read.
-/

namespace PacketSmith.Console

namespace Sample

def resource (name : String) (id : Nat) (more : List (String × Json)) : Json :=
  .obj ([("name", .str name), ("id", .int id)] ++ more)

def action (name : String) (id : Nat) (params : List (String × Nat)) : Json :=
  resource name id [("runtime_data", .arr (params.map fun (p, width) =>
    .obj [("name", .str p), ("bitwidth", .int width)]))]

def table (name : String) (id : Nat) (kind origin : String) (target : Json)
    (more : List (String × Json)) : Json :=
  resource name id ([("match_type", .str kind), ("type", .str origin),
    ("support_timeout", .bool false), ("actions", .arr [.str "forward", .str "drop"]),
    ("key", .arr [.obj [("match_type", .str kind), ("target", target)]])] ++ more)

def target : Json := .arr [.str "h", .str "f"]

def tables : List Json :=
  [table "t_exact" 0 "exact" "simple" target [],
    table "t_lpm" 1 "lpm" "simple" target [],
    table "t_tern" 2 "ternary" "simple" target [],
    table "t_range" 3 "range" "simple" target [],
    table "t_valid" 4 "valid" "simple" (.str "h") [],
    table "t_ind" 5 "exact" "indirect" target [("action_profile", .str "members")],
    table "t_ind_ws" 6 "exact" "indirect_ws" target [("action_profile", .str "groups")]]

def program : Json :=
  .obj [("header_types", .arr [.obj [("name", .str "h_t"),
      ("fields", .arr [.arr [.str "f", .int 32]])]]),
    ("headers", .arr [.obj [("name", .str "h"), ("header_type", .str "h_t")]]),
    ("actions", .arr [action "forward" 0 [("port", 9)], action "drop" 1 [],
      action "readdress" 2 [("address", 48)]]),
    ("pipelines", .arr [.obj [
      ("action_profiles", .arr [resource "members" 0 [], resource "groups" 1 [("selector", .null)]]),
      ("tables", .arr tables)]]),
    ("meter_arrays", .arr [
      resource "m" 0 [("is_direct", .bool false), ("size", .int 16), ("type", .str "packets"),
        ("rate_count", .int 2)],
      resource "m_direct" 1 [("is_direct", .bool true), ("binding", .str "t_exact"),
        ("type", .str "bytes"), ("rate_count", .int 2)]]),
    ("counter_arrays", .arr [
      resource "c" 0 [("is_direct", .bool false), ("size", .int 16)],
      resource "c_direct" 1 [("is_direct", .bool true), ("binding", .str "t_exact")]]),
    ("register_arrays", .arr [resource "r" 0 [("size", .int 16), ("bitwidth", .int 32)]]),
    ("parse_vsets", .arr [resource "v" 0 [("compressed_bitwidth", .int 16)]])]

end Sample

structure ReadingSurvey where
  tables : List String
  named : Nat
  matching : String
  packed : List UInt8
  words : List Int
  truths : List Bool
  hex : String
  lists : List (List Int)

namespace ReadingSurvey

def settled {ε α : Type} (r : Except ε α) : Except Fault α := r.mapError fun _ => .malformed

def sample : Except Fault ReadingSurvey := do
  let c ← Catalog.ofJson Sample.program
  let hardware := "aa:bb:cc:dd:ee:ff"
  return {
    tables := c.tables.keys
    named := (ResourceKind.all.map fun k => (c.resolved k).length).foldl (· + ·) 0
    matching := ← Kinds.matching.name (.int 1)
    packed := ← pack [1, 2, 3]
    words := [← settled (signedWord 16 "0x8000"), unsignedWord 16 (-1),
      ← settled (signedWord 32 "0x80000000"), unsignedWord 32 (-1)]
    truths := [← settled (truthValue "true"), ← settled (truthValue "0")]
    hex := hexBytes [0, 255]
    lists := [← settled (encodeIn 300 (.int 4)), ← settled (address32 "10.0.0.1"),
      ← settled (address48 hardware), ← settled (parameter "10.1.2.3" (.int 32)),
      ← settled (parameter hardware (.int 48)), ← settled (parameter "0x1234" (.int 16))] }

end ReadingSurvey

end PacketSmith.Console

namespace PacketSmith.Workload

def load (n : Int) : Except Fault (List Console.ReadingSurvey) :=
  (List.range n.toNat).mapM fun _ => Console.ReadingSurvey.sample

end PacketSmith.Workload
