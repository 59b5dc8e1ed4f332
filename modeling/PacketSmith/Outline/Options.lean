import PacketSmith.Extern
import PacketSmith.Outline.Program

/-!
# Options as JSON

Reads options from an object, where a member that is absent leaves the default, and
shows the options of a run.
-/

namespace PacketSmith.Outline

def optionsOf (c : Json) : Options :=
  let flagOr (name : String) (other : Bool) : Bool := ((c.member? name).map Json.truth).getD other
  let flag (name : String) : Bool := flagOr name false
  let numberOr (name : String) (other : Option Int) : Option Int :=
    match c.member? name with
    | some .null => none
    | some v => v.number? <|> other
    | none => other
  let number (name : String) : Option Int := numberOr name none
  { debug := flag "debug"
    silent := flag "silent"
    allowUninitializedReads := flag "allow_uninitialized_reads"
    solveForMetadata := flag "solve_for_metadata"
    allowInvalidHeaderWrites := flag "allow_invalid_header_writes"
    recordStatistics := flag "record_statistics"
    allowUnimplementedPrimitives := flag "allow_unimplemented_primitives"
    dumpTestCase := flag "dump_test_case"
    showParserPaths := flag "show_parser_paths"
    packetLengthErrors := flag "enable_packet_length_errors"
    runSimpleSwitch := flag "run_simple_switch"
    edgeCoverage := flag "edge_coverage"
    roundRobinParserPaths := flag "round_robin_parser_paths"
    collapseParserPaths := flag "collapse_parser_paths"
    randomize := flag "randomize"
    conditionalOpt := flagOr "conditional_opt" true
    tableOpt := flagOr "table_opt" true
    incremental := flagOr "incremental" true
    maxPathsPerParserPath := number "max_paths_per_parser_path"
    numTestCases := number "num_test_cases"
    consolidateTables := number "consolidate_tables"
    maxTestCasesPerPath := numberOr "max_test_cases_per_path" (some 1)
    minPacketLength := (number "min_packet_len_generated").getD 1
    maxPacketLength := (number "max_packet_len_generated").getD 1536
    extractVlVariation := ((c.member? "extract_vl_variation").map Json.str?).getD "none"
    externDefinitions := ((c.member? "extern_definitions").bind Json.arr?).map (·.filterMap Json.str?) }

def showOptions (o : Options) : Except Fault Json := do
  let definitions ← Extern.fileNames o.externDefinitions
  return .obj [("debug", o.debug), ("silent", o.silent), ("allow_uninitialized_reads", o.allowUninitializedReads),
    ("solve_for_metadata", o.solveForMetadata), ("allow_invalid_header_writes", o.allowInvalidHeaderWrites),
    ("record_statistics", o.recordStatistics), ("allow_unimplemented_primitives", o.allowUnimplementedPrimitives),
    ("dump_test_case", o.dumpTestCase), ("show_parser_paths", o.showParserPaths),
    ("no_packet_length_errs", !o.packetLengthErrors), ("run_simple_switch", o.runSimpleSwitch),
    ("min_packet_len_generated", o.minPacketLength), ("max_packet_len_generated", o.maxPacketLength),
    ("max_paths_per_parser_path", o.maxPathsPerParserPath), ("max_test_cases_per_path", o.maxTestCasesPerPath),
    ("num_test_cases", o.numTestCases), ("edge_coverage", o.edgeCoverage), ("conditional_opt", o.conditionalOpt),
    ("table_opt", o.tableOpt), ("incremental", o.incremental), ("output_json_path", "./test-case.json"),
    ("output_pcap_path", "./test-case.pcap"), ("round_robin_parser_paths", o.roundRobinParserPaths),
    ("collapse_parser_paths", o.collapseParserPaths), ("extract_vl_variation", o.variation),
    ("consolidate_tables", o.consolidateTables), ("do_consolidate_tables", o.consolidateTables.isSome),
    ("randomize", o.randomize), ("extern_definitions", .obj (definitions.map Json.str).entries)]

end PacketSmith.Outline
