import PacketSmith.CommandLine.Grammar
import PacketSmith.Options

/-!
# The command line of the generator

The options of a run as they are written on the command line, and the file with the program. Only program files in
JSON are supported, but any format can be named.
-/

namespace PacketSmith

inductive LogLevel where
  | debug
  | info
  | error
deriving DecidableEq

def LogLevel.name : LogLevel → String
  | .debug => "DEBUG"
  | .info => "INFO"
  | .error => "ERROR"

def Options.logLevel (o : Options) : LogLevel :=
  if o.debug then .debug else if o.silent then .error else .info

structure Arguments where
  options : Options := {}
  format : String := "json"
  drawGraphs : Bool := false
  file : String := ""

namespace Arguments

open CommandLine

def flag (names : List String) (set : Options → Options) : OptionSpec Arguments :=
  ⟨names, .none, fun _ a => .ok { a with options := set a.options }⟩

def text (names : List String) (set : String → Arguments → Arguments) : OptionSpec Arguments :=
  ⟨names, .one, fun s a => .ok (set (s.getD "") a)⟩

def number (names : List String) (set : Int → Options → Options) : OptionSpec Arguments :=
  ⟨names, .one, fun s a =>
    match Text.int? (s.getD "") with
    | some n => .ok { a with options := set n a.options }
    | none => .error usage⟩

def variation : OptionSpec Arguments :=
  ⟨["-evv", "--extract-vl-variation"], .one, fun s a =>
    if (["none", "and", "or"].map some).contains s then
      .ok { a with options := { a.options with extractVlVariation := s } }
    else .error usage⟩

/-- The option that asks for shared table entries. Without a number all paths share them. -/
def consolidation : OptionSpec Arguments :=
  ⟨["-ct", "--consolidate-tables"], .atMostOne, fun s a =>
    match s with
    | none => .ok { a with options := { a.options with consolidateTables := some (-1) } }
    | some s =>
      match Text.int? s with
      | some n => .ok { a with options := { a.options with consolidateTables := some n } }
      | none => .error usage⟩

def specs : List (OptionSpec Arguments) := [
  ⟨["-h", "--help"], .none, fun _ _ => .error (.exit 0)⟩,
  text ["-cf", "--flags"] fun _ a => a,
  flag ["-d", "--debug"] fun o => { o with debug := true },
  flag ["--silent"] fun o => { o with silent := true },
  text ["-f", "--format"] fun s a => { a with format := s },
  flag ["-t", "--dump-test-case"] fun o => { o with dumpTestCase := true },
  flag ["--show-parser-paths"] fun o => { o with showParserPaths := true },
  flag ["-sm", "--solve-for-metadata"] fun o => { o with solveForMetadata := true },
  flag ["-au", "--allow-uninitialized-reads"] fun o => { o with allowUninitializedReads := true },
  flag ["-ai", "--allow-invalid-header-writes"] fun o => { o with allowInvalidHeaderWrites := true },
  flag ["--record-statistics"] fun o => { o with recordStatistics := true },
  flag ["--no-conditional-opt"] fun o => { o with conditionalOpt := false },
  flag ["--no-table-opt"] fun o => { o with tableOpt := false },
  flag ["--no-incremental"] fun o => { o with incremental := false },
  flag ["-aup", "--allow-unimplemented-primitives"] fun o =>
    { o with allowUnimplementedPrimitives := true },
  flag ["-epl", "--enable-packet-length-errors"] fun o => { o with packetLengthErrors := true },
  flag ["-rss", "--run-simple-switch"] fun o => { o with runSimpleSwitch := true },
  number ["-mpp", "--max-paths-per-parser-path"] fun n o => { o with maxPathsPerParserPath := some n },
  number ["-mtp", "--max-test-cases-per-path"] fun n o => { o with maxTestCasesPerPath := some n },
  number ["-c", "--num-test-cases"] fun n o => { o with numTestCases := some n },
  flag ["-ec", "--edge-coverage"] fun o => { o with edgeCoverage := true },
  ⟨["-gg", "--generate-graphs"], .none, fun _ a => .ok { a with drawGraphs := true }⟩,
  variation,
  consolidation,
  flag ["-rr", "--round-robin-parser-paths"] fun o => { o with roundRobinParserPaths := true },
  flag ["-cpp", "--collapse-parser-paths"] fun o => { o with collapseParserPaths := true },
  flag ["-rnd", "--randomize"] fun o => { o with randomize := true },
  text ["-ed", "--extern-definition"] fun s a =>
    { a with options := { a.options with
      externDefinitions := some (a.options.externDefinitions.getD [] ++ [s]) } }]

def grammar : Grammar Arguments where
  options := specs
  argument := some fun s a => { a with file := s }

def read (line : List String) : Except Fault Arguments := do
  let a ← grammar.read {} line
  require (a.format == "json") (.refuted "Only json input format is currently supported")
  return a

end Arguments

end PacketSmith
