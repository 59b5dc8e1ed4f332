/-!
# Options

The choices that steer the generation of test cases. The defaults are those of a run without options.
-/

namespace PacketSmith

structure Options where
  debug : Bool := false
  silent : Bool := false
  allowUninitializedReads : Bool := false
  solveForMetadata : Bool := false
  allowInvalidHeaderWrites : Bool := false
  recordStatistics : Bool := false
  allowUnimplementedPrimitives : Bool := false
  dumpTestCase : Bool := false
  showParserPaths : Bool := false
  packetLengthErrors : Bool := false
  runSimpleSwitch : Bool := false
  minPacketLength : Int := 1
  maxPacketLength : Int := 1536
  maxPathsPerParserPath : Option Int := none
  maxTestCasesPerPath : Option Int := some 1
  numTestCases : Option Int := none
  edgeCoverage : Bool := false
  conditionalOpt : Bool := true
  tableOpt : Bool := true
  incremental : Bool := true
  roundRobinParserPaths : Bool := false
  collapseParserPaths : Bool := false
  extractVlVariation : Option String := some "none"
  consolidateTables : Option Int := none
  randomize : Bool := false
  externDefinitions : Option (List String) := none

namespace Options

def variation (o : Options) : Option String :=
  match o.extractVlVariation with
  | none => none
  | some s => if s.toLower == "none" then none else some s

end Options

end PacketSmith
