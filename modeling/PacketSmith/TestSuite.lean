import PacketSmith.Json.Writer
import PacketSmith.Switch.Playback

/-!
# Files of test cases

The test cases of a run go into two files. The one describes them in a list. The other one is a capture file with
their packets.
-/

namespace PacketSmith.TestSuite

def baseName : String := "./test-case"

def text (cases : List TestCase) : String :=
  "[\n" ++ ",\n".intercalate (cases.map fun t => t.toJson.indented) ++ "\n]\n"

def capture (cases : List TestCase) : List UInt8 :=
  Capture.header ++ (cases.flatMap TestCase.payloads).flatMap Capture.packet

end PacketSmith.TestSuite
