import PacketSmith.Switch.Log
import PacketSmith.TestCase

/-!
# Playing a test case on a switch

The tables of an empty switch are set up, the packet is sent on the first interface, and the interfaces are closed so
that the switch reads them.
-/

/-! ## Capture files

A switch reads the packets of an interface from a capture file and writes those that leave to another one.
-/

namespace PacketSmith.Capture

/-! ## Names -/

def interfaceName (i : Int) : String := "pcap" ++ toString i

def interfaceArgument (i : Int) : String := toString i ++ "@" ++ interfaceName i

def fileName (folder : String) (i : Int) (direction : String) : String :=
  folder ++ "/" ++ interfaceName i ++ "_" ++ direction ++ ".pcap"

/-- The interface and the direction of a capture file. A name is asked to end before it starts, so
none is recognized. -/
def ofFileName (_ : String) : Except Fault (Int × String) := .error .violated

/-! ## Contents -/

def word32 (n : Nat) : List UInt8 :=
  [UInt8.ofNat n, UInt8.ofNat (n / 256), UInt8.ofNat (n / 65536), UInt8.ofNat (n / 16777216)]

def word16 (n : Nat) : List UInt8 := [UInt8.ofNat n, UInt8.ofNat (n / 256)]

def header : List UInt8 :=
  word32 0xa1b2c3d4 ++ word16 2 ++ word16 4 ++ word32 0 ++ word32 0 ++ word32 65535 ++ word32 0

def packet (bytes : List UInt8) : List UInt8 :=
  word32 0 ++ word32 0 ++ word32 bytes.length ++ word32 bytes.length ++ bytes

end PacketSmith.Capture

namespace PacketSmith

inductive SwitchCall where
  | setDefault (line : String)
  | addEntry (line : String)
  | clearTable (name : String)
  | packet (interface : Nat) (bytes : List UInt8)
  | flush (interface : Nat)
  | close (interface : Nat)
  | shutdown
deriving DecidableEq

namespace SwitchCall

def send (interfaces : Nat) (bytes : List UInt8) : List SwitchCall :=
  packet 0 bytes :: (List.range interfaces).flatMap fun i => [flush i, close i]

def ofText (command : String) : Except Fault SwitchCall :=
  let after (start : String) : Option String :=
    if Text.startsWith command start then some (String.ofList (command.toList.drop start.length)) else none
  match after "table_set_default ", after "table_add " with
  | some line, _ => .ok (setDefault line)
  | none, some line => .ok (addEntry line)
  | none, none => .error (.unsupported ("Unknown table cmd: " ++ command))

def ofCommand (c : TableCommand) : SwitchCall :=
  if c.isDefault then setDefault c.arguments else addEntry c.arguments

end SwitchCall

namespace TestCase

/-- Plays the test case on a switch with one interface, if a packet takes its path to the end: the
calls, and whether the switch took the path. The packet is taken for lost if there is none. -/
def play (places : Trace.Places) (log : List String) (t : TestCase) :
    Option (List SwitchCall) × Except Fault Unit :=
  if t.path.complete && t.outcome == .success then
    match t.payloads with
    | [bytes] =>
      let calls := t.commands.map SwitchCall.ofCommand ++ SwitchCall.send 1 bytes ++ [.shutdown]
      (some calls, do
        let (seen, _) ← Trace.scan places log
        require (← Visit.agree t.path.expected seen))
    | _ => (none, .error .violated)
  else (none, .ok ())

end TestCase

end PacketSmith
