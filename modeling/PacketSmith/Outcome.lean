/-!
# Outcomes

What comes of an attempt to drive a program down a path.
-/

namespace PacketSmith

inductive Outcome where
  | success
  | noPacketFound
  | testFailed
  | uninitializedRead
  | invalidHeaderWrite
deriving DecidableEq

namespace Outcome

def every : List Outcome :=
  [success, noPacketFound, testFailed, uninitializedRead, invalidHeaderWrite]

def name : Outcome → String
  | success => "SUCCESS"
  | noPacketFound => "NO_PACKET_FOUND"
  | testFailed => "TEST_FAILED"
  | uninitializedRead => "UNINITIALIZED_READ"
  | invalidHeaderWrite => "INVALID_HEADER_WRITE"

def ofName? (s : String) : Option Outcome := every.find? fun o => o.name == s

def display (o : Outcome) : String := "TestPathResult." ++ o.name

/-- Whether a path with this outcome gives a test case: a path to the end that a packet takes, and
any path that misuses a header. -/
def givesTestCase (o : Outcome) (complete : Bool) : Bool :=
  match o with
  | uninitializedRead | invalidHeaderWrite => true
  | success => complete
  | _ => false

/-- Whether the outcome of a path is reported. A packet that takes a path short of the end is
none. -/
def isReported (o : Outcome) (complete : Bool) : Bool := o != success || complete

end Outcome

end PacketSmith
