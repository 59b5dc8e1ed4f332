import PacketSmith.Json.Access

/-!
# Parameters as bytes

*Numbers.* A number shows its base. It fills the bytes of its width from the right, and has to fit into them. A
negative number counts as zero.

*Addresses.* A text of 32 or 48 bits with a point is an address of four decimal numbers, and one with a colon is an
address of six hexadecimal numbers. The numbers of an address are taken as they are, so one that does not fit into a
byte is found only when the bytes are packed.

*Sets of ports.* A set of ports is a text of zeros and ones. The last character stands for port 0.
-/

/-! ## Complaints of the console

The user has written something that makes no sense, the switch has refused an operation, or a step has failed.
-/

namespace PacketSmith.Console

inductive Operation where
  | table
  | counter
  | meter
  | register
  | learn
  | swap
  | device
  | checksum
  | valueSet
  | multicast (lags : Bool)
deriving DecidableEq

namespace Operation

def noun : Operation → String
  | table => "table"
  | counter => "counter"
  | meter => "meter"
  | register => "register"
  | learn => "learn"
  | swap => "swap"
  | device => "device manager"
  | checksum => "crc"
  | valueSet => "parser value set"
  | multicast _ => "PRE"

def refusals : List (Operation × String) := [
  (table, "InvalidTableOperation"),
  (counter, "InvalidCounterOperation"),
  (meter, "InvalidMeterOperation"),
  (register, "InvalidRegisterOperation"),
  (learn, "InvalidLearnOperation"),
  (swap, "InvalidSwapOperation"),
  (device, "InvalidDevMgrOperation"),
  (checksum, "InvalidCrcOperation"),
  (valueSet, "InvalidParseVSetOperation"),
  (multicast false, "InvalidMcOperation"),
  (multicast true, "InvalidMcOperation")]

def refusal (o : Operation) : String := (refusals.lookup o).getD ""

def ofRefusal (name : String) : Operation :=
  if name = "InvalidMcOperationLAG" then multicast true
  else ((refusals.find? fun r => r.2 == name).map Prod.fst).getD table

def codeName? (code : Int) : Option String :=
  if 1 ≤ code ∧ code ≤ 9 then some ("CODE_" ++ toString code) else none

end Operation

inductive Complaint where
  | input (text : String)
  | resource (kind name : String)
  | parameter (text : String)
  | matchKey (text : String)
  | runtimeData (text : String)
  | refused (operation : Operation) (code : Int)
  | fault (f : Fault)
deriving DecidableEq

namespace Complaint

def text? : Complaint → Option String
  | input text | parameter text | matchKey text | runtimeData text => some text
  | resource kind name => some ("Invalid " ++ kind ++ " name (" ++ name ++ ")")
  | refused _ _ | fault _ => none

def report : Complaint → Except Fault String
  | matchKey text => .ok ("Invalid match key:" ++ text)
  | runtimeData text => .ok ("Invalid runtime data:" ++ text)
  | input text => .ok ("Error:" ++ text)
  | parameter text => .ok ("Error:" ++ text)
  | resource kind name => .ok ("Error:Invalid " ++ kind ++ " name (" ++ name ++ ")")
  | refused o code =>
    match Operation.codeName? code with
    | some name => .ok ("Invalid " ++ o.noun ++ " operation (" ++ name ++ ")")
    | none => .error (.missing (.int code))
  | fault f => .error f

end Complaint

/-! ## Bytes -/

def bigEndian (n : Nat) : List Nat := if _h : n = 0 then [] else bigEndian (n / 256) ++ [n % 256]
termination_by n
decreasing_by omega

/-- A number as bytes: it has to need at most `room` of them, and zeros in front fill them up to
`length`. -/
def encode (n : Int) (room length : Int) : Except Complaint (List Int) :=
  let digits := bigEndian n.toNat
  if room < digits.length then .error (.parameter "Parameter is too large")
  else .ok (List.replicate (length.toNat - digits.length) 0 ++ digits.map Int.ofNat)

def encodeIn (n : Int) (size : Json) : Except Complaint (List Int) :=
  match size with
  | .int k => encode n k k
  | .float x =>
    match Json.truncate x.floor, Json.truncate x.ceil with
    | .ok room, .ok length => encode n room length
    | .error f, _ | _, .error f => .error (.fault f)
  | _ => .error (.fault .wrongKind)

def pack (ns : List Int) : Except Fault (List UInt8) :=
  ns.mapM fun n => if 0 ≤ n ∧ n ≤ 255 then .ok (UInt8.ofNat n.toNat) else .error .packing

def hexByte (b : UInt8) : String := Text.zeroFill 2 (Text.hexDigits b.toNat)

def hexBytes (bs : List UInt8) : String := String.join (bs.map hexByte)

def colonBytes (bs : List UInt8) : String := ":".intercalate (bs.map hexByte)

/-! ## Addresses -/

inductive NoAddress where
  | otherForm
  | malformed
deriving DecidableEq

def address (divider : String) (count : Nat) (number? : String → Option Int) (s : String) :
    Except NoAddress (List Int) :=
  if !Text.holds s divider then .error .otherForm
  else
    let parts := Text.split divider s
    match parts.mapM number? with
    | some ns => if parts.length = count then .ok ns else .error .malformed
    | none => .error .malformed

def address32 : String → Except NoAddress (List Int) := address "." 4 Text.int?

def address48 : String → Except NoAddress (List Int) := address ":" 6 Text.hexInt?

def address128 (s : String) : Except NoAddress (List Int) :=
  if Text.holds s ":" then .error .malformed else .error .otherForm

/-! ## Parameters -/

def noNumber : Complaint :=
  .parameter "Invalid input, could not cast to integer, try in hex with 0x prefix"

def byteCount (width : Json) : Except Fault Int :=
  match width with
  | .int n => .ok ((n + 7).fdiv 8)
  | .bool b => .ok ((b.toNat + 7) / 8)
  | .float x => Json.truncate ((x + 7) / 8).floor
  | _ => .error .wrongKind

def number (s : String) (width : Json) : Except Complaint (List Int) :=
  match Text.markedInt? s with
  | none => .error noNumber
  | some n =>
    match byteCount width with
    | .ok count => encode n count count
    | .error f => .error (.fault f)

def parameter (s : String) (width : Json) : Except Complaint (List Int) :=
  let orNumber (found : Except NoAddress (List Int)) (noun : String) : Except Complaint (List Int) :=
    match found with
    | .ok ns => .ok ns
    | .error .otherForm => number s width
    | .error .malformed => .error (.parameter ("Invalid " ++ noun ++ " address"))
  match width.number? with
  | some 32 => orNumber (address32 s) "IPv4"
  | some 48 => orNumber (address48 s) "MAC"
  | some 128 => orNumber (address128 s) "IPv6"
  | _ => number s width

/-- A value of a set of values of the parser. The width in bytes is not rounded to whole bytes
before zeros are put in front, so there may be one more byte than the width needs. -/
def setValue (s : String) (width : Json) : Except Complaint (List UInt8) := do
  let some n := Text.markedInt? s | throw noNumber
  let w ← match width with
    | .int w => if w < 0 then throw (.fault .malformed) else pure w
    | .bool b => pure (b.toNat : Int)
    | _ => throw (.fault .wrongKind)
  if n > Nat.pow 2 w.toNat - 1 then
    throw (.parameter ("Input is too large, it should fit within " ++ width.display ++ " bits"))
  match pack (← encode n ((w + 7) / 8) ((w + 14) / 8)) with
  | .ok bs => return bs
  | .error f => throw (.fault f)

/-! ## Words of a switch -/

def markedNumber (s : String) : Except Complaint Int :=
  match Text.markedInt? s with
  | some n => .ok n
  | none => .error (.fault .malformed)

def signedWord (bits : Nat) (s : String) : Except Complaint Int := do
  let n ← markedNumber s
  if n ≥ Nat.pow 2 bits then throw (.input ("Integer cannot fit within " ++ toString bits ++ " bits"))
  return if n ≥ Nat.pow 2 (bits - 1) then n - Nat.pow 2 bits else n

def unsignedWord (bits : Nat) (n : Int) : Int :=
  if (n / Nat.pow 2 (bits - 1)) % 2 = 1 then n + Nat.pow 2 bits else n

def truthValue (s : String) : Except Complaint Bool :=
  if s == "true" || s == "True" then .ok true
  else if s == "false" || s == "False" then .ok false
  else match Text.markedInt? s with
    | some n => .ok (n != 0)
    | none => .error (.input "Invalid bool parameter")

/-! ## Sets of ports -/

def portNumber (noun s : String) : Except Complaint Nat :=
  match Text.int? s with
  | some n =>
    if n < 0 then .error (.input ("'" ++ s ++ "' is not a valid " ++ noun ++ " number")) else .ok n.toNat
  | none => .error (.input ("'" ++ s ++ "' is not a valid " ++ noun ++ " number"))

def portChars (noun : String) (next : Nat) : List Nat → Except Complaint (List Char)
  | [] => .ok []
  | p :: rest => do
    if p + 1 = next then
      throw (.input ("Found duplicate " ++ noun ++ " number '" ++ toString p ++ "'"))
    return List.replicate (p - next) '0' ++ '1' :: (← portChars noun (p + 1) rest)

def portMap (noun : String) (ports : List String) : Except Complaint String := do
  let numbers ← ports.mapM (portNumber noun)
  return String.ofList (← portChars noun 0 (numbers.mergeSort (· ≤ ·))).reverse

end PacketSmith.Console
