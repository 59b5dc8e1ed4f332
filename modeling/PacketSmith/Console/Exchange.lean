import PacketSmith.Console.Parameter

/-!
# Requests and replies

What a switch answers depends on the requests that it has had before, so a switch is a function of all of them.
-/

namespace PacketSmith.Console

/-! ## Requests -/

inductive KeyValue where
  | exact (key : List UInt8)
  | longest (key : List UInt8) (length : Int)
  | ternary (key mask : List UInt8)
  | valid (key : Bool)
  | range (first last : List UInt8)
deriving DecidableEq

def KeyValue.display : KeyValue → String
  | exact key => "EXACT-" ++ colonBytes key
  | longest key length => "LPM-" ++ colonBytes key ++ "/" ++ toString length
  | ternary key mask => "TERNARY-" ++ colonBytes key ++ " &&& " ++ colonBytes mask
  | valid _ => "VALID-"
  | range first last => "RANGE-" ++ colonBytes first ++ " -> " ++ colonBytes last

inductive Argument where
  | int (n : Int)
  | bool (b : Bool)
  | text (s : String)
  | json (v : Json)
  | bytes (bs : List UInt8)
  | params (bs : List (List UInt8))
  | key (fields : List KeyValue)
  | priority (n : Int)
  | rates (rs : List (Float × Int))
  | count (bytes packets : Int)
  | checksum (width : Nat) (polynomial start final : Int) (data remainder : Bool)

structure Request where
  name : String
  args : List Argument

def Request.first (name : String) (args : List Argument) : Request := ⟨name, .int 0 :: args⟩

/-! ## Replies -/

inductive Reply where
  | null
  | bool (b : Bool)
  | int (n : Int)
  | float (x : Float)
  | text (s : String)
  | bytes (bs : List UInt8)
  | list (rs : List Reply)
  | record (fields : List (String × Reply))
  | dict (entries : List (String × Reply))
deriving Inhabited

inductive Answer where
  | value (r : Reply)
  | refusal (operation : Operation) (code : Int)

namespace Reply

def part (r : Reply) (name : String) : Except Fault Reply :=
  match r with
  | .record fields =>
    match fields.lookup name with
    | some found => .ok found
    | none => .error .noPart
  | _ => .error .noPart

def items : Reply → Except Fault (List Reply)
  | .list rs => .ok rs
  | .text s => .ok (s.toList.map fun c => .text c.toString)
  | .bytes bs => .ok (bs.map fun b => .int b.toNat)
  | .dict entries => .ok (entries.map fun e => .text e.1)
  | _ => .error .wrongKind

def toJson : Reply → Json
  | .null => .null
  | .bool b => .bool b
  | .int n => .int n
  | .float x => .float x
  | .text s => .str s
  | .bytes bs => .str (hexBytes bs)
  | .list rs => .arr (rs.attach.map fun ⟨r, _⟩ => toJson r)
  | .record _ => .str "record"
  | .dict _ => .str "dict"

def display (r : Reply) : String := r.toJson.display

def number? (r : Reply) : Option Int := r.toJson.number?

def toInt : Reply → Except Fault Int
  | .int n => .ok n
  | .bool b => .ok b.toNat
  | .float x => Json.truncate x
  | _ => .error .wrongKind

def whole : Reply → Except Fault Int
  | .int n => .ok n
  | .bool b => .ok b.toNat
  | _ => .error .wrongKind

def hex (r : Reply) : Except Fault String := do
  let digits ← (← r.items).mapM fun
    | .int n =>
      let shown := Text.hexDigits n.natAbs
      Except.ok (if n < 0 then "-" ++ Text.zeroFill 1 shown else Text.zeroFill 2 shown)
    | .bool b => Except.ok (if b then "01" else "00")
    | .null | .list _ | .record _ | .dict _ | .bytes _ => Except.error Fault.wrongKind
    | _ => Except.error Fault.malformed
  return String.join digits

def centred (width : Nat) : Reply → Except Fault String
  | .text s => .ok (Text.padCentre width s)
  | .int n => .ok (Text.padCentre width (toString n))
  | .bool b => .ok (Text.padCentre width (if b then "1" else "0"))
  | .float x => .ok (Text.padCentre width (Decimal.text x))
  | _ => .error .wrongKind

def truth : Reply → Bool
  | .null => false
  | .bool b => b
  | .int n => n != 0
  | .float x => x != 0.0
  | .text s => s != ""
  | .bytes bs => !bs.isEmpty
  | .list rs => !rs.isEmpty
  | .record _ => true
  | .dict entries => !entries.isEmpty

end Reply

end PacketSmith.Console
