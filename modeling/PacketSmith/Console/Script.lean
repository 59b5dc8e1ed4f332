import PacketSmith.Console.Exchange

/-!
# Scripts of a switch

A script says what a switch answers, so that the console can be used without one. For each name of a request it has a
list of answers, which are used up in order.
-/

namespace PacketSmith.Console

def bytesOfHex : List Char → List UInt8
  | a :: b :: rest =>
    UInt8.ofNat (((Text.hexInt? (String.ofList [a, b])).getD 0).toNat) :: bytesOfHex rest
  | _ => []

namespace Reply

mutual

def ofJson : Json → Reply
  | .null => .null
  | .bool b => .bool b
  | .int n => .int n
  | .float x => .float x
  | .str s => .text s
  | .arr vs => .list (ofElements vs)
  | .obj [("bytes", .str s)] => .bytes (bytesOfHex s.toList)
  | .obj [("dict", .obj ms)] => .dict (ofMembers ms)
  | .obj ms => .record (ofMembers ms)

def ofElements : List Json → List Reply
  | [] => []
  | v :: vs => ofJson v :: ofElements vs

def ofMembers : List (String × Json) → List (String × Reply)
  | [] => []
  | (name, v) :: ms => (name, ofJson v) :: ofMembers ms

end

end Reply

def Answer.ofJson (v : Json) : Answer :=
  match v.member? "raise" with
  | some (.str name) =>
    .refusal (.ofRefusal name) (((v.member? "code").bind fun c => c.int?).getD 0)
  | _ => .value (.ofJson v)

def scripted (script : Json) (before : List Request) (r : Request) : Answer :=
  let used := (before.filter fun b => b.name == r.name).length
  match ((script.member? r.name).bind fun l => l.arr?).getD [] |>.drop used with
  | v :: _ => .ofJson v
  | [] => .value .null

end PacketSmith.Console
