import PacketSmith.Outline.Run
import PacketSmith.Switch.Session

/-!
# Outlines of the console

Bytes are shown by their hexadecimal digits, numbers with a fraction by their text, and
records by their name and their parts.
-/

namespace PacketSmith.Outline

open Console Shown

def byteString (bs : List UInt8) : Json := .obj [("bytes", hexBytes bs)]

def real (x : Float) : Json := .obj [("float", Decimal.text x)]

def record (name : String) (fields : List (String × Json)) : Json :=
  .obj (("record", ↑name) :: fields.filter fun f => !f.2.same .null)

def keyValue (v : KeyValue) : Json :=
  let param (kind : MatchKind) (name : String) (fields : List (String × Json)) : Json :=
    record "BmMatchParam" [("type", kind.number), (kind.name, record ("BmMatchParam" ++ name) fields)]
  match v with
  | .exact key => param .exact "Exact" [("key", byteString key)]
  | .longest key length => param .longest "LPM" [("key", byteString key), ("prefix_length", length)]
  | .ternary key mask => param .ternary "Ternary" [("key", byteString key), ("mask", byteString mask)]
  | .valid key => param .valid "Valid" [("key", key)]
  | .range first last => param .range "Range" [("start", byteString first), ("end_", byteString last)]

instance : Shown Argument := ⟨fun
  | .int n => n
  | .bool b => b
  | .text s => s
  | .json v => v
  | .bytes bs => byteString bs
  | .params bs => bs.map byteString
  | .key fields => fields.map keyValue
  | .priority n => record "BmAddEntryOptions" [("priority", n)]
  | .rates rs => rs.map fun r => record "BmMeterRateConfig" [("units_per_micros", real r.1), ("burst_size", r.2)]
  | .count bytes packets => record "BmCounterValue" [("bytes", bytes), ("packets", packets)]
  | .checksum width polynomial start final data remainder =>
    record ("BmCrc" ++ toString width ++ "Config") [("polynomial", polynomial), ("initial_remainder", start),
      ("final_xor_value", final), ("data_reflected", data), ("remainder_reflected", remainder)]⟩

instance : Shown Request := ⟨fun r => (r.name, r.args)⟩

instance : Shown Contact := ⟨fun
  | .connect host port services => .arr ["connect", host, port, services]
  | .program file => .arr ["config", file]⟩

mutual

def reply : Reply → Json
  | .bytes bs => byteString bs
  | .float x => real x
  | .list rs => .arr (replies rs)
  | .record _ => .obj [("object", "SimpleNamespace")]
  | .dict _ => .obj [("object", "dict")]
  | .null => .null
  | .bool b => b
  | .int n => n
  | .text s => s

def replies : List Reply → List Json
  | [] => []
  | r :: rs => reply r :: replies rs

end

def sorted (l : List String) : Json := l.mergeSort (· ≤ ·)

def line (name : String) (size : Json) (more : String) : String :=
  Text.padRight nameColumn name ++ " [" ++ size.display ++ more ++ "]"

def sizeLine (name : String) (size : Json) (more : String) : Json :=
  match size with
  | .null => .null
  | _ => line name size more

def meterLine (m : MeterInfo) : Json := sizeLine m.name m.size (", " ++ Kinds.meters.names[m.kind]?.getD "")

def rowLe : List String → List String → Bool
  | [], _ => true
  | _, [] => false
  | a :: as, b :: bs => if a = b then rowLe as bs else a < b

instance : Shown SessionEvent := ⟨fun
  | .makePipe file => .arr ["mkfifo", file]
  | .remove file => .arr ["remove", file]
  | .removeSocket => .arr ["remove", "IPC"]
  | .start args folder => .arr ["popen", args, folder]
  | .pause seconds => .arr ["sleep", seconds]
  | .connect host port services => .arr ["connect", host, port, services]
  | .program => .arr ["config", .null]
  | .kill files => .arr ["kill", files.map fun f => (f.1, bytes f.2)]⟩

end PacketSmith.Outline
