import PacketSmith.Fault
import PacketSmith.Text.Pattern

/-!
# Summaries of logs

The log of a run has a line for each packet and a line for the end of each path. The summary has two lines for the end
of a path: the packet that was named last, and the result.
-/

namespace PacketSmith.LogSummary

/-! ## Lines -/

def blanks : Text.Part := .run Text.isBlank 1 true false

def word : Text.Part := .run (fun c => !Text.isBlank c) 1 true true

def digits (keep : Bool) : Text.Part := .run Text.Part.isDigit 1 true keep

def anything (keep : Bool) : Text.Part := .run Text.Part.anything 0 true keep

def packetLine : List Text.Part :=
  [.oneOf ["DEBUG", "INFO"] false, .text ": ", .oneOf ["packet", "payload"] false, blanks, .text "(",
    digits false, .text " bytes)", blanks, word, .lineEnd]

def endLine : List Text.Part :=
  [.text "INFO: END", blanks, digits true, .char Text.isBlank, anything true, .lineEnd]

def resultText : List Text.Part :=
  [anything false, .text " complete_path ", .oneOf ["True", "False"] true, .text " ",
    .optional [.text "TestPathResult", .char Text.Part.anything], word, .text ":", anything true, .lineEnd]

def read? (pattern : List Text.Part) (line : String) : Option (List (Option String)) :=
  Text.matchStart? (Text.Part.weights pattern) pattern line.toList

/-! ## Summary -/

def results : List String :=
  ["None", "SUCCESS", "NO_PACKET_FOUND", "TEST_FAILED", "UNINITIALIZED_READ", "INVALID_HEADER_WRITE"]

def packetResults : List String := ["SUCCESS", "TEST_FAILED"]

structure State where
  packet : Option String := none
  packets : Nat := 0
  errors : Nat := 0
  lines : List String := []

namespace State

def error (s : State) (text line : String) : State :=
  { s with packet := none, errors := s.errors + 1, lines := ("ERROR: " ++ line) :: text :: s.lines }

def packetText (s : State) : String :=
  match s.packet with
  | none => "packet None"
  | some p => "packet (" ++ toString (p.length / 2) ++ " bytes) " ++ p

def result (s : State) (id : Int) (complete result details : String) : State :=
  let counted := packetResults.contains result
  let packets := if counted then s.packets + 1 else s.packets
  let number := if counted then toString packets else "N/A"
  let line := "pkt " ++ number ++ " case " ++ toString id ++ " cpath " ++
    (if complete = "True" then "T" else "F") ++ " res " ++ result ++ " details " ++ details
  { s with packets := packets, lines := line :: s.packetText :: s.lines }

def step (s : State) (line : String) : State :=
  let line := Text.trimEnd line
  match read? packetLine line with
  | some [some p] => { s with packet := some p }
  | _ =>
    match read? endLine line with
    | some [some id, some rest] =>
      match read? resultText rest with
      | some [some complete, some result, some details] =>
        if results.contains result then s.result ((Text.int? id).getD 0) complete result details
        else s.error ("ERROR: Unexpected result_type '" ++ result ++ "'") line
      | _ => s.error "ERROR: Unexpected contents for 'INFO: END' line:" line
    | _ => s

end State

def linesOf : List Char → List Char → List String
  | [], [] => []
  | [], line => [String.ofList line.reverse]
  | '\r' :: '\n' :: rest, line => String.ofList line.reverse :: linesOf rest []
  | c :: rest, line =>
    if c = '\n' || c = '\r' then String.ofList line.reverse :: linesOf rest []
    else linesOf rest (c :: line)

def run (log : String) : String × Except Fault Unit :=
  let s := (linesOf log.toList []).foldl State.step {}
  (String.join (s.lines.reverse.map fun l => l ++ "\n"), require (s.errors == 0) (.exit 1))

end PacketSmith.LogSummary
