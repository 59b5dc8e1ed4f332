import PacketSmith.CommandLine.Arguments
import PacketSmith.Drawing
import PacketSmith.Generate
import PacketSmith.Json.Reader
import PacketSmith.TestSuite

/-!
# The generator as a program

Reads the command line and the program file, and writes the test cases of the program or the drawings of its graphs. A
fault goes to the error output and ends the program.
-/

namespace PacketSmith

/-- What a run writes: lines of output, files of text, and files of bytes. -/
structure Written where
  lines : List String := []
  texts : List (String × String) := []
  binaries : List (String × List UInt8) := []

def knownExterns : ExternFiles := fun
  | "rshift" => some Extern.shiftRight
  | _ => none

def draws (seed n : Nat) : Nat :=
  (List.range 32).foldl (fun x _ => x * 6364136223846793005 + 1442695040888963407) (seed + n)

def Arguments.write (a : Arguments) (seed : Nat) (source : Json) : Except Fault Written := do
  if a.drawGraphs then
    let p ← Program.ofJson a.options.packetLengthErrors source
    let _ ← p.parserGraph
    return { texts := Drawing.dotFiles (← Drawing.both p) }
  else
    let l ← Loaded.ofJson a.options knownExterns source
    let g ← l.generate Decide.solver (draws seed) fun _ => []
    let cases := g.progress.cases.reverse
    return {
      lines := ← g.report l
      texts := [(TestSuite.baseName ++ ".json", TestSuite.text cases)]
      binaries := [(TestSuite.baseName ++ ".pcap", TestSuite.capture cases)] }

def readProgram (file : String) : IO (Except Fault Json) := do
  try
    match Json.parse? (← IO.FS.readFile file) with
    | some source => return .ok source
    | none => return .error .unreadable
  catch _ => return .error .fileMissing

def Fault.describe (f : Fault) : String := f.message.getD (reprStr f.kind)

def fail (f : Fault) : IO UInt32 := do
  match f with
  | .exit code => return UInt32.ofNat code
  | f =>
    IO.eprintln f.describe
    return 1

def Written.emit (w : Written) : IO UInt32 := do
  w.texts.forM fun (name, content) => IO.FS.writeFile name content
  w.binaries.forM fun (name, bytes) => IO.FS.writeBinFile name ⟨bytes.toArray⟩
  w.lines.forM IO.println
  return 0

end PacketSmith

open PacketSmith in
def main (line : List String) : IO UInt32 := do
  match Arguments.read line with
  | .error f => fail f
  | .ok a =>
    match ← readProgram a.file with
    | .error f => fail f
    | .ok source =>
      match a.write (← IO.rand 0 (Nat.pow 2 64)) source with
      | .error f => fail f
      | .ok w => w.emit
