import PacketSmith.CommandLine.Grammar
import PacketSmith.Console.Command

/-!
# A session of the console

The command line of the console says where the switch is, which replication engine it has, and which program file it
runs. Without a file, the console asks the switch for its program.
-/

/-! ## The loop of the console

The console asks for a line, runs the command that it names, and asks again until a command has a value that counts as
true.
-/

namespace PacketSmith.Console

def greeting : String := "Control utility for runtime P4 table manipulation"

def ready : String := "RuntimeCmd: "

def ending : String := "EOF"

namespace Line

def spelled (line : String) : String :=
  match Text.trimChars line.toList with
  | '?' :: cs => "help " ++ String.ofList cs
  | '!' :: cs => "shell " ++ String.ofList cs
  | cs => String.ofList cs

def isNameChar (c : Char) : Bool := c.isAlphanum || c == '_'

def cut (line : String) : String × String :=
  (String.ofList (line.toList.takeWhile isNameChar),
    String.ofList (Text.trimChars (line.toList.dropWhile isNameChar)))

def run (line : String) : Dialog Reply :=
  let (name, rest) := cut line
  match Command.find? name with
  | some c => c.run rest
  | none => do
    Dialog.say ("*** Unknown syntax: " ++ line)
    return .null

def kept (line : String) : String := if line = ending then "" else line

/-- Runs a line, given the one that an empty line repeats. The value comes with the line that is
to be repeated from now on. -/
def step (last line : String) : Dialog (String × Reply) := do
  match spelled line, spelled last with
  | "", "" => return ("", .null)
  | "", last => return (kept last, ← run last)
  | line, _ => return (kept line, ← run line)

def loop (last : String) : List String → Dialog Unit
  | [] => do
    Dialog.put ready
    let _ ← step last ending
  | line :: rest => do
    Dialog.put ready
    let (last, value) ← step last line
    if value.truth then return else loop last rest

end Line

def console (lines : List String) : Dialog Unit := do
  Dialog.say greeting
  Line.loop "" lines

/-! ## The command line -/

structure Arguments where
  port : Int := 9090
  host : String := "localhost"
  file : Option String := none
  replicator : Replicator := .plain

namespace Arguments

open CommandLine in
def grammar : Grammar Arguments where
  options := [
    ⟨["-h", "--help"], .none, fun _ _ => .error (.exit 0)⟩,
    ⟨["--thrift-port"], .one, fun s a =>
      match Text.int? (s.getD "") with
      | some n => .ok { a with port := n }
      | none => .error usage⟩,
    ⟨["--thrift-ip"], .one, fun s a => .ok { a with host := s.getD "" }⟩,
    ⟨["--json"], .one, fun s a => .ok { a with file := s }⟩,
    ⟨["--pre"], .one, fun s a =>
      if (["None", "SimplePre", "SimplePreLAG"].map some).contains s then do
        return { a with replicator := ← Replicator.ofName (s.getD "") }
      else .error usage⟩]
  argument := none

def read (line : List String) : Except Fault Arguments := grammar.read {} line

end Arguments

/-! ## The session -/

inductive Contact where
  | connect (host : String) (port : Int) (services : List (Option String))
  | program (file : Option String)
deriving DecidableEq

structure Site where
  reachable : Bool
  program : Json
  files : Dict String String
  answer : List Request → Request → Answer
  shell : String → String

namespace Site

def source (s : Site) : Option String → Except Fault Json
  | none => .ok s.program
  | some name =>
    match s.files.get? name with
    | none => .error .fileMissing
    | some text =>
      match Json.parse? text with
      | some v => .ok v
      | none => .error .unreadable

def load (s : Site) (a : Arguments) (file : Option String) : List Contact × Except Fault Catalog :=
  let connect := .connect a.host a.port a.replicator.services
  if s.reachable then ([connect, .program file], (s.source file).bind Catalog.ofJson)
  else ([connect], .error .unreachable)

def run (s : Site) (a : Arguments) (lines : List String) :
    List Contact × Except Complaint Unit × Terminal :=
  match s.load a a.file with
  | (contacts, .error f) => (contacts, .error (.fault f), {})
  | (contacts, .ok c) =>
    let peer : Peer := ⟨a.replicator, s.answer, s.shell⟩
    (contacts, (console lines).run peer { catalog := c, files := s.files })

end Site

end PacketSmith.Console
