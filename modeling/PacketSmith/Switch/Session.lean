import PacketSmith.Console.Session
import PacketSmith.Switch.Playback

/-!
# A session with a switch

*Start.* A pipe is made for each interface, so that the switch waits for packets. The switch is started, the header
of a capture file is written to each pipe, and the session waits for a line of output that says that the switch is
ready. Then it connects to the switch, and gives up after three attempts.

*Use.* Entries are added to tables through the commands of the console. One packet can be sent; the pipes are then
closed, and the output of the switch tells the path of the packet.

*End.* The switch is ended and the capture files are removed, also if the start fails.
-/

namespace PacketSmith

inductive SessionEvent where
  | makePipe (file : String)
  | remove (file : String)
  | removeSocket
  | start (args : List String) (folder : String)
  | pause (seconds : Nat)
  | connect (host port : String) (services : List (Option String))
  | program
  | kill (files : List (String × List UInt8))

namespace Session

structure Site where
  folder : Option String := none
  madeFolder : String
  interfaces : Nat
  file : String
  socket : Bool := false
  failures : Nat := 0
  program : Json
  answer : List Console.Request → Console.Request → Console.Answer
  shell : String → String

def Site.used (s : Site) : String := s.folder.getD s.madeFolder

def Site.peer (s : Site) : Console.Peer := ⟨.lags, s.answer, s.shell⟩

structure State where
  files : Dict String (List UInt8) := {}
  interfaces : Nat := 0
  started : Bool := false
  closed : Bool := false
  output : List String := []
  terminal : Console.Terminal := {}
  changed : List String := []
  events : List SessionEvent := []

abbrev Step := ExceptT Fault (StateM State)

def note (e : SessionEvent) : Step Unit := modify fun s => { s with events := e :: s.events }

/-! ## Start -/

def setUp (site : Site) (i : Nat) : Step Unit := do
  let pipe := Capture.fileName site.used i "in"
  modify fun s => { s with interfaces := i + 1 }
  note (.makePipe pipe)
  if (← get).files.contains pipe then throw .fileExists
  modify fun s => { s with files := s.files.insert pipe [] }

def command (site : Site) : List String :=
  ["simple_switch", "--log-console", "--thrift-port", "9090", "--use-files", "0"] ++
    (List.range site.interfaces).flatMap (fun i : Nat => ["-i", Capture.interfaceArgument i]) ++ [site.file]

def openPipe (site : Site) (i : Nat) : Step Unit :=
  modify fun s => { s with files := s.files.insert (Capture.fileName site.used i "in") Capture.header }

def afterReady (lines : List String) : List String :=
  (lines.dropWhile fun l => !Text.holds l "Pcap reader: starting PcapFilesReader").drop 1

def connect : Nat → Nat → Step Unit
  | 0, _ => throw (.exit 1)
  | attempts + 1, failures => do
    note (.connect "localhost" "9090" (Console.Replicator.services .lags))
    match failures with
    | 0 => pure ()
    | failures + 1 => do
      note (.pause 1)
      connect attempts failures

def start (site : Site) : Step Unit := do
  (List.range site.interfaces).forM (setUp site)
  if site.socket then note .removeSocket
  note (.start (command site) site.used)
  modify fun s => { s with started := true }
  (List.range site.interfaces).forM (openPipe site)
  modify fun s => { s with output := afterReady s.output }
  connect 3 site.failures
  note .program
  let c ← Console.Catalog.ofJson site.program
  modify fun s => { s with terminal := { catalog := c } }

/-! ## Use -/

def dialog : SwitchCall → Console.Dialog Unit
  | .setDefault line => discard (Console.Dialog.setDefault line)
  | .addEntry line => discard (Console.Dialog.addEntry line)
  | .clearTable name => discard (Console.Dialog.clearTable name)
  | _ => pure ()

inductive Op where
  | command (text : String)
  | change (table : String)
  | clear
  | packet (bytes : List UInt8)

def State.talk (s : State) (site : Site) (d : Console.Dialog Unit) : Console.Turn × State :=
  let (turn, t) := s.terminal.turn site.peer do
    d
    return .null
  (turn, { s with terminal := t })

/-! The tables that were changed are cleared together, and are forgotten only if all of them were. -/

def State.change (s : State) (table : String) : State := { s with changed := s.changed ++ [table] }

def State.clearing (s : State) : List SwitchCall := s.changed.map .clearTable

def State.cleared (s : State) : State := { s with changed := [] }

def send (site : Site) (bytes : List UInt8) (s : State) : Except Fault (List Trace) × State :=
  if s.interfaces = 0 then (.error (.missing (.int 0)), s)
  else if s.closed then (.error .malformed, s)
  else
    let pipe := Capture.fileName site.used 0 "in"
    let s := { s with files := s.files.alter pipe [] (· ++ Capture.packet bytes), closed := true }
    match Trace.scan {} s.output with
    | .ok (seen, rest) => (.ok seen, { s with output := rest })
    | .error f => (.error f, s)

/-- What comes of an operation: the path of a packet if one was sent, what the console has printed
and asked. -/
structure Answer where
  result : Except Console.Complaint (Option (List Trace))
  out : String := ""
  requests : List Console.Request := []

def Answer.ofTurn (t : Console.Turn) : Answer :=
  ⟨t.result.map fun _ => none, t.out, t.requests⟩

def use (site : Site) (s : State) : Op → Answer × State
  | .command text =>
    let (t, s) := s.talk site do dialog (← Console.Dialog.part (SwitchCall.ofText text))
    (.ofTurn t, s)
  | .change table => (⟨.ok none, "", []⟩, s.change table)
  | .clear =>
    let (t, s) := s.talk site (s.clearing.forM dialog)
    match t.result with
    | .ok _ => (.ofTurn t, s.cleared)
    | .error _ => (.ofTurn t, s)
  | .packet bytes =>
    let (r, s) := send site bytes s
    match r with
    | .ok seen => (⟨.ok (some seen), "", []⟩, s)
    | .error f => (⟨.error (.fault f), "", []⟩, s)

def useAll (site : Site) : State → List Op → List Answer × State
  | s, [] => ([], s)
  | s, op :: rest =>
    let (a, s) := use site s op
    let (as, s) := useAll site s rest
    (a :: as, s)

/-! ## End -/

def filesIn (folder : String) (files : Dict String (List UInt8)) : List (String × List UInt8) :=
  let start := folder ++ "/"
  let inside := files.entries.filterMap fun (path, bytes) =>
    if Text.startsWith path start then
      let name := String.ofList (path.toList.drop start.length)
      if name.toList.contains '/' then none else some (name, bytes)
    else none
  inside.mergeSort fun a b => a.1 ≤ b.1

def removeFile (file : String) (s : State) : State :=
  if s.files.contains file then
    { s with files := s.files.erase file, events := .remove file :: s.events }
  else s

def finish (site : Site) (s : State) : State :=
  let s := if s.started then { s with events := .kill (filesIn site.used s.files) :: s.events } else s
  (List.range s.interfaces).foldl (fun s (i : Nat) =>
    removeFile (Capture.fileName site.used i "out") (removeFile (Capture.fileName site.used i "in") s)) s

def run (site : Site) (s : State) (ops : List Op) : List Answer × Except Fault Unit × State :=
  match (ExceptT.run (start site)).run s with
  | (.error f, s) => ([], .error f, finish site s)
  | (.ok _, s) =>
    let (answers, s) := useAll site s ops
    (answers, .ok (), finish site s)

def folders (path : String) : List String :=
  let parts := path.splitOn "/"
  (List.range (parts.length - 1)).map fun n => "/".intercalate (parts.take (n + 1))

def left (site : Site) (before after : State) : List String :=
  let given := site.folder.toList.flatMap fun f => folders f ++ [f]
  let all := site.file :: after.files.keys ++ before.files.keys.flatMap folders ++ given
  all.eraseDups.mergeSort (· ≤ ·)

end Session

end PacketSmith
