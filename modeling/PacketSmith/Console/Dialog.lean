import PacketSmith.Console.Catalog
import PacketSmith.Console.Exchange

/-!
# Dialogs

A command of the console is a dialog: it prints lines, asks the switch, reads and writes files, and ends with a value
or a complaint. Whatever it has done before a complaint stays done.
-/

namespace PacketSmith.Console

structure Peer where
  replicator : Replicator
  answer : List Request → Request → Answer
  shell : String → String

structure Terminal where
  catalog : Catalog := {}
  requests : List Request := []
  out : List String := []
  warnings : List String := []
  files : Dict String String := {}

abbrev Dialog := ReaderT Peer (ExceptT Complaint (StateM Terminal))

abbrev Handler := String → Dialog Reply

namespace Dialog

variable {α : Type}

def put (s : String) : Dialog Unit := modify fun t => { t with out := s :: t.out }

def say (s : String) : Dialog Unit := put (s ++ "\n")

def warn (s : String) : Dialog Unit := modify fun t => { t with warnings := (s ++ "\n") :: t.warnings }

def part (r : Except Fault α) : Dialog α :=
  match r with
  | .ok a => pure a
  | .error f => throw (.fault f)

def told (r : Except Complaint α) : Dialog α :=
  match r with
  | .ok a => pure a
  | .error c => throw c

def refuse (text : String) : Dialog α := throw (.input text)

def ask (r : Request) : Dialog Reply := do
  let before := (← get).requests
  modify fun t => { t with requests := r :: t.requests }
  match (← read).answer before r with
  | .value v => return v
  | .refusal o code => throw (.refused o code)

def request (name : String) (args : List Argument) : Dialog Reply := ask (.first name args)

def order (name : String) (args : List Argument) : Dialog Reply := do
  let _ ← request name args
  return .null

def catalog : Dialog Catalog := return (← get).catalog

/-! ## Arguments -/

def exactly (args : List String) (n : Nat) : Dialog Unit :=
  if args.length = n then pure ()
  else refuse s!"Wrong number of args, expected {n} but got {args.length}"

def atLeast (args : List String) (n : Nat) : Dialog Unit :=
  if args.length < n then refuse "Insufficient number of args" else pure ()

def argument (args : List String) (i : Nat) : Dialog String :=
  match args[i]? with
  | some s => pure s
  | none => throw (.fault .outOfRange)

def integer (s complaint : String) : Dialog Int :=
  match Text.int? s with
  | some n => pure n
  | none => refuse complaint

def handle (noun s : String) : Dialog Int := integer s ("Bad format for " ++ noun)

def resource (find : Catalog → String → Option α) (kind : ResourceKind) (name : String) : Dialog α := do
  match find (← catalog) name with
  | some a => return a
  | none => throw (.resource kind.noun name)

def table : String → Dialog TableInfo := resource Catalog.table? .table

def profile : String → Dialog ProfileInfo := resource Catalog.profile? .profile

/-! ## Complaints -/

def minded (m : Dialog α) : Dialog α := tryCatch m fun c =>
  match c with
  | .refused (.multicast _) _ => throw c
  | c =>
    match c.report with
    | .error f => throw (.fault f)
    | .ok text => do
      say text
      throw (.fault (.unsupported text))

def mindedMulticast (m : Dialog α) : Dialog α := do
  let engine := (← read).replicator
  tryCatch (minded m) fun c =>
    match c with
    | .refused (.multicast lags) code =>
      if engine = (if lags then .lags else .plain) then
        match Operation.codeName? code with
        | none => throw (.fault (.missing (.int code)))
        | some name => do
          say ("Invalid PRE operation (" ++ name ++ ")")
          throw (.fault (.unsupported name))
      else throw c
    | c => throw c

/-! ## Commands -/

def taking (n : Nat) (m : List String → Dialog Reply) : Handler := fun line => minded do
  let args := Text.words line
  exactly args n
  m args

def takingMore (n : Nat) (m : List String → Dialog Reply) : Handler := fun line => minded do
  let args := Text.words line
  atLeast args n
  m args

/-- A command on what its first argument names. -/
def on (find : String → Dialog α) (n : Nat) (m : α → List String → Dialog Reply) : Handler :=
  taking n fun args => do m (← find (← argument args 0)) args

def run (m : Dialog α) (p : Peer) (t : Terminal) : Except Complaint α × Terminal :=
  (ExceptT.run (ReaderT.run m p)).run t

end Dialog

/-! ## Turns -/

structure Turn where
  result : Except Complaint Reply
  out : String
  warnings : String
  requests : List Request

def Terminal.turn (t : Terminal) (p : Peer) (m : Dialog Reply) : Turn × Terminal :=
  let (r, after) := m.run p { t with out := [], warnings := [] }
  let made := after.requests.take (after.requests.length - t.requests.length)
  (⟨r, String.join after.out.reverse, String.join after.warnings.reverse, made.reverse⟩, after)

end PacketSmith.Console
