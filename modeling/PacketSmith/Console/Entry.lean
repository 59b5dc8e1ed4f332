import PacketSmith.Console.Dialog

/-!
# Entries of tables

The fields of a key are written by the way they are matched: a value, a prefix with its length after a slash, a value
and a mask around `&&&`, a truth value as a number, or two values around `->`.
-/

namespace PacketSmith.Console

def parameterBytes (complain : String → Complaint) (s : String) (width : Json) :
    Except Complaint (List UInt8) :=
  match parameter s width with
  | .ok ns => (pack ns).mapError .fault
  | .error (.parameter text) => .error (complain ("Error while parsing " ++ s ++ " - " ++ text))
  | .error c => .error c

def ActionInfo.data (a : ActionInfo) (params : List String) : Except Complaint (List (List UInt8)) :=
  (params.zip (a.params.map Prod.snd)).mapM fun (s, width) => parameterBytes .runtimeData s width

def halves (divider complaint s : String) : Except Complaint (String × String) :=
  match Text.split divider s with
  | [a, b] => .ok (a, b)
  | _ => .error (.matchKey complaint)

def bytesLt : List UInt8 → List UInt8 → Bool
  | _, [] => false
  | [], _ :: _ => true
  | a :: as, b :: bs => if a = b then bytesLt as bs else a < b

def plainInt (s : String) : Except Complaint Int :=
  match Text.int? s with
  | some n => .ok n
  | none => .error (.fault .malformed)

def wholeNumber : Json → Except Fault Int
  | .str s => (Text.int? s).elim (.error .malformed) .ok
  | v => v.toInt

def integerArgument (v : Json) (noun : String) : Except Complaint Int :=
  (wholeNumber v).mapError fun _ => .input ("Bad format for " ++ noun ++ ", expected integer")

def KeyInfo.value (k : KeyInfo) (s : String) : Except Complaint KeyValue := do
  let bytes (s : String) : Except Complaint (List UInt8) := parameterBytes .matchKey s k.width
  match k.kind with
  | .exact => return .exact (← bytes s)
  | .longest =>
    let (start, length) ← halves "/" ("Invalid LPM value " ++ s ++
      ", use '/' to separate prefix and length") s
    return .longest (← bytes start) (← plainInt length)
  | .ternary =>
    let (key, mask) ← halves "&&&" ("Invalid ternary value " ++ s ++
      ", use '&&&' to separate key and mask") s
    let key ← bytes key
    let mask ← bytes mask
    if mask.length ≠ key.length then
      throw (.matchKey ("Key and mask have different lengths in expression " ++ s))
    return .ternary key mask
  | .valid => return .valid ((← plainInt s) != 0)
  | .range =>
    let (first, last) ← halves "->" ("Invalid range value " ++ s ++
      ", use '->' to separate range start and range end") s
    let first ← bytes first
    let last ← bytes last
    if first.length ≠ last.length then
      throw (.matchKey ("start and end have different lengths in expression " ++ s))
    if bytesLt last first then
      throw (.matchKey ("start is less than end in expression " ++ s))
    return .range first last

def keyValues : List KeyInfo → List String → Except Complaint (List KeyValue)
  | _, [] => .ok []
  | [], _ :: _ => .error (.fault .outOfRange)
  | k :: ks, s :: rest => do
    let v ← k.value s
    return v :: (← keyValues ks rest)

namespace Dialog

def actionData (a : ActionInfo) (called : String) (params : List String) :
    Dialog (List (List UInt8)) := do
  if params.length ≠ a.params.length then
    refuse s!"Action {called} needs {a.params.length} parameters"
  told (a.data params)

def tableAction (t : TableInfo) (table action : String) : Dialog ActionInfo := do
  match (← catalog).actionAmong? t.actions action with
  | some a => return a
  | none => refuse s!"Table {table} has no action {action}"

def splitPriority (t : TableInfo) (args : List String) : Dialog (List String × Int) :=
  if t.kind.hasPriority then
    match args.getLast?.bind Text.int? with
    | some n => return (args.dropLast, n)
    | none => refuse "Table is ternary, but could not extract a valid priority from args"
  else return (args, 0)

def arrow (skipped : Nat) (args : List String) : Dialog Nat :=
  let rest := args.drop skipped
  if rest.isEmpty then throw (.fault .unset)
  else
    let before := (rest.takeWhile (· != "=>")).length
    return skipped + min before (rest.length - 1)

def sayUnder (heading text : String) : Dialog Unit :=
  say (Text.padRight 20 heading ++ " " ++ text)

def sayAction (action : String) (data : List (List UInt8)) : Dialog Unit := do
  sayUnder "action:" action
  sayUnder "runtime data:" ("\t".intercalate (data.map colonBytes))

end Dialog

end PacketSmith.Console
