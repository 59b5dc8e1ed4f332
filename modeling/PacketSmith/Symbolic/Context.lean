import PacketSmith.Program.Basic
import PacketSmith.Symbolic.Packet

/-!
# The symbolic state of a program

*Fields.* A field that was not set reads as a new variable, and the read is recorded. Options change that: metadata
may be part of the input, and a field that was not set may read as zero. A field of a header that was taken away has
no value.

*Writes.* A write to a field of a header that is known to be invalid is recorded, or has no effect if the options
allow it.

*Tally.* The number of elements that were extracted into a stack and the lengths of extractions that vary are counted
once for a parser path. All contexts of a control path share them.

A step may fail half-way, and what it did before stays. `Symbolic` is therefore a failure over a state and not the
other way round.
-/

namespace PacketSmith

variable (o : Options)

abbrev FieldRef := Label × Label

structure FieldInfo where
  size : Option Int
  metadata : Bool

abbrev Access := FieldRef × Option SourceInfo

structure Context where
  values : Dict FieldRef (Option Bits) := {}
  fields : Dict FieldRef FieldInfo := {}
  uninitializedReads : List Access := []
  invalidWrites : List Access := []
  inputMetadata : Dict FieldRef Bits := {}
  source : Option SourceInfo := none
  tableKeys : Dict Label (List (Option Bits)) := {}
  tableData : Dict Label (List Bits) := {}
  tableActions : Dict Label Label := {}
  currentTable : Label := .null
  displacements : List (Variable × Nat) := []

structure Tally where
  stackCounts : Dict Label Nat := {}
  lengths : Dict FieldRef Bits := {}

structure SymbolicState where
  context : Context := {}
  tally : Tally := {}
  fresh : Nat := 0
  packet : Packet := {}

abbrev Symbolic := ExceptT Fault (StateM SymbolicState)

namespace Symbolic

def lift {α : Type} (e : Except Fault α) : Symbolic α :=
  match e with
  | .ok a => pure a
  | .error f => throw f

def modifyContext (f : Context → Context) : Symbolic Unit :=
  modify fun s => { s with context := f s.context }

def context : Symbolic Context := do return (← get).context

end Symbolic

namespace Context

variable (c : Context)

def valid : Label := .text "$valid$"

def elementName (stack : Label) (i : Int) : Label := .text (stack.display ++ "[" ++ toString i ++ "]")

def freshName (ref : FieldRef) (n : Nat) : Variable :=
  .numbered ("(" ++ ref.1.inner ++ ", " ++ ref.2.inner ++ ")") n

def parameterName (table action param : Label) : String :=
  "$" ++ table.display ++ "$.$" ++ action.display ++ "$.runtime_data_" ++ param.display

def put (ref : FieldRef) (v : Option Bits) : Context :=
  { c with values := c.values.insert ref v }

def validityIs (header : Label) (b : Bool) : Except Fault Bool :=
  match c.values.get? (header, valid) with
  | some (some v) => v.isBit b
  | some none => .error .sortMismatch
  | none => .ok false

def write (ref : FieldRef) (v : Option Bits) (c : Context) : Except Fault Context := do
  if ref.2 ≠ valid && (← c.validityIs ref.1 false) then
    if o.allowInvalidHeaderWrites then return c
    else return { c with invalidWrites := c.invalidWrites ++ [(ref, c.source)] }.put ref v
  else return c.put ref v

def fieldsOf (header : Label) : List FieldRef :=
  c.values.keys.filter fun ref => ref.1 == header && ref.2 != valid

def clear (header : Label) : Context :=
  (c.fieldsOf header).foldl (fun c ref => c.put ref none) c

def addParameters (table action : Label) (params : List (Label × Int)) (c : Context) : Except Fault Unit × Context :=
  if c.tableData.contains table then (.error .violated, c) else go 0 [] params c
where
  go (i : Nat) (made : List Bits) : List (Label × Int) → Context → Except Fault Unit × Context
    | [], c => (.ok (), { c with tableData := c.tableData.insert table made })
    | (name, width) :: rest, c =>
      match newVariable o.randomize (parameterName table action name) (some width) with
      | .error f => (.error f, c)
      | .ok (v, shifts) =>
        let c := { c with displacements := c.displacements ++ shifts }
        let ref : FieldRef :=
          (.text (table.display ++ "." ++ action.display ++ "." ++ name.display), .text (toString i))
        match c.write o ref (some v) with
        | .error f => (.error f, c)
        | .ok c => go (i + 1) (made ++ [v]) rest c

def parameter (table : Label) (i : Int) : Except Fault Bits :=
  match c.tableData.get? table with
  | none => .error (.missing table)
  | some made =>
    let j := if i < 0 then i + made.length else i
    if j < 0 then .error .outOfRange
    else match made[j.toNat]? with
      | some v => .ok v
      | none => .error .outOfRange

def currentParameter (i : Int) : Except Fault Bits := do
  require (c.currentTable ≠ .null)
  c.parameter c.currentTable i

def setAction (table action : Label) : Except Fault Context :=
  match c.tableActions.get? table with
  | some a => if a = action then .ok c else .error .violated
  | none => .ok { c with tableActions := c.tableActions.insert table action }

def declare (ref : FieldRef) (info : FieldInfo) : Context :=
  { c with fields := c.fields.insert ref info }

end Context

namespace Symbolic

open Context

def write (ref : FieldRef) (v : Option Bits) : Symbolic Unit := do
  let c ← lift ((← context).write o ref v)
  modifyContext fun _ => c

def setValid (header : Label) (b : Bool := true) : Symbolic Unit :=
  write o (header, valid) (some (Bits.ofInt b.toNat 1))

def nextFresh : Symbolic Nat := do
  modify fun s => { s with fresh := s.fresh + 1 }
  return (← get).fresh

def newVariable (name : Variable) (size : Option Int) : Symbolic Bits := do
  let (v, shifts) ← lift (PacketSmith.newVariable o.randomize name size)
  modifyContext fun c => { c with displacements := c.displacements ++ shifts }
  return v

def read (ref : FieldRef) : Symbolic (Option Bits) := do
  match (← context).values.get? ref with
  | some v => return v
  | none =>
    let some info := (← context).fields.get? ref | throw .missingPair
    let v ← newVariable o (freshName ref (← nextFresh)) info.size
    if info.metadata && o.solveForMetadata then
      write o ref (some v)
      modifyContext fun c => { c with inputMetadata := c.inputMetadata.insert ref v }
      match (← context).values.get? ref with
      | some v => return v
      | none => throw .violated
    else if o.allowUninitializedReads then
      return some (← lift (Bits.constant 0 info.size))
    else
      modifyContext fun c =>
        { c with uninitializedReads := c.uninitializedReads ++ [(ref, c.source)] }
      return some v

def lastValid (stack : Label) : Nat → Context → Except Fault (Option Nat)
  | 0, _ => .ok none
  | i + 1, c =>
    match c.values.get? (elementName stack i, valid) with
    | none => .error .missingPair
    | some none => .error .sortMismatch
    | some (some v) => do if ← v.isBit true then return some i else lastValid stack i c

def lastElement (stack : Label) (size : Int) : Symbolic Label := do
  match ← lift (lastValid stack size.toNat (← context)) with
  | some i => return elementName stack i
  | none => return .text (stack.display ++ "[None]")

def readLast (stack field : Label) (size : Int) : Symbolic (Option Bits) := do
  read o (← lastElement stack size, field)

def clear (header : Label) : Symbolic Unit :=
  modify fun s => { s with
    fresh := s.fresh + (s.context.fieldsOf header).length
    context := s.context.clear header }

def stackCount (stack : Label) : Symbolic Nat := do
  return (← get).tally.stackCounts.getD stack 0

def nextElement (stack : Label) : Symbolic Label := do
  let n ← stackCount stack
  modify fun s => { s with tally.stackCounts := s.tally.stackCounts.insert stack (n + 1) }
  return elementName stack n

def recordLength (ref : FieldRef) (length : Bits) : Symbolic Unit := do
  require (!(← get).tally.lengths.contains ref)
  modify fun s => { s with tally.lengths := s.tally.lengths.insert ref length }

def addParameters (table action : Label) (params : List (Label × Int)) : Symbolic Unit := do
  let (r, c) := (← context).addParameters o table action params
  modifyContext fun _ => c
  lift r

def setAction (table action : Label) : Symbolic Unit := do
  let c ← lift ((← context).setAction table action)
  modifyContext fun _ => c

def setKeys (table : Label) (keys : List (Option Bits)) : Symbolic Unit :=
  modifyContext fun c => { c with tableKeys := c.tableKeys.insert table keys }

def setSource (source : Option SourceInfo) : Symbolic Unit :=
  modifyContext fun c => { c with source := source }

def extract (size : Option Int) (length : Option Bits) (label : Option String) : Symbolic Bits := do
  let (v, p) ← lift ((← get).packet.extract o size length label)
  modify fun s => { s with packet := p }
  return v

def setMaxLength (length : Bits) : Symbolic Unit :=
  modify fun s => { s with packet.maxLength := some length }

end Symbolic

/-! ## The start of a path -/

namespace Program

def errorBits (p : Program) (error : Label) : Except Fault Bits :=
  match p.errors.byName.get? error with
  | some n => .ok (Bits.ofInt n 32)
  | none => .error (.missing error)

def startContext (p : Program) (o : Options) : Except Fault Context := do
  let zero := Bits.ofInt 0 1
  let c ← p.headers.values.foldlM (fun c h =>
    h.fields.values.foldlM (fun c f =>
      if f.name == "$valid$" then c.write o (.text h.name, .text f.name) (some zero)
      else .ok (c.declare (.text h.name, .text f.name) ⟨f.size, h.metadata⟩)) c) ({} : Context)
  let c ← p.headerStacks.entries.foldlM (fun c (name, s) =>
    (List.range s.size.toNat).foldlM (fun c (i : Nat) =>
      c.write o (Context.elementName name i, Context.valid) (some zero)) c) c
  let standard : List (String × Bits) := [
    ("ingress_port", ⟨9, .var "$ingress_port$" 9⟩),
    ("packet_length", Packet.size),
    ("instance_type", ⟨32, .var "$instance_type$" 32⟩),
    ("egress_spec", Bits.ofInt 0 9)]
  let c ← standard.foldlM (fun c (name, v) =>
    c.write o (.text "standard_metadata", .text name) (some v)) c
  c.write o (.text "standard_metadata", .text "parser_error") (some (← p.errorBits (.text "NoError")))

end Program

end PacketSmith
