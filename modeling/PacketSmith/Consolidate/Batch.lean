import PacketSmith.SolutionStream

/-!
# Paths that share table entries

Solutions of several paths are solved together, so that one set of table entries serves all of them. Each path has
variables of its own.
-/

namespace PacketSmith

variable (p : BatchPath)

structure BatchPath where
  solution : Solution
  mark : String

structure SharedEntry where
  key : List Bits
  params : List Bits

abbrev SharedEntries := Dict Label (Dict Label SharedEntry)

structure Batch where
  paths : List BatchPath := []
  formulas : List (List Formula) := []
  frames : List (List Formula) := [[]]
  entries : SharedEntries := {}
  pending : SharedEntries := {}
  displacements : List (Variable × Nat) := []

namespace BatchPath

def variableName (name : Variable) (_ : Nat) : Variable := p.mark ++ name.display

def bits (b : Bits) : Bits := b.rename p.variableName

def constraints : List Formula :=
  p.solution.constraints.flatten.map (Term.rename p.variableName)

def view (ρ : Assignment) : Assignment := fun name w => ρ (p.variableName name w) w

def ofSolution (s : Solution) : BatchPath := ⟨s, "path" ++ toString s.path.id ++ "/"⟩

def tables : Except Fault (List (Label × Label × SharedEntry)) := do
  let c := p.solution.context
  require (c.tableKeys.keys.all c.tableData.contains && c.tableData.keys.all c.tableKeys.contains)
  c.tableKeys.entries.mapM fun (table, keys) => do
    let key ← keys.mapM fun
      | some b => .ok (p.bits b)
      | none => .error .violated
    let params := (c.tableData.getD table []).map p.bits
    match c.tableActions.get? table with
    | some action => return (table, action, ⟨key, params⟩)
    | none => throw (.missing table)

end BatchPath

namespace Batch

variable (b : Batch)

/-! ## Frames -/

def push : Batch :=
  { b with paths := b.paths ++ [p], formulas := b.formulas ++ [[]], frames := [] :: b.frames }

def pop : Batch :=
  { b with paths := b.paths.dropLast, formulas := b.formulas.dropLast, frames := b.frames.tail }

def assert (fs : List Formula) (b : Batch) : Batch :=
  { b with
    formulas := b.formulas.dropLast ++ [b.formulas.getLast?.getD [] ++ fs]
    frames := match b.frames with
      | [] => [fs]
      | frame :: rest => (frame ++ fs) :: rest }

def asserted : List Formula := b.frames.reverse.flatten

def assertAnew : Batch := { b with frames := [b.formulas.flatten] }

/-! ## Entries -/

def sameWidths (as bs : List Bits) : Bool := as.map Bits.width == bs.map Bits.width

def equation (a b : Bits) : Formula :=
  if h : b.width = a.width then .rel .eq a.term (h ▸ b.term) else .truth false

def different (a b : List Bits) : Formula :=
  Term.any ((a.zip b).map fun (x, y) => .not (equation x y))

def newVariables (o : Options) (name : String) (like : List Bits) :
    Except Fault (List Bits × List (Variable × Nat)) := do
  let made ← like.zipIdx.mapM fun (b, i) =>
    newVariable o.randomize (.plain (name ++ toString i)) (some (b.width : Int))
  return (made.map Prod.fst, (made.map Prod.snd).flatten)

def entryName (table action : Label) : String :=
  "consolidated_$" ++ table.display ++ "$.$" ++ action.display ++ "$."

def entryFor (o : Options) (table action : Label) (like : SharedEntry) (b : Batch) :
    Except Fault (SharedEntry × List Formula × Batch) := do
  let others := b.entries.getD table {}
  match others.get? action with
  | some e =>
    require (sameWidths e.key like.key)
    require (sameWidths e.params like.params)
    return (e, [], b)
  | none =>
    require (others.values.all fun e => sameWidths e.key like.key)
    let (key, shifts) ← newVariables o (entryName table action ++ "key_") like.key
    let (params, shifts') ← newVariables o (entryName table action ++ "param_") like.params
    let e : SharedEntry := ⟨key, params⟩
    let new := b.pending.getD table {}
    require (!new.contains action)
    let b := { b with
      pending := b.pending.insert table (new.insert action e)
      displacements := b.displacements ++ shifts ++ shifts' }
    return (e, others.values.map fun other => different key other.key, b)

def tie (o : Options) : List (Label × Label × SharedEntry) → Batch →
    Except Fault (List Formula × Batch)
  | [], b => .ok ([], b)
  | (table, action, like) :: rest, b => do
    let (e, needed, b) ← b.entryFor o table action like
    let equal := ((e.key.zip like.key) ++ (e.params.zip like.params)).map fun (x, y) => equation x y
    let (more, b) ← tie o rest b
    return (needed ++ equal ++ more, b)

def commitEntry (known : Dict Label SharedEntry) (new : Label × SharedEntry) :
    Except Fault (Dict Label SharedEntry) := do
  require (!known.contains new.1)
  return known.insert new.1 new.2

def commitTable (entries : SharedEntries) (new : Label × Dict Label SharedEntry) :
    Except Fault SharedEntries := do
  return entries.insert new.1 (← new.2.entries.foldlM commitEntry (entries.getD new.1 {}))

def commit : Except Fault Batch := do
  return { b with entries := ← b.pending.entries.foldlM commitTable b.entries, pending := {} }

/-! ## Solving -/

def check (engine : Engine) (b : Batch) : Run Answer := do
  Run.countCall
  return engine.solver b.asserted

def attempt (engine : Engine) (p : BatchPath) (tables : List (Label × Label × SharedEntry)) (b : Batch) :
    Run (Bool × Batch) := do
  let (tied, b) ← tie engine.options tables b
  let b := b.assert (p.constraints ++ tied)
  return ((← b.check engine).isSat, b)

/-! ## Writing -/

def commands (engine : Engine) (b : Batch) (ρ : Assignment) : Except Fault (List TableCommand) := do
  let all ← b.entries.entries.mapM fun (name, actions) => do
    let some t := engine.setting.pipeline.tables.get? name | throw (.missing name)
    let (default, _) ← t.defaultAction
    actions.entries.mapM fun (action, e) => do
      let params := e.params.map fun p => (Json.str p.display, TestCase.entryValue ρ p)
      let config ← t.entryConfig action (action == default) (e.key.map (TestCase.entryValue ρ)) params
      return config.map (TableCommand.ofConfig t)
  return all.flatten.filterMap id

def testCase (engine : Engine) (commands : List TableCommand) (ρ : Assignment) (p : BatchPath) :
    Except Fault TestCase := do
  let s := p.solution
  let t ← TestCase.assemble engine.options s.packet s.path s.context.inputMetadata
    s.context.uninitializedReads s.context.invalidWrites commands (p.view ρ)
  require (t.outcome.givesTestCase s.path.complete)
  return t

def writeAll (engine : Engine) (commands : List TableCommand) (ρ : Assignment) :
    List BatchPath → Run Unit
  | [] => pure ()
  | p :: rest => do
    if some ((← get).statistics.testCases : Int) = engine.options.numTestCases then pure ()
    else
      Run.addCase (← testCase engine commands ρ p)
      writeAll engine commands ρ rest

def isFull (engine : Engine) : Run Bool := do
  return some ((← get).statistics.testCases : Int) = engine.options.numTestCases

def fixDraws (engine : Engine) (b : Batch) : Run Batch := do
  let b := if engine.options.randomize then b.assertAnew else b
  return b.assert (PathSolver.fixed (← Run.takeDraws engine b.displacements.length) b.displacements)

def flush (engine : Engine) (b : Batch) : Run Batch := do
  if b.paths.isEmpty then return b
  else
    let b ← b.fixDraws engine
    match ← b.check engine with
    | .sat ρ =>
      if ← isFull engine then pure ()
      else writeAll engine (← b.commands engine ρ) ρ b.paths
      return {}
    | _ => throw .violated

def flushFull (engine : Engine) (b : Batch) : Run Batch :=
  if engine.options.consolidateTables = some (b.paths.length : Int) then b.flush engine else pure b

def place (engine : Engine) (p : BatchPath) (tables : List (Label × Label × SharedEntry)) (b : Batch) :
    Run Batch := do
  match ← (b.push p).attempt engine p tables with
  | (true, tried) => return tried
  | (false, tried) =>
    let _ ← tried.pop.flush engine
    let (fits, alone) ← (({} : Batch).push p).attempt engine p tables
    require fits
    return alone

def add (engine : Engine) (s : Solution) (b : Batch) : Run Batch := do
  let p := BatchPath.ofSolution s
  let tables ← p.tables
  let b ← b.flushFull engine
  (← b.place engine p tables).commit

def start (engine : Engine) : Except Fault Batch := do
  require (engine.options.maxTestCasesPerPath = some 1)
  engine.setting.pipeline.tables.values.forM fun t => do
    require (← t.hasConstDefault)
      (.refuted "Tables with non-const defaults are not currently supported")
  return {}

end Batch

end PacketSmith
