import PacketSmith.Outcome
import PacketSmith.Program.Edge

/-!
# Statistics

What is counted during a run: test cases, calls of the solver, the lengths of paths,
how often each edge of the control graph lies on a path with a packet, and how many
paths have each outcome.
-/

namespace PacketSmith

structure Mean where
  sum : Nat := 0
  count : Nat := 0
deriving DecidableEq

namespace Mean

def record (m : Mean) (n : Nat) : Mean := ⟨m.sum + n, m.count + 1⟩

end Mean

def averageText (values : List Float) : Option String :=
  if values.isEmpty then none
  else some (Decimal.text (values.foldl (· + ·) 0 / Float.ofNat values.length))

/-- A line of the log of times: the outcome of a path, the number of test cases so far, and the
number of edges covered so far. -/
structure StatisticsRecord where
  outcome : Outcome
  testCases : Nat
  coveredEdges : Nat
deriving DecidableEq

structure Statistics where
  fullPathLength : Mean := {}
  unsatPathLength : Mean := {}
  unsatPaths : Nat := 0
  outcomes : Dict Outcome Nat := {}
  edges : Dict EdgeKey Nat := {}
  parserEdges : Dict EdgeKey Nat := {}
  visits : Nat := 0
  testCases : Nat := 0
  solverCalls : Nat := 0
  coveredEdges : Nat := 0
  log : List StatisticsRecord := []

namespace Statistics

variable (s : Statistics)

def countEdge (table : Dict EdgeKey Nat) (covered : Nat) (e : EdgeKey) : Dict EdgeKey Nat × Nat :=
  (table.alter e 0 (· + 1), if table.getD e 0 = 0 then covered + 1 else covered)

def countParserPath (path : ParserPath) : Statistics :=
  let (edges, covered) := (Edge.parserKeys path).foldl (fun (t, n) k => countEdge t n k)
    (s.parserEdges, s.coveredEdges)
  { s with parserEdges := edges, coveredEdges := covered }

def countFullPath (path : ParserPath) (control : ControlPath) : Statistics :=
  let (edges, covered) := control.foldl (fun (t, n) e => countEdge t n e.controlKey)
    (s.edges, s.coveredEdges)
  { s with
    fullPathLength := s.fullPathLength.record (path.length + control.length)
    edges := edges
    coveredEdges := covered }

def countUnsatPath (path : ParserPath) (control : ControlPath) : Statistics :=
  { s with
    unsatPathLength := s.unsatPathLength.record (path.length + control.length)
    unsatPaths := s.unsatPaths + 1 }

def countPath (path : ParserPath) (control : ControlPath) (complete : Bool) (o : Outcome) : Statistics :=
  let s := if o = .success && complete then s.countFullPath path control else s
  if o = .noPacketFound then s.countUnsatPath path control else s

def countOutcome (o : Outcome) : Statistics :=
  { s with outcomes := s.outcomes.alter o 0 (· + 1) }

def edgeReport (edges : List (String × Int)) (total : Int) : List String :=
  let counts := edges.foldl (fun (d : Dict Int Int) e => d.alter e.2 0 (· + 1)) {}
  let counts := counts.alter 0 0 (· + (total - edges.length))
  ["Number of times each of " ++ toString total ++
      " control path edges has occurred in a SUCCESS test case:"] ++
    edges.map (fun e => "    " ++ toString e.2 ++ " " ++ e.1) ++
    ["Number of control path edges covered N times:"] ++
    (counts.entries.mergeSort fun a b => a.1 ≤ b.1).map fun e =>
      "    " ++ toString e.2 ++ " edges occurred in " ++ toString e.1 ++ " SUCCESS test cases"

def summary : List String :=
  ["num_control_path_edges 0",
    "num_test_cases " ++ toString s.testCases,
    "num_solver_calls " ++ toString s.solverCalls,
    "num_covered_edges " ++ toString s.coveredEdges,
    "num_done 0"]

def outcomeLines : List String :=
  s.outcomes.entries.map fun e => e.1.display ++ ": " ++ toString e.2

end Statistics

end PacketSmith
