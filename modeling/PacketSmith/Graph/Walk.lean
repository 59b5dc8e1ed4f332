import PacketSmith.Graph.Basic

/-!
# Walks over all paths

A walk lists the paths of a graph from a node, for a visitor that decides at each path whether to go on from it. The
paths that wait form a stack.
-/

namespace PacketSmith

inductive Verdict where
  | proceed
  | retreat
  | stop
deriving DecidableEq

structure Visitor (m : Type → Type) (V L δ : Type) where
  order : List (Edge V L) → List (Edge V L) → m (List (Edge V L))
  visit : List (Edge V L) → Bool → m (Verdict × Option δ)
  backtrack : m Unit

structure Walk (V L : Type) where
  pending : List (List (Edge V L))
  depth : Nat := 0
  ended : Bool := false
deriving Inhabited

namespace Walk

variable {m : Type → Type} [Monad m] {V L δ : Type} [DecidableEq V]

def start (visitor : Visitor m V L δ) (leaving : List (Edge V L)) : m (Walk V L) := do
  let first ← visitor.order [] leaving
  return { pending := (first.map fun e => [e]).reverse }

def undo (visitor : Visitor m V L δ) : Nat → m Unit
  | 0 => pure ()
  | n + 1 => do
    visitor.backtrack
    undo visitor n

def finish (visitor : Visitor m V L δ) (w : Walk V L) : m (Walk V L) := do
  undo visitor w.depth
  return { pending := [], depth := 0, ended := true }

def step (g : Graph V L) (goal : V) (visitor : Visitor m V L δ)
    (path : List (Edge V L)) (rest : List (List (Edge V L))) (depth : Nat) :
    m (Option δ × Verdict × Walk V L) := do
  let last := path.getLast?.map Edge.dst
  let complete := decide (last = some goal)
  undo visitor (depth + 1 - path.length)
  let (verdict, datum) ← visitor.visit path complete
  let w : Walk V L := { pending := rest, depth := path.length }
  if verdict = .proceed ∧ !complete then
    let leaving := (last.map g.outEdges).getD []
    let next ← visitor.order path leaving
    return (datum, verdict, { w with pending := (next.map fun e => path ++ [e]).reverse ++ rest })
  else return (datum, verdict, w)

def move (g : Graph V L) (goal : V) (visitor : Visitor m V L δ) (w : Walk V L) :
    m (Option δ × Walk V L) :=
  match w.pending with
  | [] => do if w.ended then return (none, w) else return (none, ← finish visitor w)
  | path :: rest => do
    let (datum, verdict, w) ← step g goal visitor path rest w.depth
    return (datum, if verdict = .stop then { w with pending := [] } else w)

def advance (g : Graph V L) (goal : V) (visitor : Visitor m V L δ) :
    Nat → Walk V L → m (Option δ × Walk V L)
  | 0, w => return (none, w)
  | fuel + 1, w => do
    match ← move g goal visitor w with
    | (some d, w) => return (some d, w)
    | (none, w) => if w.ended then return (none, w) else advance g goal visitor fuel w

def collect (g : Graph V L) (goal : V) (visitor : Visitor m V L δ) (fuel : Nat) :
    Nat → Walk V L → m (List δ)
  | 0, _ => return []
  | n + 1, w => do
    match ← advance g goal visitor fuel w with
    | (none, _) => return []
    | (some d, w) => return d :: (← collect g goal visitor fuel n w)

end Walk

end PacketSmith
