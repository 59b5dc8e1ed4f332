import PacketSmith.Graph.Basic

/-!
# Topological order

Nodes that no edge enters wait on a stack. The node on top is placed next, and the edges that leave it are no longer
counted. A node whose count falls to zero goes on top. If no node is left to be placed, and not all are, there is
a cycle. The order is checked against the edges once more.
-/

namespace PacketSmith.Graph

variable {V L : Type} [DecidableEq V]

structure Sorting (V : Type) where
  counts : Dict V Nat
  ready : List V
  placed : List V

namespace Sorting

def release (s : Sorting V) (v : V) : Except (Failure V) (Sorting V) :=
  match s.counts.get? v with
  | none => .error (.absent v)
  | some 0 => .error .broken
  | some (n + 1) => .ok { s with
      counts := s.counts.insert v n
      ready := if n = 0 then v :: s.ready else s.ready }

def run (g : Graph V L) : Nat → Sorting V → Except (Failure V) (Sorting V)
  | 0, s => .ok s
  | fuel + 1, s =>
    match s.ready with
    | [] => .ok s
    | u :: rest => do
      let leaving ← g.edgesFrom u
      let s ← leaving.foldlM (fun s e => s.release e.dst) { s with ready := rest, placed := u :: s.placed }
      run g fuel s

def start (g : Graph V L) : Sorting V where
  counts := g.into.map List.length
  ready := g.sources.reverse
  placed := []

end Sorting

/-- How many nodes were placed after a node. -/
def placedAfter (placed : List V) (v : V) : Except (Failure V) Nat :=
  if v ∈ placed then .ok (placed.idxOf v) else .error (.absent v)

def checkOrder (g : Graph V L) (placed : List V) : Except (Failure V) Unit :=
  g.nodes.forM fun u => do
    let n ← placedAfter placed u
    (← g.edgesFrom u).forM fun e => do
      if (← placedAfter placed e.dst) < n then pure () else throw .broken

def topologicalOrder (g : Graph V L) : Except (Failure V) (List V) := do
  let s ← Sorting.run g g.nodes.length (.start g)
  if s.placed.length < g.nodes.length then throw .cyclic
  if !s.ready.isEmpty then throw .broken
  g.checkOrder s.placed
  return s.placed.reverse

end PacketSmith.Graph
