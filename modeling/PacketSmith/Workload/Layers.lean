import PacketSmith.Graph.Ancestor
import PacketSmith.Graph.Count
import PacketSmith.Graph.Fault
import PacketSmith.Graph.Order
import PacketSmith.Graph.Walk

/-!
# Workloads on layered graphs

Each node of a layer has an edge to each node of the next one, so a graph of `n` layers of three nodes has `3 ^ n`
paths, and every path passes the first node of the tail.
-/

namespace PacketSmith

namespace LayeredGraph

def width : Nat := 3

def source : Label := "src"

def meeting : Label := "mid"

def tail : Label := "tail"

def node (layer i : Nat) : Label := .text s!"n{layer}_{i}"

def layer (l : Nat) : List Label := (List.range width).map (node l)

def levels (n : Nat) : List (List Label) :=
  [source] :: (List.range n).map layer ++ [[meeting], [tail], [.null]]

def edgesOf : List (List Label) → List (Edge Label Unit)
  | a :: b :: rest => a.flatMap (fun u => b.map fun v => ⟨u, v, ()⟩) ++ edgesOf (b :: rest)
  | _ => []

def graph (n : Nat) : Graph Label Unit := (edgesOf (levels n)).foldl Graph.addEdge .empty

def visitor : Visitor Id Label Unit (List (Edge Label Unit)) where
  order _ edges := edges
  visit path complete := (.proceed, if complete then some path else none)
  backtrack := ()

def paths (n : Nat) : List (List (Edge Label Unit)) :=
  let g := graph n
  let bound := Nat.pow (width + 1) (n + 3)
  Id.run do
    Walk.collect g .null visitor bound bound (← Walk.start visitor (g.outEdges source))

end LayeredGraph

structure GraphSurvey where
  graph : Graph Label Unit
  order : List Label
  counted : Nat × Nat × Nat
  reached : Dict Label Label × List Label
  reaching : Dict Label Label × List Label
  /-- The lowest common ancestors of the first node of the last layer, of the tail, and of the node
  before it. -/
  ancestors : List Label
  paths : List (List (Edge Label Unit))

namespace GraphSurvey

open LayeredGraph

def of (n : Nat) : Except Fault GraphSurvey := do
  let g := LayeredGraph.graph n
  return {
    graph := g
    order := ← Graph.named g.topologicalOrder
    counted := ← Graph.named (g.countPaths (· == .null) source)
    reached := ← Graph.named (g.search source false)
    reaching := ← Graph.named (g.search tail true)
    ancestors := ← [node (n - 1) 0, tail, meeting].mapM fun v => Graph.named (g.ancestor v)
    paths := LayeredGraph.paths n }

end GraphSurvey

namespace Workload

def layersOf (i : Nat) : Nat := 3 + i % 4

def graphs (n : Int) : Except Fault (List GraphSurvey) :=
  (List.range n.toNat).mapM fun i => GraphSurvey.of (layersOf i)

end Workload

end PacketSmith
