import PacketSmith.Graph.Basic

/-!
# Depth-first search

The search from a node along edges, or against them. Its tree gives to each node that it reaches the node from which
it was reached, the start being its own parent.
-/

namespace PacketSmith.Graph

variable {V L : Type} [DecidableEq V]

structure Tree (V : Type) where
  parents : Dict V V := {}
  ends : List V := []

def Tree.has (t : Tree V) (v : V) : Bool := t.parents.contains v

def explore (next : V → List V) : Nat → List (V × V) → Tree V → Tree V
  | 0, _, t => t
  | _ + 1, [], t => t
  | fuel + 1, (u, parent) :: rest, t =>
    if t.has u then explore next fuel rest t
    else
      let beyond := next u
      explore next fuel (beyond.map (fun w => (w, u)) ++ rest)
        { parents := t.parents.insert u parent
          ends := if beyond.isEmpty then u :: t.ends else t.ends }

def neighbours (g : Graph V L) (backwards : Bool) (v : V) : List V :=
  if backwards then (g.inEdges v).map Edge.src else (g.outEdges v).map Edge.dst

def searchTree (g : Graph V L) (v : V) (backwards : Bool) : Tree V :=
  explore (g.neighbours backwards) (g.numEdges + 2) [(v, v)] {}

def search (g : Graph V L) (v : V) (backwards : Bool) :
    Except (Failure V) (Dict V V × List V) :=
  if g.out.contains v then
    let t := g.searchTree v backwards
    .ok (t.parents, t.ends.reverse)
  else .error (.absent v)

end PacketSmith.Graph
