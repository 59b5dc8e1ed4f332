import PacketSmith.Graph.Search

/-!
# The node that all paths to a node share

`Graph.ancestor g v` is the last node before `v` that every path from the source to `v` goes through. If the edges
into `v` all leave one node, it is that node.
-/

namespace PacketSmith.Graph

variable {V L : Type} [DecidableEq V]

inductive Half (V : Type) where
  | whole (v : V)
  | entry (v : V)
  | exit (v : V)
deriving DecidableEq

def splitGraph (g : Graph V L) (v source : V) (reached : List V) : Graph (Half V) Unit :=
  let whole (u : V) : Bool := u = v || u = source
  let entry (u : V) : Half V := if whole u then .whole u else .entry u
  let exit (u : V) : Half V := if whole u then .whole u else .exit u
  let halves := reached.foldl (fun f u =>
    if whole u then f else f.addEdge ⟨entry u, exit u, ()⟩) (empty : Graph (Half V) Unit)
  reached.foldl (fun f u =>
    (g.inEdges u).foldl (fun f e =>
      if reached.contains e.src then f.addEdge ⟨exit u, entry e.src, ()⟩ else f) f) halves

def reversePath {W : Type} [DecidableEq W] (t : Tree W) (root : W) :
    Nat → W → Graph W Unit → Except (Failure W) (Graph W Unit)
  | 0, _, _ => .error .broken
  | fuel + 1, node, f =>
    match t.parents.get? node with
    | none => .error (.absent node)
    | some parent => do
      let f ← f.reverseEdge () parent node
      if parent = root then return f else reversePath t root fuel parent f

/-- The single node that separates `v` from the source in the split graph, if it exists, and the
source if two paths share no node. -/
def separator (f : Graph (Half V) Unit) (v source : V) : Except (Failure V) V :=
  let first := f.searchTree (.whole v) false
  if !first.has (.whole source) then .error .broken
  else
    match reversePath first (.whole v) first.parents.size (.whole source) f with
    | .error _ => .error .broken
    | .ok rest =>
      let second := rest.searchTree (.whole v) false
      if second.has (.whole source) then .ok source
      else
        let cut := second.parents.keys.flatMap fun u =>
          (f.outEdges u).filter fun e => !second.has e.dst
        match cut with
        | [⟨.entry x, .exit y, _⟩] => if x = y then .ok x else .error .broken
        | _ => .error .broken

def ancestor (g : Graph V L) (v : V) : Except (Failure V) V := do
  let entering ← g.edgesInto v
  match (entering.map Edge.src).eraseDups with
  | [] => return v
  | [u] => return u
  | _ =>
    let t := g.searchTree v true
    match t.ends with
    | [source] => separator (g.splitGraph v source t.parents.keys) v source
    | _ => throw .broken

end PacketSmith.Graph
