import PacketSmith.Dict

/-!
# Directed graphs

A graph keeps, for each node, the list of edges that leave it and the list of edges that enter it. Nodes come in the
order in which they were first mentioned, edges in the order in which they were added.
-/

namespace PacketSmith

structure Edge (V L : Type) where
  src : V
  dst : V
  label : L
deriving DecidableEq

instance {V L : Type} [Inhabited V] [Inhabited L] : Inhabited (Edge V L) :=
  ⟨⟨default, default, default⟩⟩

structure Graph (V L : Type) where
  out : Dict V (List (Edge V L)) := {}
  into : Dict V (List (Edge V L)) := {}

namespace Graph

inductive Failure (V : Type) where
  | absent (v : V)
  | broken
  | cyclic
  | endless
deriving DecidableEq

variable {V L : Type}

def empty : Graph V L := {}

instance : Inhabited (Graph V L) := ⟨empty⟩

def nodes (g : Graph V L) : List V := g.out.keys

def edges (g : Graph V L) : List (Edge V L) := g.out.values.flatten

def numEdges (g : Graph V L) : Nat := g.out.values.foldl (fun n es => n + es.length) 0

/-- A bound on the number of paths from a node, if no path comes back to where it was: no path is
longer than the number of nodes, and at each of its nodes there are at most as many ways to go on
as edges. -/
def walkBound (g : Graph V L) : Nat := Nat.pow (g.numEdges + 1) (g.nodes.length + 1)

variable [DecidableEq V]

def addNode (g : Graph V L) (v : V) : Graph V L where
  out := if g.out.contains v then g.out else g.out.insert v []
  into := if g.into.contains v then g.into else g.into.insert v []

def addEdge (g : Graph V L) (e : Edge V L) : Graph V L :=
  let g := (g.addNode e.src).addNode e.dst
  { out := g.out.alter e.src [] (· ++ [e])
    into := g.into.alter e.dst [] (· ++ [e]) }

def join (g : Graph V L) (src dst : V) (e : Edge V L) : Except (Failure V) (Graph V L) :=
  if e.src = src ∧ e.dst = dst then .ok (g.addEdge e) else .error .broken

def outEdges? (g : Graph V L) (v : V) : Option (List (Edge V L)) := g.out.get? v

def outEdges (g : Graph V L) (v : V) : List (Edge V L) := g.out.getD v []

def inEdges (g : Graph V L) (v : V) : List (Edge V L) := g.into.getD v []

def edgesFrom (g : Graph V L) (v : V) : Except (Failure V) (List (Edge V L)) :=
  match g.out.get? v with
  | some es => .ok es
  | none => .error (.absent v)

def edgesInto (g : Graph V L) (v : V) : Except (Failure V) (List (Edge V L)) :=
  match g.into.get? v with
  | some es => .ok es
  | none => .error (.absent v)

def sources (g : Graph V L) : List V := g.nodes.filter fun v => (g.inEdges v).isEmpty

def sinks (g : Graph V L) : List V := g.nodes.filter fun v => (g.outEdges v).isEmpty

/-- Turns the first edge from one node to another around. The turned edge is new and has the given
label. -/
def reverseEdge (g : Graph V L) (label : L) (src dst : V) : Except (Failure V) (Graph V L) := do
  let leaving ← g.edgesFrom src
  let entering ← g.edgesInto dst
  match leaving.findIdx? fun e => decide (e.dst = dst),
      entering.findIdx? fun e => decide (e.src = src) with
  | some i, some j =>
    let cut : Graph V L :=
      { out := g.out.insert src (leaving.eraseIdx i)
        into := g.into.insert dst (entering.eraseIdx j) }
    return cut.addEdge ⟨dst, src, label⟩
  | _, _ => throw .broken

end Graph

end PacketSmith
