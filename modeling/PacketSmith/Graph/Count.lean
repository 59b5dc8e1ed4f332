import PacketSmith.Graph.Basic

/-!
# Counting paths

The count of a node is the sum of the counts of the nodes that its edges enter, and is found once per node.
-/

namespace PacketSmith.Graph

variable {V L : Type} [DecidableEq V]

structure Counting (V : Type) where
  found : Dict V Nat := {}
  edges : Nat := 0

mutual

def countFrom (g : Graph V L) (isEnd : V → Bool) :
    Nat → V → Counting V → Except (Failure V) (Nat × Counting V)
  | 0, _, _ => .error .endless
  | depth + 1, v, c =>
    if isEnd v then .ok (1, c)
    else
      match c.found.get? v with
      | some n => .ok (n, c)
      | none => do
        let leaving ← g.edgesFrom v
        let (n, c) ← countAlong g isEnd depth leaving { c with edges := c.edges + leaving.length } 0
        return (n, { c with found := c.found.insert v n })
termination_by depth => (depth, 0)

def countAlong (g : Graph V L) (isEnd : V → Bool) :
    Nat → List (Edge V L) → Counting V → Nat → Except (Failure V) (Nat × Counting V)
  | _, [], c, total => .ok (total, c)
  | depth, e :: rest, c, total => do
    let (n, c) ← countFrom g isEnd depth e.dst c
    countAlong g isEnd depth rest c (total + n)
termination_by depth es => (depth, es.length + 1)

end

def countPaths (g : Graph V L) (isEnd : V → Bool) (v : V) :
    Except (Failure V) (Nat × Nat × Nat) := do
  let (n, c) ← countFrom g isEnd (g.nodes.length + 2) v {}
  return (n, c.found.size + 1, c.edges)

end PacketSmith.Graph
