import PacketSmith.Fault
import PacketSmith.Graph.Walk

/-!
# Faults of graphs

A graph whose nodes are named in a program fails as the program does: a node that it does
not have is a missing key.
-/

namespace PacketSmith.Graph

def Failure.fault : Failure Label → Fault
  | .absent v => .missing v
  | .broken | .cyclic => .violated
  | .endless => .endless

def named {α : Type} (r : Except (Failure Label) α) : Except Fault α := r.mapError Failure.fault

/-- What a visitor gives for the paths from a node to a goal. -/
def visitPaths {m : Type → Type} [Monad m] {L δ : Type} (g : Graph Label L) (src goal : Label)
    (visitor : Visitor m Label L δ) (fuel : Nat) : Except Fault (m (List δ)) := do
  if src = .null then throw (.refuted "Empty control graphs must be handled specially.")
  let leaving ← named (g.edgesFrom src)
  return do Walk.collect g goal visitor fuel fuel (← Walk.start visitor leaving)

end PacketSmith.Graph
