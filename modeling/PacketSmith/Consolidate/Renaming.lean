import PacketSmith.Symbolic.Operand

/-!
# Variables of one path

A `Renaming` gives every variable of a path a name of its own, which is the name of the path in front of the name of
the variable.
-/

namespace PacketSmith

/-- New names of variables, which are known by name and width. -/
abbrev Renaming := Dict (Variable × Nat) Variable

namespace Renaming

def extend (r : Renaming) (path : String) (vars : List (Variable × Nat)) : Renaming :=
  vars.foldl (fun r v => if r.contains v then r else r.insert v (path ++ v.1.display : String)) r

def name (r : Renaming) (old : Variable) (w : Nat) : Variable := (r.get? (old, w)).getD old

def bits (path : String) (r : Renaming) (b : Bits) : Bits × Renaming :=
  let r := r.extend path b.term.vars
  (b.rename r.name, r)

def formula (path : String) (r : Renaming) (f : Formula) : Formula × Renaming :=
  let r := r.extend path f.vars
  (f.rename r.name, r)

end Renaming

namespace Value

def vars : Value → Except Fault (List (Variable × Nat))
  | .bits b => .ok b.term.vars.eraseDups
  | .formula f => .ok f.vars.eraseDups
  | .absent => .error .noPart

def isFixed : Value → Except Fault Bool
  | .bits ⟨_, .const _⟩ => .ok true
  | .bits ⟨_, .var _ _⟩ => .ok false
  | .formula (.truth _) => .ok true
  | _ => .error .violated

end Value

end PacketSmith
