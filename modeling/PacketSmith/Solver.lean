import PacketSmith.Term.Basic

/-!
# Solvers

A solver decides whether some assignment satisfies a list of formulas. The library takes a solver as an argument, and
what it finds depends on the solver only through the answers.
-/

namespace PacketSmith

inductive Answer where
  | sat (ρ : Assignment)
  | unsat
  | unknown

abbrev Solver := List Formula → Answer

def Assignment.Satisfies (ρ : Assignment) (fs : List Formula) : Prop := ∀ f ∈ fs, f.eval ρ = true

namespace Answer

def model? : Answer → Option Assignment
  | sat ρ => some ρ
  | _ => none

def isSat : Answer → Bool
  | sat _ => true
  | _ => false

end Answer

namespace Solver

def Sound (s : Solver) : Prop :=
  ∀ fs, (∀ ρ, s fs = .sat ρ → ρ.Satisfies fs) ∧ (s fs = .unsat → ∀ ρ : Assignment, ¬ ρ.Satisfies fs)

def Decides (s : Solver) : Prop := s.Sound ∧ ∀ fs, s fs ≠ .unknown

end Solver

end PacketSmith
