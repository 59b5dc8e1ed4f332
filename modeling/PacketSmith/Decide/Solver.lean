import PacketSmith.Decide.Search
import PacketSmith.Solver

/-!
# A solver

Formulas become a circuit, and the circuit is searched for values of its inputs.
-/

namespace PacketSmith.Decide

open Std.Sat Std.Tactic.BVDecide

def budget : Nat := 100000000

def valuesOf (c : AIG BVBit) (s : Search) : Std.HashMap Nat Nat :=
  c.decls.zipIdx.foldl (fun table (d, n) =>
    match d with
    | .atom b => if s.value (2 * n) == 1 then table.alter b.var fun v => some (v.getD 0 + Nat.pow 2 b.idx) else table
    | _ => table) {}

def attempt (number : Variable × Nat → Nat) (fs : List Formula) : Search.Result × AIG BVBit :=
  let c := circuit number fs
  let search := Search.ofCircuit c
  (if search.refuted then .refuted else search.run budget, c.aig)

def confirm (fs : List Formula) (ρ : Assignment) : Answer :=
  if fs.all fun f => f.eval ρ then .sat ρ else .unknown

def solver : Solver := fun fs =>
  let numbers := (fs.flatMap Term.vars).foldl (fun table x => table.insertIfNew x table.size)
    ({} : Std.HashMap (Variable × Nat) Nat)
  let number (x : Variable × Nat) : Nat := numbers.getD x numbers.size
  match attempt number fs with
  | (.found s, c) =>
    let values := valuesOf c s
    confirm fs fun name w => BitVec.ofNat w (values.getD (number (name, w)) 0)
  | (.refuted, _) => .unsat
  | (.unknown, _) => .unknown

theorem satisfies_of_confirm {fs : List Formula} {ρ σ : Assignment} (h : confirm fs σ = .sat ρ) :
    ρ.Satisfies fs := by
  unfold confirm at h
  split at h
  · rename_i hall
    cases h
    exact fun f hf => List.all_eq_true.mp hall f hf
  · cases h

theorem satisfies_of_solver {fs : List Formula} {ρ : Assignment} (h : solver fs = .sat ρ) :
    ρ.Satisfies fs := by
  unfold solver at h
  dsimp only at h
  split at h
  · exact satisfies_of_confirm h
  · cases h
  · cases h

end PacketSmith.Decide
