import Mathlib.Data.List.Basic
import Mathlib.Order.Hom.Basic
import PacketSmith.Solver
import PacketSmith.Term.Bits

/-!
# Renumbering

Two runs that make the same variables in the same order differ by a *renumbering*, an embedding of the numbers that
keeps their order. `Numbered` is the class of types whose values hold such variables. What is computed from a term
does not see the numbers (`Term.fold_renumber`, `Term.number?_renumber`, `Term.same_renumber`,
`satisfiable_renumber`).
-/

namespace PacketSmith

/-- A type whose values may hold variables with numbers. -/
class Numbered (α : Type) where
  renum : (ℕ ↪o ℕ) → α → α

open Numbered (renum)

/-! ## Terms -/

namespace Variable

instance : Numbered Variable := ⟨fun σ x => x.renumber σ⟩

theorem renumber_injective (σ : ℕ ↪o ℕ) : ∀ {x y : Variable}, renum σ x = renum σ y → x = y
  | .plain _, .plain _, h => h
  | .numbered stem n, .numbered stem' n', h => by
    obtain ⟨rfl, hn⟩ := Variable.numbered.inj h
    rw [σ.injective hn]
  | .shift x, .shift y, h => by
    rw [renumber_injective σ (Variable.shift.inj h)]
  | .plain _, .numbered _ _, h => nomatch h
  | .plain _, .shift _, h => nomatch h
  | .numbered _ _, .plain _, h => nomatch h
  | .numbered _ _, .shift _, h => nomatch h
  | .shift _, .plain _, h => nomatch h
  | .shift _, .numbered _ _, h => nomatch h

@[simp] theorem renumber_inj (σ : ℕ ↪o ℕ) {x y : Variable} : renum σ x = renum σ y ↔ x = y :=
  ⟨renumber_injective σ, congrArg _⟩

@[simp] theorem renumber_beq (σ : ℕ ↪o ℕ) (x y : Variable) : (renum σ x == renum σ y) = (x == y) := by
  rw [Bool.eq_iff_iff, beq_iff_eq, beq_iff_eq, renumber_inj]

@[simp] theorem renumber_plain (σ : ℕ ↪o ℕ) (text : String) : renum σ (plain text) = plain text := rfl

@[simp] theorem renumber_shift (σ : ℕ ↪o ℕ) (x : Variable) : renum σ (shift x) = shift (renum σ x) := rfl

@[simp] theorem order_renumber (σ : ℕ ↪o ℕ) (x y : Variable) : (renum σ x).order (renum σ y) = x.order y := by
  have hcompare (n m : Nat) : compare (σ n) (σ m) = compare n m := by
    simp only [Nat.compare_eq_ite_lt, σ.lt_iff_lt]
  induction x generalizing y with
  | plain text => cases y <;> rfl
  | numbered stem n =>
    cases y with
    | numbered stem' m => exact congrArg (compare stem stem').then (hcompare n m)
    | _ => rfl
  | shift x ih =>
    cases y with
    | shift y => exact ih y
    | _ => rfl

end Variable

namespace Term

instance {k : Kind} : Numbered (Term k) := ⟨fun σ t => t.rename fun x _ => renum σ x⟩

variable (σ : ℕ ↪o ℕ)

@[simp] theorem renumber_var (x : Variable) (w : Nat) : renum σ (var x w) = var (renum σ x) w := rfl

@[simp] theorem renumber_const (x : BitVec w) : renum σ (const x) = const x := rfl

@[simp] theorem renumber_truth (b : Bool) : renum σ (truth b) = truth b := rfl

@[simp] theorem renumber_not (a : Formula) : renum σ (not a) = not (renum σ a) := rfl

@[simp] theorem renumber_conn (op : Connective) (a b : Formula) :
    renum σ (conn op a b) = conn op (renum σ a) (renum σ b) := rfl

@[simp] theorem renumber_rel (op : Relation) (a b : Term (.bits w)) :
    renum σ (rel op a b) = rel op (renum σ a) (renum σ b) := rfl

@[simp] theorem renumber_arith (op : BinOp) (a b : Term (.bits w)) :
    renum σ (arith op a b) = arith op (renum σ a) (renum σ b) := rfl

@[simp] theorem renumber_flip (a : Term (.bits w)) : renum σ (flip a) = flip (renum σ a) := rfl

@[simp] theorem renumber_choose (c : Formula) (a b : Term k) :
    renum σ (choose c a b) = choose (renum σ c) (renum σ a) (renum σ b) := rfl

@[simp] theorem renumber_resize (v : Nat) (a : Term (.bits w)) : renum σ (resize v a) = resize v (renum σ a) := rfl

@[simp] theorem renumber_concat (a : Term (.bits w)) (b : Term (.bits v)) :
    renum σ (concat a b) = concat (renum σ a) (renum σ b) := rfl

@[simp] theorem fold_renumber (t : Term k) : (renum σ t).fold = t.fold := by
  induction t with
  | var | const | truth => rfl
  | not a ih => simp [fold, ih]
  | conn op a b iha ihb | rel op a b iha ihb | arith op a b iha ihb => simp [fold, iha, ihb]
  | flip a ih => simp [fold, ih]
  | @choose k c a b ihc iha ihb => cases k <;> simp [fold, ihc, iha, ihb]
  | resize v a ih => simp [fold, ih]
  | concat a b iha ihb => simp [fold, iha, ihb]

@[simp] theorem same_renumber (a : Term k) (b : Term k') : (renum σ a).same (renum σ b) = a.same b := by
  induction a generalizing k' <;> cases b <;> simp [same, *]

theorem vars_renumber (t : Term k) : (renum σ t).vars = t.vars.map fun (x, w) => (renum σ x, w) := by
  induction t <;> simp_all [vars]

theorem shape_renumber (rank : Variable → Nat) (t : Term k) :
    (renum σ t).shape rank = t.shape fun x => rank (renum σ x) := by
  induction t with
  | conn op a b iha ihb => cases op <;> simp [shape, iha, ihb]
  | _ => simp_all [shape]

@[simp] theorem number?_renumber (t : Term (.bits w)) : (renum σ t).number? = t.number? := by
  have hrank : (fun x => (renum σ t).rank (renum σ x)) = t.rank := by
    funext x
    simp [rank, vars_renumber, List.countP_map, Function.comp_def]
  rw [number?, shape_renumber, hrank, number?]

end Term

/-! ## Satisfiability -/

/-- Some assignment satisfies a list of formulas. -/
def Satisfiable (fs : List Formula) : Prop := ∃ ρ : Assignment, ρ.Satisfies fs

theorem eval_renumber (σ : ℕ ↪o ℕ) (ρ : Assignment) (t : Term k) :
    (renum σ t).eval ρ = t.eval fun x w => ρ (renum σ x) w :=
  t.eval_rename _ ρ

theorem exists_assignment_renumber (σ : ℕ ↪o ℕ) (ρ : Assignment) :
    ∃ ρ' : Assignment, ∀ x w, ρ' (renum σ x) w = ρ x w := by
  classical
  refine ⟨fun y w => if h : ∃ x, renum σ x = y then ρ h.choose w else 0, fun x w => ?_⟩
  have h : ∃ x', renum σ x' = renum σ x := ⟨x, rfl⟩
  change (if h : ∃ x', renum σ x' = renum σ x then ρ h.choose w else 0) = ρ x w
  rw [dif_pos h, Variable.renumber_injective σ h.choose_spec]

theorem satisfiable_renumber (σ : ℕ ↪o ℕ) (fs : List Formula) : Satisfiable (fs.map (renum σ)) ↔ Satisfiable fs := by
  constructor
  · rintro ⟨ρ, hρ⟩
    refine ⟨fun x w => ρ (renum σ x) w, fun f hf => ?_⟩
    rw [← eval_renumber]
    exact hρ _ (List.mem_map_of_mem hf)
  · rintro ⟨ρ, hρ⟩
    obtain ⟨ρ', hρ'⟩ := exists_assignment_renumber σ ρ
    refine ⟨ρ', fun g hg => ?_⟩
    obtain ⟨f, hf, rfl⟩ := List.mem_map.mp hg
    rw [eval_renumber, show (fun x w => ρ' (renum σ x) w) = ρ from funext₂ hρ']
    exact hρ f hf

theorem Satisfiable.mono (h : Satisfiable gs) (hsub : fs ⊆ gs) : Satisfiable fs := by
  obtain ⟨ρ, hρ⟩ := h
  exact ⟨ρ, fun f hf => hρ f (hsub hf)⟩

end PacketSmith
