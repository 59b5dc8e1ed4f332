import Mathlib.Data.Set.Card
import PacketSmith.Proofs.Packet.BitStrings
import PacketSmith.Proofs.Verdicts

/-!
# Lengths that are possible

Between two solutions of a path other lengths of extractions are asked for. How many solutions there are
is a matter of the lengths that are still possible (`PathSolver.reachable`). If the lengths must not all
be as before, each solution takes one choice of lengths away. If none of them may be as before, what a
solution takes away depends on the solver.
-/

namespace PacketSmith

open List Term Bits Assignment
open Numbered (renum)

def valuesUnder (fs : List Formula) (bs : List Bits) : Set (List Nat) :=
  { v | ∃ ρ : Assignment, ρ.Satisfies fs ∧ bs.map (evalNat ρ) = v }

theorem valuesUnder_nonempty (fs : List Formula) (bs : List Bits) : (valuesUnder fs bs).Nonempty ↔ Satisfiable fs :=
  ⟨fun ⟨_, ρ, hρ, _⟩ => ⟨ρ, hρ⟩, fun ⟨ρ, hρ⟩ => ⟨_, ρ, hρ, rfl⟩⟩

theorem valuesUnder_renum (σ : ℕ ↪o ℕ) (fs : List Formula) (bs : List Bits) :
    valuesUnder (renum σ fs) (renum σ bs) = valuesUnder fs bs := by
  have hvalue (ρ : Assignment) (b : Bits) : (renum σ b).evalNat ρ = b.evalNat fun x w => ρ (renum σ x) w :=
    congrArg BitVec.toNat (eval_renumber σ ρ b.term)
  have hvalues (ρ : Assignment) : (renum σ bs).map (evalNat ρ) = bs.map (evalNat fun x w => ρ (renum σ x) w) :=
    (map_map).trans (map_congr_left fun b _ => hvalue ρ b)
  ext v
  constructor
  · rintro ⟨ρ, hρ, rfl⟩
    refine ⟨fun x w => ρ (renum σ x) w, fun f hf => ?_, (hvalues ρ).symm⟩
    rw [← eval_renumber]
    exact hρ _ (mem_map_of_mem hf)
  · rintro ⟨ρ, hρ, rfl⟩
    obtain ⟨ρ', hρ'⟩ := exists_assignment_renumber σ ρ
    have hread : (fun x w => ρ' (renum σ x) w) = ρ := funext₂ hρ'
    refine ⟨ρ', fun g hg => ?_, (hvalues ρ').trans (by rw [hread])⟩
    obtain ⟨f, hf, rfl⟩ := mem_map.mp hg
    rw [eval_renumber, hread]
    exact hρ f hf

/-- Two choices of values agree in some place. -/
def Meets (v a : List Nat) : Prop := ∃ x ∈ v.zip a, x.1 = x.2

namespace PathSolver

variable {s s' : PathSolver}

def lengthTerms (s : PathSolver) : List Bits := s.tally.lengths.values

def lengthsAt (s : PathSolver) (ρ : Assignment) : List Nat := s.lengthTerms.map (evalNat ρ)

def reachable (s : PathSolver) : Set (List Nat) := valuesUnder s.formulas s.lengthTerms

theorem eval_sameLength (b : Bits) (ρ ρ' : Assignment) :
    (rel .eq b.term (.const (b.term.eval ρ))).eval ρ' = true ↔ b.evalNat ρ' = b.evalNat ρ := by
  simp [eval, Relation.eval, evalNat, BitVec.toNat_inj]

theorem eval_allSame (s : PathSolver) (ρ ρ' : Assignment) :
    (Term.all (s.sameLengths ρ)).eval ρ' = true ↔ s.lengthsAt ρ' = s.lengthsAt ρ := by
  rw [eval_all, sameLengths, all_map, all_eq_true, lengthsAt, lengthsAt, map_inj_left]
  exact forall₂_congr fun b _ => eval_sameLength b ρ ρ'

theorem eval_anySame (s : PathSolver) (ρ ρ' : Assignment) :
    (Term.any (s.sameLengths ρ)).eval ρ' = true ↔ Meets (s.lengthsAt ρ') (s.lengthsAt ρ) := by
  rw [eval_any, sameLengths, any_map, any_eq_true, Meets, lengthsAt, lengthsAt, zip_map']
  constructor
  · rintro ⟨b, hb, hsame⟩
    exact ⟨_, mem_map_of_mem hb, (eval_sameLength b ρ ρ').mp hsame⟩
  · rintro ⟨x, hx, hsame⟩
    obtain ⟨b, hb, rfl⟩ := mem_map.mp hx
    exact ⟨b, hb, (eval_sameLength b ρ ρ').mpr hsame⟩

theorem reachable_assert {P : List Nat → Prop} (hf : ∀ ρ : Assignment, f.eval ρ = true ↔ P (s.lengthsAt ρ)) :
    (s.assert [f]).reachable = { v ∈ s.reachable | P v } := by
  have hformulas : (s.assert [f]).formulas = s.formulas ++ [f] := formulas_assert s [f]
  ext v
  rw [Set.mem_ofPred_eq]
  constructor
  · rintro ⟨ρ, hρ, rfl⟩
    rw [hformulas, satisfies_append] at hρ
    exact ⟨⟨ρ, hρ.1, rfl⟩, (hf ρ).mp (hρ.2 f (mem_singleton_self f))⟩
  · rintro ⟨⟨ρ, hρ, rfl⟩, hP⟩
    refine ⟨ρ, ?_, rfl⟩
    rw [hformulas, satisfies_append]
    exact ⟨hρ, fun g hg => mem_singleton.mp hg ▸ (hf ρ).mpr hP⟩

theorem reachable_notAll (s : PathSolver) (ρ : Assignment) :
    (s.assert [.not (all (s.sameLengths ρ))]).reachable = s.reachable \ {s.lengthsAt ρ} := by
  rw [reachable_assert (P := (· ≠ s.lengthsAt ρ)) fun ρ' => ?_]
  · rfl
  · rw [Term.eval, Bool.not_eq_true', Ne, ← eval_allSame, Bool.not_eq_true]

theorem reachable_notAny (s : PathSolver) (ρ : Assignment) :
    (s.assert [.not (Term.any (s.sameLengths ρ))]).reachable =
      { v ∈ s.reachable | ¬ Meets v (s.lengthsAt ρ) } := by
  refine reachable_assert fun ρ' => ?_
  rw [Term.eval, Bool.not_eq_true', ← eval_anySame, Bool.not_eq_true]

theorem reachable_notAny_single (s : PathSolver) (h : s.lengthTerms.length = 1) (ρ : Assignment) :
    (s.assert [.not (any (s.sameLengths ρ))]).reachable = s.reachable \ {s.lengthsAt ρ} := by
  obtain ⟨b, hb⟩ := length_eq_one_iff.mp h
  rw [reachable_notAny]
  ext v
  rw [Set.mem_ofPred_eq, Set.mem_sdiff, Set.mem_singleton_iff]
  refine and_congr_right ?_
  rintro ⟨ρ', -, rfl⟩
  simp [hb, lengthsAt, Meets]

theorem varyLengths_cases
    {condition : Option String} {varied : Bool} (h : s.varyLengths condition = .ok (varied, s')) :
    (varied = false ∧ s' = s ∧ (condition = none ∨ s.lengthTerms = [])) ∨ varied = true ∧
      s.lengthTerms ≠ [] ∧ ∃ ρ, s.model? = some ρ ∧
      (condition = some "and" ∧ s' = s.assert [.not (all (s.sameLengths ρ))] ∨
      condition = some "or" ∧ s' = s.assert [.not (any (s.sameLengths ρ))]) := by
  have hempty : s.tally.lengths.entries.isEmpty = true ↔ s.lengthTerms = [] := by
    simp [lengthTerms, Dict.values]
  unfold varyLengths at h
  replace h := require_bind_ok h
  split at h
  · cases h
    exact .inl ⟨rfl, rfl, .inl rfl⟩
  · rename_i condition
    split at h
    · rename_i hnone
      cases h
      exact .inl ⟨rfl, rfl, .inr (hempty.mp hnone)⟩
    · rename_i hsome
      refine .inr ?_
      have hterms : s.lengthTerms ≠ [] := fun hnil => hsome (hempty.mpr hnil)
      split at h
      · rename_i ρ hmodel
        dsimp only at h
        split at h
        · rename_i hand
          cases h
          exact ⟨rfl, hterms, ρ, hmodel, .inl ⟨congrArg some (beq_iff_eq.mp hand), rfl⟩⟩
        · cases hor : (condition == "or") with
          | false =>
            rw [hor] at h
            cases h
          | true =>
            rw [hor] at h
            cases h
            exact ⟨rfl, hterms, ρ, hmodel, .inr ⟨congrArg some (beq_iff_eq.mp hor), rfl⟩⟩
      · cases h

end PathSolver

end PacketSmith
