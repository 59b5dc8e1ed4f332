import PacketSmith.Proofs.Parser.KeptTransitions

/-!
# Packed keys

The elements of a key stand side by side in whole bytes, and the value and the mask of a transition are cut in the
same way. So the comparison of the whole is the comparison of each element with its slice (`keyConstraint_slices`):
a position of the packed key is a position of one element (`forall_position_iff`), and there the packed key has the
bit of that element (`testBit_number`).
-/

namespace PacketSmith

open List

namespace Transition

variable {keys : List Bits}

def byteWidth (k : Bits) : Nat := 8 * ((k.width + 7) / 8)

def packedWidth (keys : List Bits) : Nat := (keys.map byteWidth).sum

/-- The part of a number of the width of the packed key that stands where some element does. The
elements that come later make up what is below it. -/
def slice (keys : List Bits) (i : Nat) (w : Nat) (n : Int) : BitVec w :=
  (BitVec.ofInt (packedWidth keys) n).extractLsb' (packedWidth (keys.drop (i + 1))) w

/-- The bits of an element that are compared: those of its slice of the mask, or all of them. -/
def select (keys : List Bits) (i : Nat) (w : Nat) (mask : Option Int) : BitVec w :=
  (mask.map (slice keys i w)).getD (BitVec.allOnes w)

def number (ρ : Assignment) : List Bits → Nat
  | [] => 0
  | k :: keys => 2 ^ packedWidth keys * k.evalNat ρ + number ρ keys

theorem packedWidth_cons (k : Bits) (keys : List Bits) : packedWidth (k :: keys) = byteWidth k + packedWidth keys := by
  simp [packedWidth]

theorem evalNat_lt_byteWidth (ρ : Assignment) (k : Bits) : k.evalNat ρ < 2 ^ byteWidth k :=
  (Bits.evalNat_lt ρ k).trans_le (Nat.pow_le_pow_right Nat.two_pos (by rw [byteWidth]; omega))

theorem foldl_pack (ρ : Assignment) (keys : List Bits) (key : Nat × Nat) :
    keys.foldl (pack ρ) key = (key.1 + packedWidth keys, key.2 * 2 ^ packedWidth keys + number ρ keys) := by
  induction keys generalizing key with
  | nil => simp [packedWidth, number]
  | cons k keys ih =>
    rw [foldl_cons, ih, packedWidth_cons, number, Nat.pow_add]
    simp only [pack, byteWidth, Prod.mk.injEq]
    exact ⟨Nat.add_assoc .., by rw [Nat.add_mul, Nat.mul_assoc, Nat.mul_comm (k.evalNat ρ), Nat.add_assoc]⟩

theorem number_lt (ρ : Assignment) (keys : List Bits) : number ρ keys < 2 ^ packedWidth keys := by
  induction keys with
  | nil => exact Nat.one_pos
  | cons k keys ih =>
    rw [packedWidth_cons, Nat.add_comm, Nat.pow_add]
    calc number ρ (k :: keys) < 2 ^ packedWidth keys * k.evalNat ρ + 2 ^ packedWidth keys := Nat.add_lt_add_left ih _
      _ = 2 ^ packedWidth keys * (k.evalNat ρ + 1) := (Nat.mul_succ _ _).symm
      _ ≤ 2 ^ packedWidth keys * 2 ^ byteWidth k := Nat.mul_le_mul_left _ (evalNat_lt_byteWidth ρ k)

theorem packedWidth_split {i : Nat} (hi : i < keys.length) :
    packedWidth (keys.drop (i + 1)) + byteWidth keys[i] ≤ packedWidth keys := by
  induction keys generalizing i with
  | nil => cases hi
  | cons k keys ih =>
    rw [packedWidth_cons]
    cases i with
    | zero => exact (Nat.add_comm _ _).le
    | succ i => exact (ih (Nat.lt_of_succ_lt_succ hi)).trans (Nat.le_add_left _ _)

theorem testBit_number (ρ : Assignment) {i : Nat} (hi : i < keys.length) {j : Nat} (hj : j < byteWidth keys[i]) :
    (number ρ keys).testBit (packedWidth (keys.drop (i + 1)) + j) = (keys[i].evalNat ρ).testBit j := by
  induction keys generalizing i with
  | nil => cases hi
  | cons k keys ih =>
    rw [number, Nat.testBit_two_pow_mul_add _ (number_lt ρ keys)]
    cases i with
    | zero => simp
    | succ i =>
      have hi' : i < keys.length := Nat.lt_of_succ_lt_succ hi
      have hbelow : packedWidth (keys.drop (i + 1)) + j < packedWidth keys :=
        (Nat.add_lt_add_left hj _).trans_le (packedWidth_split hi')
      rw [drop_succ_cons, if_pos hbelow]
      exact ih hi' hj

theorem forall_position_iff {P : Nat → Prop} (keys : List Bits) : (∀ p < packedWidth keys, P p) ↔
    ∀ (i : Nat) (hi : i < keys.length), ∀ j < byteWidth keys[i], P (packedWidth (keys.drop (i + 1)) + j) := by
  constructor
  · intro h i hi j hj
    exact h _ ((Nat.add_lt_add_left hj _).trans_le (packedWidth_split hi))
  · induction keys with
    | nil => simp [packedWidth]
    | cons k keys ih =>
      intro h p hp
      by_cases hbelow : p < packedWidth keys
      · exact ih (fun i hi => h (i + 1) (Nat.succ_lt_succ hi)) p hbelow
      · have hfirst := h 0 (Nat.succ_pos _) (p - packedWidth keys)
        rw [drop_succ_cons, drop_zero, Nat.add_sub_cancel' (Nat.le_of_not_lt hbelow)] at hfirst
        rw [packedWidth_cons] at hp
        exact hfirst (by simp only [getElem_cons_zero]; omega)

/-- The key agrees with the value of a transition in the bits of the mask if and only if each element
of it, filled up to whole bytes, agrees with its slice of the value in the bits of its slice of the
mask. Without a mask these are all bits. -/
theorem keyConstraint_slices (hne : keys ≠ []) (value : Int) (mask : Option Int) :
    ∃ f, keyConstraint (keys.map some) (some value) mask = .ok f ∧ ∀ ρ : Assignment, f.eval ρ = true ↔
      ∀ (i : Nat) (hi : i < keys.length), (keys[i].term.eval ρ).setWidth (byteWidth keys[i]) &&& select keys i _ mask =
        slice keys i _ value &&& select keys i _ mask := by
  let t : Transition := ⟨default, default, some value, mask⟩
  obtain ⟨f, hf⟩ := exists_agrees (t := t) (by simp : none ∉ keys.map some) (by simpa using hne) rfl
  refine ⟨f, hf, fun ρ => ?_⟩
  have hagrees : f.eval ρ = true ↔ Agrees (keys.map some) ρ t := by
    rw [Agrees, hf]
    simp
  rw [hagrees, agrees_iff_fits hne rfl, fits, beq_iff_eq, foldl_pack, Nat.zero_add, Nat.zero_mul,
    Nat.zero_add, BitVec.eq_of_getLsbD_eq_iff, forall_position_iff]
  refine forall₂_congr fun i hi => ?_
  rw [BitVec.eq_of_getLsbD_eq_iff]
  refine forall₂_congr fun j hj => ?_
  have hin : packedWidth (keys.drop (i + 1)) + j < packedWidth keys :=
    (Nat.add_lt_add_left hj _).trans_le (packedWidth_split hi)
  have hkey : (BitVec.ofNat (packedWidth keys) (number ρ keys)).getLsbD
      (packedWidth (keys.drop (i + 1)) + j) = (keys[i].term.eval ρ).getLsbD j := by
    rw [BitVec.getLsbD_ofNat, testBit_number ρ hi hj, decide_eq_true hin, Bool.true_and]
    rfl
  have hslice : ∀ n : Int, (slice keys i (byteWidth keys[i]) n).getLsbD j =
      (BitVec.ofInt (packedWidth keys) n).getLsbD (packedWidth (keys.drop (i + 1)) + j) := fun n => by
    rw [slice, BitVec.getLsbD_extractLsb', decide_eq_true hj, Bool.true_and]
  simp only [BitVec.getLsbD_and, BitVec.getLsbD_setWidth, hkey, hslice, decide_eq_true hj, Bool.true_and, select, t]
  cases mask with
  | some m => simp only [Option.getD_some, Option.map_some, hslice]
  | none =>
    have hones : BitVec.ofInt (packedWidth keys) (-1) = BitVec.allOnes _ := by
      rw [BitVec.ofInt_neg, ← BitVec.neg_one_eq_allOnes]
      rfl
    simp [hones, hj, hin]

/-- An element of three bits before one of twelve. What the value has above the key is cut off. -/
theorem keyConstraint_slices_two : let keys : List Bits := [⟨3, .var "a" 3⟩, ⟨12, .var "b" 12⟩]
    keys ≠ [] ∧ slice keys 0 8 0x9050ABC = 0x05 ∧ slice keys 1 16 0x9050ABC = 0x0ABC ∧
    ∃ f, keyConstraint (keys.map some) (some 0x9050ABC) none = .ok f ∧ ∀ ρ : Assignment, f.eval ρ = true ↔
      ∀ (i : Nat) (hi : i < keys.length), (keys[i].term.eval ρ).setWidth (byteWidth keys[i]) &&&
        select keys i (byteWidth keys[i]) none =
          slice keys i (byteWidth keys[i]) 0x9050ABC &&& select keys i (byteWidth keys[i]) none :=
  ⟨by simp, by decide, by decide, keyConstraint_slices (by simp) 0x9050ABC none⟩

end Transition

end PacketSmith
