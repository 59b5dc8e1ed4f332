import Mathlib.Data.Nat.Bitwise
import PacketSmith.Solver
import PacketSmith.Symbolic.Packet

/-!
# Bit strings and values of terms

A bit string is a list of bits, the most significant first: `lowBits w v` has the low `w` bits of a number, and
`ofBits` is the number that a string is. Operands of one width have a result, whose value is that of the operator on
their values (`Bits.arith_of_width`, `Bits.rel_of_width`), and bringing operands to one width does not change their
values (`Bits.evalNat_lshr`, `Bits.eval_relWide_eq`).
-/

namespace PacketSmith

open List

/-! ## Bit strings -/

def lowBits : Nat → Nat → List Bool
  | 0, _ => []
  | w + 1, v => v.testBit w :: lowBits w v

/-- The number that a bit string is. -/
def ofBits : List Bool → Nat
  | [] => 0
  | b :: bs => b.toNat * 2 ^ bs.length + ofBits bs

@[simp] theorem lowBits_zero (v : Nat) : lowBits 0 v = [] := rfl

@[simp] theorem length_lowBits (w v : Nat) : (lowBits w v).length = w := by
  induction w with
  | zero => rfl
  | succ w ih => simp [lowBits, ih]

theorem lowBits_add (a b v : Nat) : lowBits (a + b) v = lowBits a (v >>> b) ++ lowBits b v := by
  induction a with
  | zero => simp
  | succ a ih =>
    have hbit : (v >>> b).testBit a = v.testBit (a + b) := by
      rw [Nat.testBit_shiftRight, Nat.add_comm]
    rw [show a + 1 + b = (a + b) + 1 by omega, lowBits, lowBits, hbit, ih, cons_append]

theorem lowBits_mod (h : w ≤ n) (v : Nat) : lowBits w (v % 2 ^ n) = lowBits w v := by
  induction w with
  | zero => rfl
  | succ w ih =>
    have hbit : (v % 2 ^ n).testBit w = v.testBit w := by
      simp [Nat.testBit_mod_two_pow, Nat.lt_of_succ_le h]
    rw [lowBits, lowBits, hbit, ih (by omega)]

theorem take_lowBits (a w v : Nat) : (lowBits w v).take a = lowBits (min a w) (v >>> (w - a)) := by
  by_cases h : a ≤ w
  · obtain ⟨b, rfl⟩ := Nat.exists_eq_add_of_le h
    simp [lowBits_add]
  · have hle : w ≤ a := by omega
    rw [take_of_length_le (by simpa using hle), Nat.min_eq_right hle, Nat.sub_eq_zero_of_le hle,
      Nat.shiftRight_zero]

theorem lowBits_split (a w v : Nat) : lowBits w v = (lowBits w v).take a ++ lowBits (w - a) v := by
  by_cases h : a ≤ w
  · obtain ⟨b, rfl⟩ := Nat.exists_eq_add_of_le h
    simp [lowBits_add]
  · have hle : w ≤ a := by omega
    rw [take_of_length_le (by simpa using hle), Nat.sub_eq_zero_of_le hle, lowBits_zero,
      append_nil]

theorem drop_lowBits (a w v : Nat) : (lowBits w v).drop a = lowBits (w - a) v := by
  have hsplit : (lowBits w v).take a ++ (lowBits w v).drop a = (lowBits w v).take a ++ lowBits (w - a) v := by
    rw [take_append_drop, ← lowBits_split]
  exact append_cancel_left hsplit

theorem lowBits_mul_add (a b u v : Nat) : lowBits (a + b) (u * 2 ^ b + v % 2 ^ b) = lowBits a u ++ lowBits b v := by
  have hlt : v % 2 ^ b < 2 ^ b := Nat.mod_lt _ (Nat.two_pow_pos b)
  have hhigh : (u * 2 ^ b + v % 2 ^ b) >>> b = u := by
    rw [Nat.shiftRight_eq_div_pow, Nat.add_comm, Nat.add_mul_div_right _ _ (Nat.two_pow_pos b),
      Nat.div_eq_of_lt hlt, Nat.zero_add]
  have hlow : (u * 2 ^ b + v % 2 ^ b) % 2 ^ b = v % 2 ^ b := by
    rw [Nat.mul_add_mod_self_right, Nat.mod_mod]
  rw [lowBits_add, hhigh, ← lowBits_mod (Nat.le_refl b), hlow, lowBits_mod (Nat.le_refl b)]

theorem ofBits_lt (bs : List Bool) : ofBits bs < 2 ^ bs.length := by
  induction bs with
  | nil => simp [ofBits]
  | cons b bs ih =>
    simp only [ofBits, length_cons, Nat.pow_succ]
    cases b <;> simp <;> omega

theorem lowBits_ofBits (bs : List Bool) : lowBits bs.length (ofBits bs) = bs := by
  induction bs with
  | nil => rfl
  | cons b bs ih =>
    have hsplit := lowBits_mul_add 1 bs.length b.toNat (ofBits bs)
    rw [Nat.mod_eq_of_lt (ofBits_lt bs), ih] at hsplit
    rw [length_cons, ofBits, Nat.add_comm, hsplit]
    cases b <;> rfl

theorem ofBits_lowBits (w v : Nat) : ofBits (lowBits w v) = v % 2 ^ w := by
  induction w with
  | zero => simp [ofBits, Nat.mod_one]
  | succ w ih =>
    rw [lowBits, ofBits, length_lowBits, ih, Nat.mod_pow_succ, Nat.toNat_testBit, Nat.mul_comm,
      Nat.add_comm]

theorem eq_of_lowBits_eq (hu : u < 2 ^ w) (hv : v < 2 ^ w) (h : lowBits w u = lowBits w v) : u = v := by
  have hvalue := congrArg ofBits h
  rwa [ofBits_lowBits, ofBits_lowBits, Nat.mod_eq_of_lt hu, Nat.mod_eq_of_lt hv] at hvalue

/-- Numbers whose significant ends are equal agree as far as both go. -/
theorem take_eq_of_shiftRight_eq (h : u >>> (a - b) = (v % 2 ^ b) >>> (b - a)) :
    (lowBits a u).take b = (lowBits b v).take a := by
  rw [← lowBits_mod (Nat.le_refl b) v, take_lowBits, take_lowBits, h, Nat.min_comm]

/-- Numbers that agree as far as both go have equal significant ends. -/
theorem shiftRight_eq_of_take_eq (hu : u < 2 ^ a) (h : (lowBits a u).take b = (lowBits b v).take a) :
    u >>> (a - b) = (v % 2 ^ b) >>> (b - a) := by
  have hfits : ∀ {x w n : Nat}, x < 2 ^ w → x >>> (w - n) < 2 ^ min n w := by
    intro x w n hx
    rw [Nat.shiftRight_eq_div_pow, Nat.div_lt_iff_lt_mul (Nat.two_pow_pos _), ← Nat.pow_add]
    rwa [show min n w + (w - n) = w by omega]
  rw [← lowBits_mod (Nat.le_refl b) v, take_lowBits, take_lowBits, Nat.min_comm a b] at h
  exact eq_of_lowBits_eq (hfits hu) (Nat.min_comm a b ▸ hfits (Nat.mod_lt _ (Nat.two_pow_pos b))) h

theorem two_pow_sub_one_shiftRight (r m : Nat) : (2 ^ r - 1) >>> m = 2 ^ (r - m) - 1 := by
  apply Nat.eq_of_testBit_eq
  intro i
  rw [Nat.testBit_shiftRight, Nat.testBit_two_pow_sub_one, Nat.testBit_two_pow_sub_one]
  exact decide_eq_decide.mpr (by omega)

/-! ## Operators on words -/

section Words

variable {a b : BitVec w}

theorem toNat_leastOf (ha : 2 * a.toNat < 2 ^ w) (hb : 2 * b.toNat < 2 ^ w) :
    (BinOp.leastOf a b).toNat = min a.toNat b.toNat := by
  have hslt : b.slt a = decide (b.toNat < a.toNat) := by
    simp [BitVec.slt, BitVec.toInt_eq_toNat_of_lt ha, BitVec.toInt_eq_toNat_of_lt hb]
  rw [BinOp.leastOf, hslt]
  by_cases h : b.toNat < a.toNat
  · simp [h]
    omega
  · simp [h]
    omega

end Words

/-! ## Values of terms -/

namespace Assignment

variable {ρ : Assignment} {fs : List Formula}

instance (ρ : Assignment) (fs : List Formula) : Decidable (ρ.Satisfies fs) :=
  inferInstanceAs (Decidable (∀ f ∈ fs, f.eval ρ = true))

@[simp] theorem satisfies_nil : ρ.Satisfies [] := by
  simp [Satisfies]

@[simp] theorem satisfies_cons : ρ.Satisfies (f :: fs) ↔ f.eval ρ = true ∧ ρ.Satisfies fs := forall_mem_cons

@[simp] theorem satisfies_append : ρ.Satisfies (fs ++ gs) ↔ ρ.Satisfies fs ∧ ρ.Satisfies gs := forall_mem_append

theorem satisfies_flatten {fss : List (List Formula)} : ρ.Satisfies fss.flatten ↔ ∀ fs ∈ fss, ρ.Satisfies fs := by
  simp only [Satisfies, mem_flatten]
  exact ⟨fun h fs hfs f hf => h f ⟨fs, hfs, hf⟩, fun h f ⟨fs, hfs, hf⟩ => h fs hfs f hf⟩

end Assignment

theorem Term.same_refl (t : Term k) : t.same t = true := by
  induction t with
  | conn op a b iha ihb | rel op a b iha ihb | arith op a b iha ihb => simp [same, iha, ihb]
  | choose c a b ihc iha ihb => simp [same, ihc, iha, ihb]
  | concat a b iha ihb => simp [same, iha, ihb]
  | not a ih | flip a ih | resize v a ih => simpa [same] using ih
  | _ => simp [same]

namespace Bits

theorem alike_refl (a : Bits) : a.alike a = .ok true := by
  simp [alike, Term.same_refl]

variable (ρ : Assignment) {a b : Bits}

theorem evalNat_lt (a : Bits) : a.evalNat ρ < 2 ^ a.width := BitVec.isLt _

@[simp] theorem width_settle (a : Bits) : a.settle.width = a.width := by
  unfold settle
  split <;> rfl

@[simp] theorem evalNat_settle (a : Bits) : a.settle.evalNat ρ = a.evalNat ρ := by
  unfold settle
  split
  · rename_i x hx
    exact congrArg BitVec.toNat (Term.eval_of_fold ρ a.term x hx).symm
  · rfl

@[simp] theorem width_ofInt (n : Int) (w : Nat) : (ofInt n w).width = w := rfl

theorem evalNat_ofInt_natCast (n w : Nat) : (ofInt (n : Int) w).evalNat ρ = n % 2 ^ w := by
  simp [ofInt, evalNat, Term.eval]

theorem evalNat_ofInt_neg_one (w : Nat) : (ofInt (-1) w).evalNat ρ = 2 ^ w - 1 := by
  have hones : BitVec.ofInt w (-1) = BitVec.allOnes w := by
    simp [BitVec.ofInt_neg, BitVec.neg_one_eq_allOnes]
  simp only [ofInt, evalNat, Term.eval, hones, BitVec.toNat_allOnes]

theorem arith_of_width (op : BinOp) (h : b.width = a.width) : ∃ c, a.arith op b = .ok c ∧ c.width = a.width ∧
    c.evalNat ρ = (op.eval (BitVec.ofNat a.width (a.evalNat ρ)) (BitVec.ofNat a.width (b.evalNat ρ))).toNat := by
  obtain ⟨w, x⟩ := a
  obtain ⟨v, y⟩ := b
  obtain rfl : v = w := h
  refine ⟨⟨v, .arith op x y⟩, by simp [arith, both], rfl, ?_⟩
  simp [evalNat, Term.eval]

theorem rel_of_width (op : Relation) (h : b.width = a.width) :
    ∃ f, a.rel op b = .ok f ∧
      f.eval ρ = op.eval (BitVec.ofNat a.width (a.evalNat ρ)) (BitVec.ofNat a.width (b.evalNat ρ)) := by
  obtain ⟨w, x⟩ := a
  obtain ⟨v, y⟩ := b
  obtain rfl : v = w := h
  refine ⟨.rel op x y, by simp [rel, both], ?_⟩
  simp [evalNat, Term.eval]

section OneWidth

variable (h : b.width = a.width)

include h

theorem toNat_ofNat_evalNat : (BitVec.ofNat a.width (b.evalNat ρ)).toNat = b.evalNat ρ := by
  rw [BitVec.toNat_ofNat, Nat.mod_eq_of_lt]
  exact h ▸ evalNat_lt ρ b

theorem least_of_width (ha : 2 * a.evalNat ρ < 2 ^ a.width) (hb : 2 * b.evalNat ρ < 2 ^ a.width) :
    ∃ c, a.arith .least b = .ok c ∧
      c.width = a.width ∧ c.evalNat ρ = min (a.evalNat ρ) (b.evalNat ρ) := by
  obtain ⟨c, hc, hwidth, hvalue⟩ := arith_of_width ρ .least h
  refine ⟨c, hc, hwidth, ?_⟩
  rw [← toNat_ofNat_evalNat ρ (a := a) rfl] at ha
  rw [← toNat_ofNat_evalNat ρ h] at hb
  rw [hvalue, BinOp.eval, toNat_leastOf ha hb, toNat_ofNat_evalNat ρ rfl, toNat_ofNat_evalNat ρ h]

theorem surplus_of_width (ha : 2 * a.evalNat ρ < 2 ^ a.width) (hb : 2 * b.evalNat ρ < 2 ^ a.width) :
    ∃ c, a.arith .surplus b = .ok c ∧ c.width = a.width ∧ c.evalNat ρ = a.evalNat ρ - b.evalNat ρ := by
  obtain ⟨c, hc, hwidth, hvalue⟩ := arith_of_width ρ .surplus h
  refine ⟨c, hc, hwidth, ?_⟩
  rw [← toNat_ofNat_evalNat ρ (a := a) rfl] at ha
  rw [← toNat_ofNat_evalNat ρ h] at hb
  have hleast := toNat_leastOf hb ha
  have hle : BinOp.leastOf (BitVec.ofNat a.width (b.evalNat ρ)) (BitVec.ofNat a.width (a.evalNat ρ)) ≤
      BitVec.ofNat a.width (a.evalNat ρ) := by
    rw [BitVec.le_def, hleast]
    exact Nat.min_le_right _ _
  rw [hvalue, BinOp.eval, BitVec.toNat_sub_of_le hle, hleast, toNat_ofNat_evalNat ρ rfl,
    toNat_ofNat_evalNat ρ h]
  omega

theorem sub_of_width (hle : b.evalNat ρ ≤ a.evalNat ρ) :
    ∃ c, a.arith .sub b = .ok c ∧ c.width = a.width ∧ c.evalNat ρ = a.evalNat ρ - b.evalNat ρ := by
  obtain ⟨c, hc, hwidth, hvalue⟩ := arith_of_width ρ .sub h
  refine ⟨c, hc, hwidth, ?_⟩
  have hle : BitVec.ofNat a.width (b.evalNat ρ) ≤ BitVec.ofNat a.width (a.evalNat ρ) := by
    rwa [BitVec.le_def, toNat_ofNat_evalNat ρ rfl, toNat_ofNat_evalNat ρ h]
  rw [hvalue, BinOp.eval, BitVec.toNat_sub_of_le hle, toNat_ofNat_evalNat ρ rfl,
    toNat_ofNat_evalNat ρ h]

theorem and_of_width : ∃ c, a.arith .and b = .ok c ∧ c.width = a.width ∧ c.evalNat ρ = a.evalNat ρ &&& b.evalNat ρ := by
  obtain ⟨c, hc, hwidth, hvalue⟩ := arith_of_width ρ .and h
  refine ⟨c, hc, hwidth, ?_⟩
  rw [hvalue, BinOp.eval, BitVec.toNat_and, toNat_ofNat_evalNat ρ rfl, toNat_ofNat_evalNat ρ h]

end OneWidth

theorem eval_atWidth (h : a.width ≤ v) : ((a.atWidth v).eval ρ).toNat = a.evalNat ρ := by
  unfold atWidth
  split
  · rename_i hw
    subst hw
    rfl
  · exact BitVec.toNat_setWidth_of_le h

@[simp] theorem width_resize (a : Bits) (v : Nat) : (a.resize v).width = v := rfl

theorem evalNat_resize (h : a.width ≤ v) : (a.resize v).evalNat ρ = a.evalNat ρ :=
  eval_atWidth ρ h

@[simp] theorem width_arithWide (op : BinOp) (a b : Bits) : (a.arithWide op b).width = max a.width b.width := rfl

@[simp] theorem evalNat_lshr (a b : Bits) : (a.arithWide .lshr b).evalNat ρ = a.evalNat ρ >>> b.evalNat ρ := by
  have ha := eval_atWidth ρ (Nat.le_max_left a.width b.width)
  have hb := eval_atWidth ρ (Nat.le_max_right a.width b.width)
  have hlt : a.evalNat ρ < 2 ^ max a.width b.width := by
    rw [← ha]
    exact BitVec.isLt _
  simp only [arithWide, evalNat, Term.eval, BinOp.eval] at *
  split
  · rw [BitVec.toNat_ushiftRight, ha, hb]
  · have hzero : BitVec.toNat (Term.eval ρ a.term) >>> BitVec.toNat (Term.eval ρ b.term) = 0 := by
      rw [Nat.shiftRight_eq_div_pow]
      exact Nat.div_eq_of_lt (Nat.lt_of_lt_of_le hlt (Nat.pow_le_pow_right (by omega) (by omega)))
    rw [hzero]
    rfl

theorem eval_relWide_eq (a b : Bits) : (a.relWide .eq b).eval ρ = true ↔ a.evalNat ρ = b.evalNat ρ := by
  rw [← eval_atWidth ρ (Nat.le_max_left a.width b.width),
    ← eval_atWidth ρ (Nat.le_max_right a.width b.width)]
  simp [relWide, Term.eval, Relation.eval, BitVec.toNat_inj]

end Bits

end PacketSmith
