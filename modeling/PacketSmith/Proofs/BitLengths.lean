import PacketSmith.Proofs.Packet.BitStrings
import PacketSmith.Symbolic.Operand

/-!
# The number of bits of a constant

The width of a constant is looked for in two loops. The first leaves a width that is too small, or one, below a width
that has room (`roomFrom_spec`), and the second halves what lies between them (`narrowest_spec`). In both, no width
below the lower one has room for the number, whatever its size. So the width is exact (`bitLength_eq`), and a constant
keeps its value.
-/

namespace PacketSmith

variable {n last width least most : Nat}

theorem narrowest_spec (hpos : 0 < least) (hle : least ≤ most) (hlow : 2 ^ (least - 1) ≤ n) (hhigh : n < 2 ^ most) :
    0 < narrowest n least most ∧ 2 ^ (narrowest n least most - 1) ≤ n ∧ n < 2 ^ narrowest n least most := by
  fun_induction narrowest n least most with
  | case1 least most hlt middle hroom ih => exact ih hpos (by omega) hlow hroom
  | case2 least most hlt middle hroom ih => exact ih (by omega) (by omega) (Nat.not_lt.mp hroom) hhigh
  | case3 least most hge =>
    obtain rfl : least = most := by omega
    exact ⟨hpos, hlow, hhigh⟩

theorem roomFrom_spec (hpos : 0 < last) (hle : last ≤ width) (hlow : 2 ^ (last - 1) ≤ n) :
    0 < (roomFrom n last width).1 ∧ (roomFrom n last width).1 ≤ (roomFrom n last width).2 ∧
      2 ^ ((roomFrom n last width).1 - 1) ≤ n ∧ n < 2 ^ (roomFrom n last width).2 := by
  fun_induction roomFrom n last width with
  | case1 last width hroom => exact ⟨hpos, hle, hlow, hroom⟩
  | case2 last width hroom ih =>
    -- A width that is too small for the number is a lower bound as well.
    have hbelow : 2 ^ (width - 1) ≤ n :=
      Nat.le_trans (Nat.pow_le_pow_right (by decide) (Nat.sub_le width 1)) (Nat.not_lt.mp hroom)
    exact ih (by omega) (by omega) hbelow

theorem bitLength_spec (hn : 0 < n) : 0 < bitLength n ∧ 2 ^ (bitLength n - 1) ≤ n ∧ n < 2 ^ bitLength n := by
  obtain ⟨hpos, hle, hlow, hhigh⟩ := @roomFrom_spec n 1 32 (by decide) (by decide) hn
  rw [bitLength, if_neg (Nat.ne_of_gt hn)]
  exact narrowest_spec hpos hle hlow hhigh

theorem bitLength_eq (n : Nat) : bitLength n = n.log2 + 1 := by
  rcases Nat.eq_zero_or_pos n with rfl | hn
  · rfl
  · obtain ⟨hpos, hlow, hhigh⟩ := bitLength_spec hn
    have hlog : n.log2 = bitLength n - 1 := by
      rw [Nat.log2_eq_iff (Nat.ne_of_gt hn), Nat.sub_add_cancel hpos]
      exact ⟨hlow, hhigh⟩
    omega

theorem bitLength_le_iff : bitLength n ≤ width ↔ 0 < width ∧ n < 2 ^ width := by
  rw [bitLength_eq, Nat.succ_le_iff]
  rcases Nat.eq_zero_or_pos n with rfl | hn
  · rw [Nat.log2_zero, iff_self_and]
    exact fun _ => Nat.two_pow_pos width
  · rw [Nat.log2_lt (Nat.ne_of_gt hn), iff_and_self]
    rintro hfits
    refine Nat.pos_of_ne_zero fun hzero => ?_
    rw [hzero] at hfits
    omega

theorem evalNat_ofInt_of_lt (hfits : n < 2 ^ width) (ρ : Assignment) : (Bits.ofInt n width).evalNat ρ = n := by
  rw [Bits.evalNat_ofInt_natCast, Nat.mod_eq_of_lt hfits]

/-- A constant has exactly the bits that it needs, and one if it is zero. Its term has its value, and a width is accepted
for it exactly if it has room. -/
theorem bitLength_exact (n : Nat) :
    (n = 0 → bitLength n = 1) ∧ (0 < n → 2 ^ (bitLength n - 1) ≤ n ∧ n < 2 ^ bitLength n) ∧
    (∀ env inParser t, ∃ b : Bits, (Symbolic.value env inParser (.hexstr n)).run.run t = (.ok (.bits b), t) ∧
      b.width = bitLength n ∧ ∀ ρ, b.evalNat ρ = n) ∧
    (∀ size : Int, ¬(0 < size ∧ n < 2 ^ size.toNat) → Bits.holding n size = .error .violated) ∧
    ∀ size : Int, 0 < size → n < 2 ^ size.toNat → Bits.holding n size = Bits.constant n (some size) ∧
      (size < Bits.widthLimit → ∃ b : Bits, Bits.constant n (some size) = .ok b ∧ b.width = size ∧
        ∀ ρ, b.evalNat ρ = n) := by
  have hroom (size : Int) : bitLength n ≤ size ↔ 0 < size ∧ n < 2 ^ size.toNat := by
    have hnat := @bitLength_le_iff n size.toNat
    have hpos := bitLength_eq n
    omega
  have hself : n < 2 ^ bitLength n := (bitLength_le_iff.mp le_rfl).2
  refine ⟨fun h => by rw [h]; rfl, fun hn => (bitLength_spec hn).2, fun env inParser t => ?_, fun size hsize => ?_,
    fun size hsize hfits => ⟨?_, fun hlimit => ?_⟩⟩
  · refine ⟨Bits.ofInt n (bitLength n), ?_, rfl, evalNat_ofInt_of_lt hself⟩
    unfold Symbolic.value
    rw [decide_eq_true (Int.natCast_nonneg n)]
    rfl
  · rw [Bits.holding, decide_eq_false (mt (hroom size).mp hsize)]
    rfl
  · rw [Bits.holding, decide_eq_true ((hroom size).mpr ⟨hsize, hfits⟩)]
    rfl
  · have hwidth : Bits.widthOf (some size) = .ok size.toNat := if_pos ⟨hsize, hlimit⟩
    refine ⟨Bits.ofInt n size.toNat, by rw [Bits.constant, hwidth]; rfl, Int.toNat_of_nonneg (Int.le_of_lt hsize),
      evalNat_ofInt_of_lt hfits⟩

end PacketSmith
