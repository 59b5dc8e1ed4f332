import PacketSmith.Proofs.BitLengths
import PacketSmith.Proofs.TakenEdges

/-!
# The meaning of expressions

An operand means a number of some bits or a truth value. The reference for expressions is unsigned
arithmetic: operands are brought to the greater of their widths, results are taken modulo a power of
two, and comparisons are those of natural numbers (`evaluate`). The terms of expressions have these
values under every assignment, unless an operand with its top bit set is shifted to the right: the
places that become free repeat the top bit (`Symbolic.value_unsigned`).
-/

namespace PacketSmith

open Symbolic BitVec Bits Operand Value

/-- A number of `w` bits, a truth value, or nothing where a field has no value. -/
inductive Meaning where
  | number (n w : Nat)
  | truth (b : Bool)
  | nothing
deriving DecidableEq

def Value.meaning (ρ : Assignment) : Value → Meaning
  | .bits b => .number (b.evalNat ρ) b.width
  | .formula f => .truth (f.eval ρ)
  | .absent => .nothing

/-! ## The reference -/

namespace Meaning

/-- An operator on numbers of `w` bits. A number with its top bit set is not shifted to the right. -/
def arithmetic (w a b : Nat) : String → Except Fault Meaning
  | "==" => .ok (.truth (a == b))
  | "!=" => .ok (.truth (a != b))
  | "<" => .ok (.truth (decide (a < b)))
  | "<=" => .ok (.truth (decide (a ≤ b)))
  | ">" => .ok (.truth (decide (a > b)))
  | ">=" => .ok (.truth (decide (a ≥ b)))
  | "&" => .ok (.number (a &&& b) w)
  | "|" => .ok (.number (a ||| b) w)
  | "^" => .ok (.number (a ^^^ b) w)
  | "+" => .ok (.number ((a + b) % 2 ^ w) w)
  | "-" => .ok (.number ((2 ^ w - b + a) % 2 ^ w) w)
  | "*" => .ok (.number (a * b % 2 ^ w) w)
  | "<<" => .ok (.number (a * 2 ^ b % 2 ^ w) w)
  | ">>" => if a < 2 ^ (w - 1) ∨ b = 0 then .ok (.number (a / 2 ^ b) w) else .error .outOfRange
  | _ => .error .wrongKind

def binary (name : String) : Meaning → Meaning → Except Fault Meaning
  | .number a v, .number b w => arithmetic (max v w) a b name
  | .truth a, .truth b =>
    match name with
    | "and" => .ok (.truth (a && b))
    | "or" => .ok (.truth (a || b))
    | _ => .error .wrongKind
  | _, _ => .error .wrongKind

def unary : String → Meaning → Except Fault Meaning
  | "not", .truth b => .ok (.truth !b)
  | "~", .number n w => .ok (.number (2 ^ w - 1 - n) w)
  | "b2d", .truth b => .ok (.number b.toNat 1)
  | "d2b", .number n w => .ok (.truth (n == 1 % 2 ^ w))
  | "d2b", .nothing => .ok (.truth false)
  | _, _ => .error .wrongKind

def choose : Meaning → Meaning → Meaning → Except Fault Meaning
  | .truth c, .number a v, .number b w => .ok (.number (if c then a else b) (max v w))
  | _, _, _ => .error .wrongKind

def combine (name : String) (cond left right : Symbolic Meaning) : Symbolic Meaning :=
  match name with
  | "not" | "~" | "b2d" | "d2b" => do lift (unary name (← right))
  | "?" => do
    let c ← cond
    let a ← left
    lift (choose c a (← right))
  | _ => do
    let a ← left
    lift (binary name a (← right))

end Meaning

/-- The value of an operand in unsigned arithmetic. What is neither a constant nor an operator is
read as it stands in the symbolic state. -/
def evaluate (env : Setting) (inParser : Bool) (ρ : Assignment) : Operand → Symbolic Meaning
  | .hexstr n => return .number n.toNat (n.toNat.log2 + 1)
  | .bool b => return .truth b.truth
  | .expression op cond left right =>
    match op with
    | .str name =>
      if name = "valid" then return (← value env inParser (.expression op cond left right)).meaning ρ
      else Meaning.combine name
        (match cond with
          | some c => evaluate env inParser ρ c
          | none => throw absentOperand)
        (match left with
          | some l => evaluate env inParser ρ l
          | none => throw absentOperand)
        (evaluate env inParser ρ right)
    | _ => throw (unsupported (.expression op cond left right))
  | v => do return (← value env inParser v).meaning ρ

/-! ## Steps with their meaning -/

section Means

variable {α β : Type} {f : α → β}

/-- Whenever the first step gives a result, the second gives its meaning and ends in the same state,
or shifts a number with its top bit set to the right. -/
def Means (f : α → β) (m : Symbolic α) (m' : Symbolic β) : Prop :=
  ∀ t a u, m.result t = (.ok a, u) →
    m'.result t = (.ok (f a), u) ∨ (m'.result t).1 = .error .outOfRange

namespace Means

theorem pure (a : α) : Means f (Pure.pure a) (Pure.pure (f a)) := by
  intro t a' u h
  cases h
  exact .inl rfl

theorem map (m : Symbolic α) : Means f m (m >>= fun a => Pure.pure (f a)) := by
  intro t a u h
  rw [result_bind_ok h]
  exact .inl rfl

theorem throw (e : Fault) (m : Symbolic β) : Means f (MonadExcept.throw e : Symbolic α) m := by
  intro t a u h
  cases h

theorem lift (h : ∀ a, e = .ok a → e' = .ok (f a) ∨ e' = .error .outOfRange) : Means f (lift e) (lift e') := by
  intro t a u hresult
  obtain ⟨he, rfl⟩ := result_lift_inv hresult
  rcases h a he with h | h
  · exact .inl (by rw [h]; rfl)
  · exact .inr (by rw [h]; rfl)

theorem bind (hm : Means f m m') (hk : ∀ a, Means g (k a) (k' (f a))) : Means g (m >>= k) (m' >>= k') := by
  intro t c u h
  obtain ⟨a, t', ha, h⟩ := result_bind_inv h
  rcases hm t a t' ha with hm | hm
  · rw [result_bind_ok hm]
    exact hk a t' c u h
  · exact .inr (by rw [result_bind_error (Prod.ext hm rfl)])

end Means

end Means

/-! ## Operators on terms -/

namespace Bits

variable (ρ : Assignment) (a b : Bits)

theorem evalNat_arithWide (op : BinOp) :
    (a.arithWide op b).evalNat ρ = (op.eval (BitVec.ofNat (max a.width b.width) (a.evalNat ρ))
      (BitVec.ofNat (max a.width b.width) (b.evalNat ρ))).toNat := by
  rw [← eval_atWidth ρ (Nat.le_max_left a.width b.width), ← eval_atWidth ρ (Nat.le_max_right a.width b.width),
    ofNat_toNat, ofNat_toNat, setWidth_eq, setWidth_eq]
  rfl

theorem eval_relWide_ult : (a.relWide .ult b).eval ρ = decide (a.evalNat ρ < b.evalNat ρ) := by
  rw [← eval_atWidth ρ (Nat.le_max_left a.width b.width), ← eval_atWidth ρ (Nat.le_max_right a.width b.width)]
  rfl

theorem eval_relWide_ule : (a.relWide .ule b).eval ρ = decide (a.evalNat ρ ≤ b.evalNat ρ) := by
  rw [← eval_atWidth ρ (Nat.le_max_left a.width b.width), ← eval_atWidth ρ (Nat.le_max_right a.width b.width)]
  rfl

theorem choose_equalize (c : Formula) : ∃ v, choose c (a.equalize b).1 (a.equalize b).2 = .ok v ∧
    v.width = max a.width b.width ∧ v.evalNat ρ = if c.eval ρ then a.evalNat ρ else b.evalNat ρ := by
  refine ⟨⟨_, .choose c (a.atWidth _) (b.atWidth _)⟩, dif_pos rfl, rfl, ?_⟩
  rw [← eval_atWidth ρ (Nat.le_max_left a.width b.width), ← eval_atWidth ρ (Nat.le_max_right a.width b.width)]
  exact apply_ite BitVec.toNat _ _ _

end Bits

namespace BinOp

variable {w : Nat} (a b : BitVec w)

theorem toNat_shl : (shl.eval a b).toNat = a.toNat * 2 ^ b.toNat % 2 ^ w := by
  rw [eval]
  split
  · rw [toNat_shiftLeft, Nat.shiftLeft_eq]
  · next h =>
    have hdvd : 2 ^ w ∣ a.toNat * 2 ^ b.toNat := Dvd.dvd.mul_left (Nat.pow_dvd_pow 2 (not_lt.mp h)) _
    rw [Nat.mod_eq_zero_of_dvd hdvd]
    rfl

theorem toNat_ashr (h : a.toNat < 2 ^ (w - 1) ∨ b.toNat = 0) : (ashr.eval a b).toNat = a.toNat / 2 ^ b.toNat := by
  rw [eval]
  rcases h with h | h
  · have hmsb : a.msb = false := by simpa [msb_eq_decide] using h
    rw [sshiftRight_eq_of_msb_false hmsb, toNat_ushiftRight, Nat.shiftRight_eq_div_pow]
    rcases le_total b.toNat w with hle | hle
    · rw [Nat.min_eq_left hle]
    · rw [Nat.min_eq_right hle, Nat.div_eq_of_lt a.isLt,
        Nat.div_eq_of_lt (lt_of_lt_of_le a.isLt (Nat.pow_le_pow_right (by omega) hle))]
  · simp [h]

end BinOp

namespace Operand

variable (ρ : Assignment)

theorem binary?_meaning (h : binary? name = some f) (a b : Bits) : Meaning.arithmetic (max a.width b.width)
    (a.evalNat ρ) (b.evalNat ρ) name = .ok ((f a b).meaning ρ) ∨ Meaning.arithmetic (max a.width b.width)
    (a.evalNat ρ) (b.evalNat ρ) name = .error .outOfRange := by
  have ha : (BitVec.ofNat (max a.width b.width) (a.evalNat ρ)).toNat = a.evalNat ρ := by
    rw [← Bits.eval_atWidth ρ (Nat.le_max_left a.width b.width), BitVec.ofNat_toNat, BitVec.setWidth_eq]
  have hb : (BitVec.ofNat (max a.width b.width) (b.evalNat ρ)).toNat = b.evalNat ρ := by
    rw [← Bits.eval_atWidth ρ (Nat.le_max_right a.width b.width), BitVec.ofNat_toNat, BitVec.setWidth_eq]
  have heq : (a.relWide .eq b).eval ρ = (a.evalNat ρ == b.evalNat ρ) := by
    rw [Bool.eq_iff_iff, Bits.eval_relWide_eq, beq_iff_eq]
  unfold binary? at h
  split at h <;> cases h
  case h_14 =>
    by_cases hclear : a.evalNat ρ < 2 ^ (max a.width b.width - 1) ∨ b.evalNat ρ = 0
    · rw [← ha, ← hb] at hclear
      have hshift := BinOp.toNat_ashr _ _ hclear
      rw [← Bits.evalNat_arithWide, ha, hb] at hshift
      rw [ha, hb] at hclear
      exact .inl (by rw [Meaning.arithmetic, if_pos hclear, ← hshift]; rfl)
    · exact .inr (if_neg hclear)
  all_goals left
  case h_13 =>
    simp only [Meaning.arithmetic, Value.meaning, Bits.width_arithWide, Bits.evalNat_arithWide, BinOp.toNat_shl, ha, hb]
  all_goals simp only [Meaning.arithmetic, Value.meaning, Term.eval, heq, bne, Bits.eval_relWide_ult,
    Bits.eval_relWide_ule, gt_iff_lt, ge_iff_le, Bits.width_arithWide, Bits.evalNat_arithWide, BinOp.eval,
    BitVec.toNat_and, BitVec.toNat_or, BitVec.toNat_xor, BitVec.toNat_add, BitVec.toNat_sub, BitVec.toNat_mul, ha, hb]

theorem unary?_meaning (h : unary? name = some f) (hw : f v = .ok w) :
    Meaning.unary name (v.meaning ρ) = .ok (w.meaning ρ) := by
  unfold unary? at h
  split at h <;> cases h <;> cases v <;> cases hw
  case h_3.refl.bits.refl b =>
    simp [Meaning.unary, Value.meaning, Term.eval, Bits.evalNat, Bits.relInt, Relation.eval, ← BitVec.toNat_inj]
  case h_4.refl.formula.refl f =>
    simp only [Meaning.unary, Value.meaning, Term.eval, Bits.evalNat]
    cases f.eval ρ <;> rfl
  all_goals simp [Meaning.unary, Value.meaning, Term.eval, Bits.evalNat]

end Operand

/-! ## Expressions -/

namespace Symbolic

variable {ρ : Assignment}

theorem combine_of_unary (h : unary? name = some f) (cond left right : Symbolic Meaning) :
    Meaning.combine name cond left right = right >>= fun v => lift (Meaning.unary name v) := by
  unfold unary? at h
  split at h <;> first | rfl | cases h

theorem combine_of_binary
    (hunary : unary? name = none) (hname : name ≠ "?") (cond left right : Symbolic Meaning) :
    Meaning.combine name cond left right = left
      >>= fun a => right >>= fun b => lift (Meaning.binary name a b) := by
  unfold Meaning.combine
  split <;> first | exact absurd rfl hname | cases hunary | rfl

theorem operator_means
    (o : Options) (operand : Operand) (hname : name ≠ "valid") {cond left right : Symbolic Value}
    {cond' left' right' : Symbolic Meaning} (hcond : Means (meaning ρ) cond cond')
    (hleft : Means (meaning ρ) left left') (hright : Means (meaning ρ) right right') :
    Means (meaning ρ) (operator o (.str name) operand cond left right)
      (Meaning.combine name cond' left' right') := by
  unfold operator
  dsimp only
  cases hconn : connective? name with
  | some conn =>
    unfold connective? at hconn
    split at hconn <;> cases hconn
    all_goals
      refine .bind hleft fun a => .bind hright fun b => ?_
      intro t x u h
      cases a <;> cases b <;> cases h
      exact .inl rfl
  | none =>
    cases hunary : unary? name with
    | some f =>
      rw [combine_of_unary hunary]
      refine .bind hright fun v => ?_
      exact .lift fun w hw => .inl (unary?_meaning ρ hunary hw)
    | none =>
      cases hbinary : binary? name with
      | some f =>
        have hne : name ≠ "?" := by
          rintro rfl
          cases hbinary
        rw [combine_of_binary hunary hne]
        refine .bind hleft fun a => .bind hright fun b => ?_
        intro t x u h
        cases a <;> cases b <;> cases h
        next a b =>
          have hmeaning : Means (meaning ρ) (lift (.ok (f a b)))
              (lift (Meaning.binary name (.number _ _) (.number _ _))) :=
            .lift fun v hv => Except.ok.inj hv ▸ binary?_meaning ρ hbinary a b
          exact hmeaning t _ t rfl
      | none =>
        dsimp only
        split
        · next h => exact absurd (beq_iff_eq.mp h) hname
        · split
          · next h =>
            obtain rfl := beq_iff_eq.mp h
            refine .bind hcond fun c => .bind hleft fun a => .bind hright fun b => ?_
            intro t x u h
            rcases a with a | _ | _ <;> rcases b with b | _ | _ <;> rcases c with _ | c | _ <;> try cases h
            obtain ⟨v, hv, hwidth, hvalue⟩ := choose_equalize ρ a b c
            change (lift (choose c (a.equalize b).1 (a.equalize b).2) >>= _).result t = _ at h
            rw [hv] at h
            cases h
            simp only [meaning, hwidth, hvalue]
            exact .inl rfl
          · exact .throw _ _

theorem value_means (env : Setting) (inParser : Bool) :
    ∀ v : Operand, Means (meaning ρ) (value env inParser v) (evaluate env inParser ρ v)
  | .hexstr n => by
    unfold value evaluate
    by_cases hn : 0 ≤ n
    · obtain ⟨k, rfl⟩ := Int.eq_ofNat_of_zero_le hn
      have hmeaning : meaning ρ (.bits (ofInt k (bitLength k))) = .number k (k.log2 + 1) := by
        rw [meaning, evalNat_ofInt_natCast, width_ofInt, bitLength_eq,
          Nat.mod_eq_of_lt Nat.lt_log2_self]
      exact hmeaning ▸ .pure _
    · rw [decide_eq_false hn]
      exact .throw _ _
  | .bool b => by
    unfold value evaluate
    exact .pure _
  | .expression op cond left right => by
    unfold evaluate
    cases op with
    | str name =>
      dsimp only
      split
      · exact .map _
      · next hname =>
        unfold value
        refine operator_means env.options right hname ?_ ?_ (value_means env inParser right)
        · cases cond with
          | some c => exact value_means env inParser c
          | none => exact .throw _ _
        · cases left with
          | some l => exact value_means env inParser l
          | none => exact .throw _ _
    | _ =>
      unfold value
      exact .throw _ _
  | .field _ _ | .stackField _ _ | .lookahead _ _ | .runtimeData _ | .header _ | .stack _ | .headerStack _
  | .calculation _ | .counterArray _ | .meterArray _ | .registerArray _ | .regular _ | .externInstance _ => by
    unfold evaluate
    exact .map _

/-- The term of an expression has the value of the expression in unsigned arithmetic, unless an
operand with its top bit set is shifted to the right. -/
theorem value_unsigned {env : Setting} {inParser : Bool} {v : Operand} {t u : SymbolicState} {x : Value}
    (h : (value env inParser v).result t = (.ok x, u)) (ρ : Assignment) :
    (evaluate env inParser ρ v).result t = (.ok (x.meaning ρ), u) ∨
      ((evaluate env inParser ρ v).result t).1 = .error .outOfRange :=
  value_means env inParser v t x u h

end Symbolic

namespace Shifting

def setting : Setting := ⟨{}, ⟨none, none, {}, {}, {}, ⟨{}, {}⟩, {}, {}, {}, {}⟩, default, {}⟩

def right (n m : Int) : Operand := .expression (.str ">>") none (some (.hexstr n)) (.hexstr m)

/-- A choice between a shift and a difference. -/
def choice : Operand :=
  .expression (.str "?") (some (.expression (.str "<") none (some (.hexstr 5)) (.hexstr 6))) (some (right 3 4))
    (.expression (.str "-") none (some (.hexstr 1)) (.hexstr 2))

end Shifting

theorem Symbolic.value_unsigned_choice :
    ∃ x, (value Shifting.setting false Shifting.choice).result {} = (.ok x, {}) ∧
      x.meaning (fun _ _ => 0) = .number 0 3 := by
  have hvalue : (value Shifting.setting false Shifting.choice).result {} = (.ok _, {}) := rfl
  refine ⟨_, hvalue, ?_⟩
  rcases value_unsigned hvalue (fun _ _ => 0) with h | h
  · exact (Except.ok.inj (congrArg Prod.fst h)).symm
  · cases h

/-- A constant has its top bit set, and the shift repeats it. -/
theorem Symbolic.value_shifted_top_bit :
    ∃ x, (value Shifting.setting false (Shifting.right 4 1)).result {} = (.ok x, {}) ∧
      x.meaning (fun _ _ => 0) = .number 6 3 ∧ 4 / 2 ^ 1 ≠ 6 :=
  ⟨_, rfl, rfl, by decide⟩

end PacketSmith
