import PacketSmith.Term.Basic

/-!
# Values that depend on no variable

`Term.fold` finds the value of a term that has the same value under every assignment, as far as constants and a few
laws show it.
-/

namespace PacketSmith.Term

def foldConn : Connective → Option Bool → Option Bool → Option Bool
  | .and, some false, _ => some false
  | .and, _, some false => some false
  | .or, some true, _ => some true
  | .or, _, some true => some true
  | op, some a, some b => some (op.eval a b)
  | _, _, _ => none

def foldArith {w : Nat} : BinOp → Option (BitVec w) → Option (BitVec w) → Option (BitVec w)
  | op, some a, some b => some (op.eval a b)
  | .and, some a, none => if a = 0 then some 0 else none
  | .and, none, some b => if b = 0 then some 0 else none
  | .mul, some a, none => if a = 0 then some 0 else none
  | .mul, none, some b => if b = 0 then some 0 else none
  | .or, some a, none => if a = BitVec.allOnes w then some a else none
  | .or, none, some b => if b = BitVec.allOnes w then some b else none
  | _, _, _ => none

def foldChoose {α : Type} [DecidableEq α] : Option Bool → Option α → Option α → Option α
  | some true, a, _ => a
  | some false, _, b => b
  | none, some a, some b => if a = b then some a else none
  | none, _, _ => none

def fold : {k : Kind} → Term k → Option k.Val
  | _, .var _ _ => none
  | _, .const x => some x
  | _, .truth b => some b
  | _, .not a => (a.fold).map (!·)
  | _, .conn op a b => foldConn op a.fold b.fold
  | _, .rel op a b =>
    match a.fold, b.fold with
    | some x, some y => some (op.eval x y)
    | _, _ => none
  | _, .arith op a b => foldArith op a.fold b.fold
  | _, .flip a => (a.fold).map (~~~·)
  | .bool, .choose c a b => foldChoose c.fold a.fold b.fold
  | .bits _, .choose c a b => foldChoose c.fold a.fold b.fold
  | _, .resize v a => (a.fold).map (·.setWidth v)
  | _, .concat a b =>
    match a.fold, b.fold with
    | some x, some y => some (x ++ y)
    | _, _ => none

/-! ## Soundness -/

theorem foldConn_sound {op : Connective} {a b : Option Bool} {x y v : Bool}
    (ha : ∀ u, a = some u → x = u) (hb : ∀ u, b = some u → y = u)
    (h : foldConn op a b = some v) : op.eval x y = v := by
  cases op <;> cases a <;> cases b <;>
    simp_all [foldConn, Connective.eval] <;> grind [foldConn, Connective.eval]

theorem foldArith_sound {w : Nat} {op : BinOp} {a b : Option (BitVec w)} {x y v : BitVec w}
    (ha : ∀ u, a = some u → x = u) (hb : ∀ u, b = some u → y = u)
    (h : foldArith op a b = some v) : op.eval x y = v := by
  cases a with
  | none =>
    cases b with
    | none => cases op <;> simp [foldArith] at h
    | some b =>
      obtain rfl := hb b rfl
      cases op <;> simp [foldArith] at h <;> obtain ⟨rfl, rfl⟩ := h <;> simp [BinOp.eval]
  | some a =>
    obtain rfl := ha a rfl
    cases b with
    | none => cases op <;> simp [foldArith] at h <;> obtain ⟨rfl, rfl⟩ := h <;> simp [BinOp.eval]
    | some b =>
      obtain rfl := hb b rfl
      cases op <;> simpa [foldArith] using h

theorem foldChoose_sound {α : Type} [DecidableEq α] {c : Option Bool} {a b : Option α} {t : Bool}
    {x y v : α} (hc : ∀ u, c = some u → t = u) (ha : ∀ u, a = some u → x = u)
    (hb : ∀ u, b = some u → y = u) (h : foldChoose c a b = some v) :
    (if t then x else y) = v := by
  cases c with
  | some u =>
    obtain rfl := hc u rfl
    cases t
    · simpa using hb v (by simpa [foldChoose] using h)
    · simpa using ha v (by simpa [foldChoose] using h)
  | none =>
    cases a <;> cases b <;> simp [foldChoose] at h
    obtain ⟨rfl, rfl⟩ := h
    rw [ha _ rfl, hb _ rfl]
    simp

theorem eval_of_fold (ρ : Assignment) {k : Kind} (t : Term k) :
    ∀ v, t.fold = some v → t.eval ρ = v := by
  induction t with
  | var => intro v h; simp [fold] at h
  | const x => intro v h; simpa [fold, eval] using h
  | truth b => intro v h; simpa [fold, eval] using h
  | not a ih =>
    intro v h
    obtain ⟨u, hu, rfl⟩ := Option.map_eq_some_iff.1 h
    simp [eval, ih u hu]
  | conn op a b iha ihb => exact fun v h => foldConn_sound iha ihb h
  | rel op a b iha ihb =>
    intro v h
    simp only [fold] at h
    split at h
    · rename_i x y hx hy
      obtain rfl := Option.some.inj h
      simp [eval, iha x hx, ihb y hy]
    · simp at h
  | arith op a b iha ihb => exact fun v h => foldArith_sound iha ihb h
  | flip a ih =>
    intro v h
    obtain ⟨u, hu, rfl⟩ := Option.map_eq_some_iff.1 h
    simp [eval, ih u hu]
  | @choose k c a b ihc iha ihb =>
    cases k with
    | bool => exact fun v h => foldChoose_sound ihc iha ihb h
    | bits w => exact fun v h => foldChoose_sound ihc iha ihb h
  | resize v a ih =>
    intro u h
    obtain ⟨x, hx, rfl⟩ := Option.map_eq_some_iff.1 h
    simp [eval, ih x hx]
  | concat a b iha ihb =>
    intro v h
    simp only [fold] at h
    split at h
    · rename_i x y hx hy
      obtain rfl := Option.some.inj h
      simp [eval, iha x hx, ihb y hy]
    · simp at h

end PacketSmith.Term
