import PacketSmith.Audit.Expression
import PacketSmith.Proofs.TakenEdges

/-!
# Expressions that pass the check

The check of a program file and the translation know the same operators (`Implemented`), and a bit vector or a truth
value that the check finds is what the translation gives (`value_of_checked`). They differ where the operands of an
equality or of a choice are truth values: the check takes them, and the translation asks for their widths
(`equality_of_truths`).
-/

namespace PacketSmith

open Symbolic Except Json Bits

variable {c : Context} {o : Options} {α β : Type}

/-! ## Reading fields -/

namespace Context

/-- The field has a value, or it was declared and not set. A field of metadata that is part of the input is set when
it is read, so its header must not say that it is invalid. -/
def Readable (c : Context) (ref : FieldRef) : Prop :=
  (∃ b, c.values.get? ref = some (some b)) ∨ (c.values.get? ref = none ∧
    ∃ info w, c.fields.get? ref = some info ∧ widthOf info.size = .ok w ∧
      (info.metadata = true → c.values.get? (ref.1, valid) = none ∧ c.fields.get? (ref.1, valid) = none))

/-- A header whose validity has no value counts as invalid. -/
def Known (c : Context) (header : Label) : Prop :=
  ∃ v, c.values.get? (header, valid) = some v ∧ ∀ b, v = some b → b.width = 1

/-- Fields that were declared and not set may have got a value. -/
structure Extends (c t : Context) : Prop where
  fields : t.fields = c.fields
  values : ∀ ref, t.values.get? ref = c.values.get? ref ∨
    (c.values.get? ref = none ∧ (c.fields.get? ref).isSome = true ∧ ∃ b, t.values.get? ref = some (some b))

theorem Extends.of_some (h : c.Extends t) (hv : c.values.get? ref = some v) : t.values.get? ref = some v := by
  rcases h.values ref with heq | ⟨hnone, -⟩
  · rw [heq, hv]
  · rw [hnone] at hv
    cases hv

theorem Extends.put (h : c.Extends t) (hnone : t.values.get? ref = none) (hdeclared : (c.fields.get? ref).isSome = true)
    (b : Bits) : c.Extends (t.put ref (some b)) := by
  refine ⟨h.fields, fun ref' => ?_⟩
  rw [Context.put, Dict.get?_insert]
  split
  · next heq =>
    subst heq
    rcases h.values ref with heq | ⟨-, -, b', hb'⟩
    · exact .inr ⟨heq.symm.trans hnone, hdeclared, b, rfl⟩
    · rw [hnone] at hb'
      cases hb'
  · exact h.values ref'

theorem write_unguarded (h : c.values.get? (ref.1, valid) = none) (v : Option Bits) :
    c.write o ref v = .ok (c.put ref v) := by
  rw [write, validityIs, h]
  change (if (decide (ref.2 ≠ valid) && false) = true then _ else ok (c.put ref v)) = _
  rw [Bool.and_false, if_neg Bool.false_ne_true]

end Context

open Context

theorem Symbolic.read_of_value (h : s.context.values.get? ref = some v) : (read o ref).result s = (.ok v, s) := by
  rw [read, result_bind_ok (show context.result s = (.ok s.context, s) from rfl), h]
  rfl

/-! ## Steps that succeed -/

/-- From every context that extends the given one the step gives a result of which the property holds, and only
extends the context. -/
def Succeeds (c : Context) (m : Symbolic α) (P : α → Prop) : Prop :=
  ∀ s : SymbolicState, c.Extends s.context → ∃ a u, m.result s = (.ok a, u) ∧ P a ∧ c.Extends u.context

namespace Succeeds

theorem pure {P : α → Prop} (h : P a) : Succeeds c (Pure.pure a) P := fun s hs => ⟨a, s, rfl, h, hs⟩

theorem lift {P : α → Prop} (h : ∃ a, e = .ok a ∧ P a) : Succeeds c (lift e) P := by
  obtain ⟨a, rfl, ha⟩ := h
  exact fun s hs => ⟨a, s, rfl, ha, hs⟩

theorem bind {m : Symbolic α} {k : α → Symbolic β} {P : α → Prop} {Q : β → Prop} (hm : Succeeds c m P)
    (hk : ∀ a, P a → Succeeds c (k a) Q) : Succeeds c (m >>= k) Q := by
  intro s hs
  obtain ⟨a, u, hresult, ha, hu⟩ := hm s hs
  rw [result_bind_ok hresult]
  exact hk a ha u hu

theorem mono {m : Symbolic α} {P Q : α → Prop} (hm : Succeeds c m P) (h : ∀ a, P a → Q a) : Succeeds c m Q := by
  intro s hs
  obtain ⟨a, u, hresult, ha, hu⟩ := hm s hs
  exact ⟨a, u, hresult, h a ha, hu⟩

theorem read (h : c.Readable ref) : Succeeds c (read o ref) fun v => v.isSome = true := by
  intro s hs
  have hcontext : ∀ s, context.result s = (.ok s.context, s) := fun _ => rfl
  cases hvalue : s.context.values.get? ref with
  | some v =>
    refine ⟨v, s, read_of_value hvalue, ?_, hs⟩
    rcases h with ⟨b, hb⟩ | ⟨hnone, -⟩
    · rw [hs.of_some hb] at hvalue
      cases hvalue
      rfl
    · rcases hs.values ref with heq | ⟨-, -, b, hb⟩
      · rw [heq, hnone] at hvalue
        cases hvalue
      · rw [hb] at hvalue
        cases hvalue
        rfl
  | none =>
    obtain ⟨b, hb⟩ | ⟨hnone, info, w, hinfo, hw, hmeta⟩ := h
    · rw [hs.of_some hb] at hvalue
      cases hvalue
    obtain ⟨v, shifts, hnew⟩ : ∃ v shifts, PacketSmith.newVariable o.randomize
        (freshName ref (s.fresh + 1)) info.size = .ok (v, shifts) := by
      rw [PacketSmith.newVariable, Bits.named, hw]
      cases o.randomize <;> exact ⟨_, _, rfl⟩
    rw [Symbolic.read, Symbolic.result_bind_ok (hcontext s), hvalue]
    simp only [result_bind_ok (hcontext s), hs.fields, hinfo]
    let u : SymbolicState := { s with
      fresh := s.fresh + 1, context.displacements := s.context.displacements ++ shifts }
    have hu : c.Extends u.context := ⟨hs.fields, hs.values⟩
    have hmade : (Symbolic.newVariable o (freshName ref (s.fresh + 1)) info.size).result
        { s with fresh := s.fresh + 1 } = (.ok v, u) := by
      rw [Symbolic.newVariable, hnew]
      rfl
    rw [result_bind_ok (show nextFresh.result s = (.ok (s.fresh + 1), _) from rfl),
      result_bind_ok hmade]
    split
    · next hsolve =>
      obtain ⟨hunset, hundeclared⟩ := hmeta (Bool.and_eq_true_iff.mp hsolve).1
      have hvalid : u.context.values.get? (ref.1, valid) = none := by
        rcases hs.values (ref.1, valid) with heq | ⟨-, hdeclared, -⟩
        · exact heq.trans hunset
        · rw [hundeclared] at hdeclared
          cases hdeclared
      have hwrite : (Symbolic.write o ref (some v)).result u =
          (.ok (), { u with context := u.context.put ref (some v) }) := by
        rw [Symbolic.write, Symbolic.result_bind_ok (hcontext u), write_unguarded hvalid]
        rfl
      have hput : (u.context.put ref (some v)).values.get? ref = some (some v) := by
        rw [Context.put, Dict.get?_insert, if_pos rfl]
      have hext := hu.put hvalue (by rw [hinfo]; rfl) v
      rw [result_bind_ok hwrite, modifyContext, result_bind_ok (result_modify _ _),
        result_bind_ok (hcontext _)]
      rw [hput]
      exact ⟨some v, _, rfl, rfl, hext.fields, hext.values⟩
    · split
      · refine ⟨some (Bits.ofInt 0 w), u, ?_, rfl, hu⟩
        rw [Bits.constant, hw]
        rfl
      · exact ⟨some v, _, rfl, rfl, hu.fields, hu.values⟩

end Succeeds

/-! ## Expressions -/

/-- A value with its type. -/
structure Json.Tagged (e : Json) (type : String) (v : Json) : Prop where
  type : e.get "type" = .ok (.str type)
  value : e.get "value" = .ok v

/-- The value of an expression, without a type of its own, that applies an operator. -/
structure Applies (e : Json) (op : String) (v right : Json) : Prop extends e.Tagged "expression" v where
  untyped : v.holds "type" = .ok false
  op : v.get "op" = .ok (.str op)
  right : v.get "right" = .ok right

/-- Expressions over the operators that are translated. Their fields can be read, and the operands of an equality or
of a choice are no truth values. -/
inductive Implemented (c : Context) : Json → Prop
  | hexstr {e v : Json} : e.Tagged "hexstr" v → v.toHexInt = .ok n → 0 ≤ n → Implemented c e
  | bool {e v : Json} : e.Tagged "bool" v → Implemented c e
  | field {e v h f : Json} {header name : Label} : e.Tagged "field" v → v.elem 0 = .ok h → v.elem 1 = .ok f →
    h.key = .ok header → f.key = .ok name → c.Readable (header, name) → Implemented c e
  | nested {e v : Json} : e.Tagged "expression" v → v.holds "type" = .ok true → Implemented c v → Implemented c e
  | valid {e v r h : Json} {header : Label} : Applies e "valid" v r → v.holds "cond" = .ok false →
    r.Tagged "header" h → h.key = .ok header → c.Known header → Implemented c e
  | unary {e v r : Json} {op : String} : Applies e op v r → v.holds "cond" = .ok false →
    (Operand.unary? op).isSome = true → Implemented c r → Implemented c e
  | binary {e v r l : Json} {op : String} : Applies e op v r → v.holds "cond" = .ok false → v.get "left" = .ok l →
    ((Operand.connective? op).isSome || (Operand.binary? op).isSome) = true →
    (op = "==" ∨ op = "!=" → ∀ n, Audit.Kind.upTo n l ≠ .ok .truth) → Implemented c l → Implemented c r →
    Implemented c e
  | choice {e v r q l : Json} : Applies e "?" v r → v.get "cond" = .ok q → v.get "left" = .ok l →
    (∀ n, Audit.Kind.upTo n l ≠ .ok .truth) → Implemented c q → Implemented c l → Implemented c r → Implemented c e

inductive Value.HasKind : Value → Audit.Kind → Prop
  | bits (b : Bits) : HasKind (.bits b) .bits
  | truth (f : Formula) : HasKind (.formula f) .truth

theorem Json.holds_of_get {v : Json} (h : v.get name = .ok x) : v.holds name = .ok true := by
  unfold get at h
  split at h
  · split at h
    · next hfound => rw [holds, hfound]; rfl
    · cases h
  · cases h

/-! ## What the check finds -/

namespace Audit.Kind

variable {e v l r : Json} {k : Kind} {n : Nat} {kindOf : Json → Except Rejection Kind}

theorem shape_eq_ok {m : Except Fault α} : shape m = .ok a ↔ m = .ok a := by
  cases m <;> simp [shape, Except.mapError]

theorem kindOf_bind_ok {rest : Kind → Except Rejection Kind}
    (h : (do rest (← kindOf (← shape (v.get part)))) = .ok k) (hx : v.get part = .ok x) :
    ∃ found, kindOf x = .ok found ∧ rest found = .ok k := by
  rw [hx] at h
  exact bind_eq_ok.mp h

theorem expect_bind_ok {rest : Except Rejection Kind} (h : (do expect operand expected found e; rest) = .ok k) :
    found = expected ∧ rest = .ok k := by
  obtain ⟨_, hexpect, hrest⟩ := bind_eq_ok.mp h
  rw [expect] at hexpect
  split at hexpect
  · next heq => exact ⟨heq, hrest⟩
  · cases hexpect

theorem upTo_typed (h : upTo n e = .ok k) (ht : e.get "type" = .ok t) : ∃ n', n = n' + 1 ∧
    ofTyped (upTo n') e = .ok k := by
  cases n with
  | zero => cases h
  | succ n =>
    rw [upTo, holds_of_get ht] at h
    exact ⟨n, rfl, h⟩

theorem upTo_nested (h : upTo n e = .ok k) (ht : e.Tagged "expression" v) : ∃ n', n = n' + 1 ∧ upTo n' v = .ok k := by
  obtain ⟨n, rfl, htyped⟩ := upTo_typed h ht.type
  rw [ofTyped, holds_of_get ht.value, ht.type, ht.value] at htyped
  exact ⟨n, rfl, htyped⟩

theorem upTo_leaf (h : upTo n e = .ok k) (ht : e.Tagged s v) (hleaf : leaves.lookup s = some k') :
    ∃ n', n = n' + 1 ∧ k = k' := by
  obtain ⟨n, rfl, htyped⟩ := upTo_typed h ht.type
  obtain ⟨-, -, htyped⟩ := bind_eq_ok.mp htyped
  rw [ht.type] at htyped
  obtain ⟨_, hshape, htyped⟩ := bind_eq_ok.mp htyped
  cases hshape
  have hs : (str s).str? ≠ some "expression" := by
    rintro ⟨⟩
    cases hleaf
  have hlookup : ((str s).str?.bind fun s => leaves.lookup s) = some k' := hleaf
  rw [if_neg hs, hlookup] at htyped
  cases htyped
  exact ⟨n, rfl, rfl⟩

theorem upTo_applies (h : upTo n e = .ok k) (ha : Applies e op v r) : ∃ n', n = n' + 2 ∧
    ofOperator (upTo n') v = .ok k := by
  obtain ⟨n, rfl, hv⟩ := upTo_nested h ha.toTagged
  cases n with
  | zero => cases hv
  | succ n =>
    rw [upTo, ha.untyped, holds_of_get ha.op] at hv
    exact ⟨n, rfl, hv⟩

theorem ofOperator_ok (h : ofOperator kindOf v = .ok k) (hop : v.get "op" = .ok (.str op))
    (hright : v.get "right" = .ok r) : match signatures.lookup op with
    | some (.unary operand result) => v.get "left" = .ok .null ∧ kindOf r = .ok operand ∧ k = result
    | some (.binary operand result) => ∀ l, v.get "left" = .ok l →
      kindOf l = .ok operand ∧ kindOf r = .ok operand ∧ k = result
    | some .equality => ∀ l, v.get "left" = .ok l → ∃ k', kindOf l = .ok k' ∧ kindOf r = .ok k' ∧ k = truth
    | some .choice => ∀ q l, v.get "cond" = .ok q → v.get "left" = .ok l →
      kindOf q = .ok truth ∧ kindOf l = .ok k ∧ kindOf r = .ok k
    | none => False := by
  obtain ⟨op', hop', h⟩ := bind_eq_ok.mp h
  obtain rfl := ok.inj (hop.symm.trans (shape_eq_ok.mp hop'))
  simp only [str?, Option.bind_some] at h
  split at h
  · cases h
  · next hsig =>
    obtain ⟨_, hleft, hrest⟩ := bind_eq_ok.mp h
    obtain ⟨_, hr, hrest⟩ := kindOf_bind_ok hrest hright
    obtain ⟨rfl, hlast⟩ := expect_bind_ok hrest
    obtain ⟨left, hget, hnull⟩ := bind_eq_ok.mp (shape_eq_ok.mp hleft)
    cases hlast
    refine hsig ▸ ⟨?_, hr, rfl⟩
    cases left <;> first | exact hget | cases hnull
  · next hsig =>
    refine hsig ▸ fun l hl => ?_
    obtain ⟨_, hleft, hrest⟩ := kindOf_bind_ok h hl
    obtain ⟨rfl, hrest⟩ := expect_bind_ok hrest
    obtain ⟨_, hr, hrest⟩ := kindOf_bind_ok hrest hright
    obtain ⟨rfl, hlast⟩ := expect_bind_ok hrest
    cases hlast
    exact ⟨hleft, hr, rfl⟩
  · next hsig =>
    refine hsig ▸ fun l hl => ?_
    obtain ⟨k', hleft, hrest⟩ := kindOf_bind_ok h hl
    obtain ⟨_, hr, hrest⟩ := kindOf_bind_ok hrest hright
    obtain ⟨rfl, hlast⟩ := expect_bind_ok hrest
    cases hlast
    exact ⟨_, hleft, hr, rfl⟩
  · next hsig =>
    refine hsig ▸ fun q l hq hl => ?_
    obtain ⟨_, hcond, hrest⟩ := kindOf_bind_ok h hq
    obtain ⟨rfl, hrest⟩ := expect_bind_ok hrest
    obtain ⟨k', hleft, hrest⟩ := kindOf_bind_ok hrest hl
    obtain ⟨_, hr, hrest⟩ := kindOf_bind_ok hrest hright
    obtain ⟨rfl, hlast⟩ := expect_bind_ok hrest
    cases hlast
    exact ⟨hcond, hleft, hr⟩

end Audit.Kind

/-! ## What the translation gives -/

namespace Operand

open Audit.Kind (signatures)

variable {f : Bits → Bits → Value} {g : Value → Except Fault Value}

theorem unary?_signature (h : unary? op = some g) : connective? op = none ∧
    ∃ operand result, signatures.lookup op = some (.unary operand result) ∧
      ∀ v : Value, v.HasKind operand → ∃ v', g v = .ok v' ∧ v'.HasKind result := by
  unfold unary? at h
  split at h <;> cases h <;> refine ⟨rfl, _, _, rfl, ?_⟩ <;> rintro _ ⟨⟩ <;> exact ⟨_, rfl, by constructor⟩

theorem binary?_signature (h : binary? op = some f) : connective? op = none ∧ unary? op = none ∧
    ∃ result, (∀ a b, (f a b).HasKind result) ∧ (signatures.lookup op = some (.binary .bits result) ∨
      (op = "==" ∨ op = "!=") ∧ signatures.lookup op = some .equality ∧ result = .truth) := by
  unfold binary? at h
  split at h <;> cases h <;> refine ⟨rfl, rfl, _, fun _ _ => by constructor, ?_⟩ <;> simp [signatures, List.lookup_cons]

theorem connective?_signature (h : connective? op = some conn) :
    signatures.lookup op = some (.binary .truth .truth) := by
  unfold connective? at h
  split at h <;> first | rfl | cases h

theorem read_applies {q left : Option Operand} (ha : Applies e op v r)
    (hcond : v.holds "cond" = .ok false ∧ q = none ∨ ∃ x a, v.get "cond" = .ok x ∧ read m x = .ok a ∧ q = some a)
    (hleft : v.get "left" = .ok .null ∧ left = none ∨ ∃ x a, v.get "left" = .ok x ∧ read m x = .ok a ∧ left = some a)
    (hright : read m r = .ok right) : read (m + 2) e = .ok (.expression (.str op) q left right) := by
  have hnull : ∀ a, read m .null ≠ .ok a := by
    cases m <;> rintro _ ⟨⟩
  rw [read, ha.type, ha.value]
  change (do if ← v.holds "type" then read (m + 1) v else readExpression (m + 1) v) = _
  rw [ha.untyped]
  rw [readExpression, ha.op, ha.right]
  rcases hleft with ⟨hl, rfl⟩ | ⟨x, a, hl, ha, rfl⟩ <;> rcases hcond with ⟨hq, rfl⟩ | ⟨y, b, hq, hb, rfl⟩
  · simp [bind, Except.bind, pure, Except.pure, hright, hl, hq]
  · simp [bind, Except.bind, pure, Except.pure, hright, hl, Json.holds_of_get hq, hq, hb]
  · have hx : x ≠ .null := fun hx => hnull a (hx ▸ ha)
    simp [bind, Except.bind, pure, Except.pure, hright, hl, hq, ha]
  · have hx : x ≠ .null := fun hx => hnull a (hx ▸ ha)
    simp [bind, Except.bind, pure, Except.pure, hright, hl, Json.holds_of_get hq, hq, hb, ha]

end Operand

namespace Succeeds

variable {h f : Json} {header name : Label}

theorem hexstr (h : 0 ≤ n) : Succeeds c (value env inParser (.hexstr n)) (·.HasKind .bits) := by
  refine fun s hs => ⟨.bits (ofInt n (bitLength n.toNat)), s, ?_, .bits _, hs⟩
  rw [value, decide_eq_true h]
  rfl

theorem readNamed (hh : h.key = .ok header) (hf : f.key = .ok name) {P : Option Bits → Prop}
    (hread : Succeeds c (Symbolic.read o (header, name)) P) :
    Succeeds c (readNamed o h f) fun v => ∃ b, P b ∧ v = .ofField b := by
  rw [Symbolic.readNamed, hh, hf]
  exact .bind (.lift ⟨header, rfl, rfl⟩) fun _ hh => .bind (.lift ⟨name, rfl, rfl⟩) fun _ hf =>
    .bind (hh ▸ hf ▸ hread) fun b hb => .pure ⟨b, hb, rfl⟩

theorem isValid (hh : h.key = .ok header) (hknown : c.Known header) : Succeeds c (isValid o h) (·.HasKind .truth) := by
  obtain ⟨v, hv, hwidth⟩ := hknown
  have hread : Succeeds c (Symbolic.read o (header, Context.valid)) (· = v) :=
    fun s hs => ⟨v, s, read_of_value (hs.of_some hv), rfl, hs⟩
  refine .bind (readNamed hh rfl hread) ?_
  rintro _ ⟨b, hb, rfl⟩
  subst hb
  cases b with
  | none => exact .pure (.truth _)
  | some b => exact .bind (P := fun _ => True) (.lift ⟨_, dif_pos (hwidth b rfl).symm, trivial⟩) fun f _ => .pure (.truth f)

theorem sized {v : Value} (h : v.HasKind .bits) : Succeeds c (Symbolic.lift v.sized) fun _ => True := by
  cases h
  exact .lift ⟨_, rfl, trivial⟩

theorem truth {v : Value} (h : v.HasKind .truth) : Succeeds c (Symbolic.lift v.truth) fun _ => True := by
  cases h
  exact .lift ⟨_, rfl, trivial⟩

theorem bits_of_not_truth {m : Symbolic Value} {k : Audit.Kind} (h : Succeeds c m (·.HasKind k)) (hk : k ≠ .truth) :
    k = .bits := by
  obtain ⟨v, -, -, hv, -⟩ := h { context := c } ⟨rfl, fun _ => .inl rfl⟩
  cases hv with
  | bits => rfl
  | truth => exact absurd rfl hk

end Succeeds

open Audit.Kind

theorem translates (env : Setting) (inParser : Bool) (hi : Implemented c e) : ∀ n k, upTo n e = .ok k →
    ∃ a, (∀ m, Operand.read (n + m) e = .ok a) ∧ Succeeds c (value env inParser a) (·.HasKind k) := by
  induction hi with
  | hexstr ht hn hpos =>
    intro n k hk
    obtain ⟨n, rfl, rfl⟩ := upTo_leaf hk ht rfl
    refine ⟨.hexstr _, fun m => ?_, .hexstr hpos⟩
    rw [Nat.add_right_comm, Operand.read, ht.type, ht.value]
    simp only [bind, Except.bind, hn]
    rfl
  | @bool e v ht =>
    intro n k hk
    obtain ⟨n, rfl, rfl⟩ := upTo_leaf hk ht rfl
    refine ⟨.bool v, fun m => ?_, .pure (.truth _)⟩
    rw [Nat.add_right_comm, Operand.read, ht.type, ht.value]
    rfl
  | @field e v h f header name ht hh hf hheader hname hread =>
    intro n k hk
    obtain ⟨n, rfl, rfl⟩ := upTo_leaf hk ht rfl
    refine ⟨.field h f, fun m => ?_, ?_⟩
    · rw [Nat.add_right_comm, Operand.read, ht.type, ht.value]
      simp only [bind, Except.bind, hh, hf]
      rfl
    · refine (Succeeds.readNamed hheader hname (.read hread)).mono ?_
      rintro _ ⟨b, hb, rfl⟩
      obtain ⟨b, rfl⟩ := Option.isSome_iff_exists.mp hb
      exact .bits b
  | nested ht htyped _ ih =>
    intro n k hk
    obtain ⟨n, rfl, hinner⟩ := upTo_nested hk ht
    obtain ⟨a, hread, hvalue⟩ := ih n k hinner
    refine ⟨a, fun m => ?_, hvalue⟩
    rw [Nat.add_right_comm, Operand.read, ht.type, ht.value]
    simp only [bind, Except.bind, htyped]
    exact hread m
  | @valid e v r h header ha hcond ht hheader hknown =>
    intro n k hk
    obtain ⟨n, rfl, hchecked⟩ := upTo_applies hk ha
    obtain ⟨hleft, hr, rfl⟩ := ofOperator_ok hchecked ha.op ha.right
    obtain ⟨n, rfl, -⟩ := upTo_leaf hr ht rfl
    refine ⟨.expression (.str "valid") none none (.header h), fun m => ?_, .isValid hheader hknown⟩
    have hread : Operand.read (n + 1 + m) r = .ok (.header h) := by
      rw [Nat.add_right_comm, Operand.read, ht.type, ht.value]
      rfl
    rw [Nat.add_right_comm]
    exact Operand.read_applies ha (.inl ⟨hcond, rfl⟩) (.inl ⟨hleft, rfl⟩) hread
  | @unary e v r op ha hcond hop _ ih =>
    intro n k hk
    obtain ⟨g, hg⟩ := Option.isSome_iff_exists.mp hop
    obtain ⟨hconn, operand, result, hsig, hgives⟩ := Operand.unary?_signature hg
    obtain ⟨n, rfl, hchecked⟩ := upTo_applies hk ha
    have hok := ofOperator_ok hchecked ha.op ha.right
    rw [hsig] at hok
    obtain ⟨hleft, hr, rfl⟩ := hok
    obtain ⟨a, hread, hvalue⟩ := ih n operand hr
    refine ⟨.expression (.str op) none none a, fun m => ?_, ?_⟩
    · rw [Nat.add_right_comm]
      exact Operand.read_applies ha (.inl ⟨hcond, rfl⟩) (.inl ⟨hleft, rfl⟩) (hread m)
    · simp only [value, operator, hconn, hg]
      exact .bind hvalue fun v hv => .lift (hgives v hv)
  | @binary e v r l op ha hcond hl hop heq _ _ ihl ihr =>
    intro n k hk
    obtain ⟨n, rfl, hchecked⟩ := upTo_applies hk ha
    have hok := ofOperator_ok hchecked ha.op ha.right
    have hreads : ∀ {al ar}, (∀ m, Operand.read (n + m) l = .ok al) → (∀ m, Operand.read (n + m) r = .ok ar) →
        ∀ m, Operand.read (n + 2 + m) e = .ok (.expression (.str op) none (some al) ar) := by
      intro al ar hreadl hreadr m
      rw [Nat.add_right_comm]
      exact Operand.read_applies ha (.inl ⟨hcond, rfl⟩) (.inr ⟨l, al, hl, hreadl m, rfl⟩) (hreadr m)
    cases hconn : Operand.connective? op with
    | some conn =>
      rw [Operand.connective?_signature hconn] at hok
      obtain ⟨hl', hr', rfl⟩ := hok l hl
      obtain ⟨al, hreadl, hvaluel⟩ := ihl n _ hl'
      obtain ⟨ar, hreadr, hvaluer⟩ := ihr n _ hr'
      refine ⟨_, hreads hreadl hreadr, ?_⟩
      simp only [value, operator, hconn]
      exact .bind hvaluel fun a ha => .bind hvaluer fun b hb => .bind (.truth ha) fun _ _ =>
        .bind (.truth hb) fun _ _ => .pure (.truth _)
    | none =>
      rw [hconn] at hop
      obtain ⟨f, hf⟩ := Option.isSome_iff_exists.mp hop
      obtain ⟨-, hunary, result, hresult, hsig⟩ := Operand.binary?_signature hf
      have hkinds : upTo n l = .ok bits ∧ upTo n r = .ok bits ∧ k = result := by
        rcases hsig with hsig | ⟨hname, hsig, rfl⟩
        · rw [hsig] at hok
          exact hok l hl
        · rw [hsig] at hok
          obtain ⟨k', hl', hr', rfl⟩ := hok l hl
          obtain ⟨_, -, hvaluel⟩ := ihl n _ hl'
          obtain rfl := hvaluel.bits_of_not_truth fun hk => heq hname n (hk ▸ hl')
          exact ⟨hl', hr', rfl⟩
      obtain ⟨hl', hr', rfl⟩ := hkinds
      obtain ⟨al, hreadl, hvaluel⟩ := ihl n _ hl'
      obtain ⟨ar, hreadr, hvaluer⟩ := ihr n _ hr'
      refine ⟨_, hreads hreadl hreadr, ?_⟩
      simp only [value, operator, hconn, hunary, hf]
      exact .bind hvaluel fun a ha => .bind hvaluer fun b hb => .bind (.sized ha) fun _ _ =>
        .bind (.sized hb) fun _ _ => .pure (hresult _ _)
  | @choice e v r q l ha hq hl heq _ _ _ ihq ihl ihr =>
    intro n k hk
    obtain ⟨n, rfl, hchecked⟩ := upTo_applies hk ha
    obtain ⟨hq', hl', hr'⟩ := ofOperator_ok hchecked ha.op ha.right q l hq hl
    obtain ⟨aq, hreadq, hvalueq⟩ := ihq n _ hq'
    obtain ⟨al, hreadl, hvaluel⟩ := ihl n _ hl'
    obtain ⟨ar, hreadr, hvaluer⟩ := ihr n _ hr'
    obtain rfl := hvaluel.bits_of_not_truth (fun hk => heq n (hk ▸ hl'))
    refine ⟨.expression (.str "?") (some aq) (some al) ar, fun m => ?_, ?_⟩
    · rw [Nat.add_right_comm]
      exact Operand.read_applies ha (.inr ⟨q, aq, hq, hreadq m, rfl⟩) (.inr ⟨l, al, hl, hreadl m, rfl⟩) (hreadr m)
    · exact .bind hvalueq fun c hc => .bind hvaluel fun a ha => .bind hvaluer fun b hb =>
        .bind (.sized ha) fun _ _ => .bind (.sized hb) fun _ _ =>
        .bind (.truth hc) fun _ _ => .bind (P := fun _ => True) (.lift ⟨_, dif_pos rfl, trivial⟩) fun _ _ => .pure (.bits _)

/-- What the check finds is what the translation gives: a bit vector or a truth value. -/
theorem value_of_checked (env : Setting) (inParser : Bool) {s : SymbolicState} {e : Json} {k : Audit.Kind}
    (hi : Implemented s.context e) (hk : Audit.Kind.ofJson e = .ok k) : ∃ a v u, Operand.ofJson e = .ok a ∧
      (value env inParser a).result s = (.ok v, u) ∧ v.HasKind k := by
  obtain ⟨a, hread, hvalue⟩ := translates env inParser hi e.height k hk
  obtain ⟨v, u, hresult, hkind, -⟩ := hvalue s ⟨rfl, fun _ => .inl rfl⟩
  refine ⟨a, v, u, ?_, hresult, hkind⟩
  have henough := hread (e.height + 2)
  rwa [← Nat.add_assoc, ← Nat.two_mul] at henough

namespace Comparing

def tagged (type : String) (v : Json) : Json := .obj [("type", .str type), ("value", v)]

def applied (op : String) (l r : Json) : Json :=
  tagged "expression" (.obj [("op", .str op), ("left", l), ("right", r)])

def field : Json := tagged "field" (.arr [.str "h", .str "f"])

def state : SymbolicState := { context := { fields := .ofList [((.text "h", .text "f"), ⟨some 8, false⟩)] } }

def truths : Json := applied "==" (tagged "bool" (.bool true)) (tagged "bool" (.bool false))

def setting : Setting := ⟨{}, ⟨none, none, {}, {}, {}, ⟨{}, {}⟩, {}, {}, {}, {}⟩, default, {}⟩

end Comparing

open Comparing

theorem value_of_checked_comparison : ∃ a v u, Operand.ofJson (applied "<" field field) = .ok a ∧
    (value setting false a).result state = (.ok v, u) ∧ v.HasKind .truth := by
  have hfield : Implemented state.context field :=
    .field ⟨rfl, rfl⟩ rfl rfl (show Json.key (.str "h") = .ok (.text "h") from rfl)
      (show Json.key (.str "f") = .ok (.text "f") from rfl) (.inr ⟨rfl, _, 8, rfl, rfl, nofun⟩)
  exact value_of_checked setting false (.binary ⟨⟨rfl, rfl⟩, rfl, rfl, rfl⟩ rfl rfl rfl (by simp) hfield hfield) rfl

/-- The check takes an equality of truth values, and the translation asks for their widths. -/
theorem equality_of_truths : Audit.Kind.ofJson truths = .ok .truth ∧ ∃ a, Operand.ofJson truths = .ok a ∧
    ((value setting false a).result {}).1 = .error .noPart :=
  ⟨rfl, .expression (.str "==") none (some (.bool (.bool true))) (.bool (.bool false)), rfl, rfl⟩

end PacketSmith
