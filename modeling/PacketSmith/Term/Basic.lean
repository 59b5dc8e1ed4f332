/-!
# Terms

Bit-vector terms and formulas over named variables. A term is indexed by its kind, so that operands of different
widths cannot be combined. A variable is known by its name and its width together.
-/

namespace PacketSmith

inductive Kind where
  | bool
  | bits (w : Nat)
deriving DecidableEq

@[reducible] def Kind.Val : Kind → Type
  | bool => Bool
  | bits w => BitVec w

inductive Connective where
  | and
  | or
  | iff
deriving DecidableEq

inductive Relation where
  | eq
  | ult
  | ule
  | slt
  | sle
deriving DecidableEq

inductive BinOp where
  | add
  | sub
  | mul
  | and
  | or
  | xor
  | shl
  | lshr
  | ashr
  | least
  | surplus
deriving DecidableEq

namespace Connective

def eval : Connective → Bool → Bool → Bool
  | and, a, b => a && b
  | or, a, b => a || b
  | iff, a, b => a == b

end Connective

namespace Relation

def eval {w : Nat} : Relation → BitVec w → BitVec w → Bool
  | eq, a, b => a == b
  | ult, a, b => a.ult b
  | ule, a, b => a.ule b
  | slt, a, b => a.slt b
  | sle, a, b => a.sle b

end Relation

namespace BinOp

/-- The lesser of two bit vectors as signed numbers, the first if they are equal. -/
def leastOf {w : Nat} (a b : BitVec w) : BitVec w := if b.slt a then b else a

def eval {w : Nat} : BinOp → BitVec w → BitVec w → BitVec w
  | add, a, b => a + b
  | sub, a, b => a - b
  | mul, a, b => a * b
  | and, a, b => a &&& b
  | or, a, b => a ||| b
  | xor, a, b => a ^^^ b
  | shl, a, b => if b.toNat < w then a <<< b.toNat else 0
  | lshr, a, b => if b.toNat < w then a >>> b.toNat else 0
  | ashr, a, b => a.sshiftRight (min b.toNat w)
  | least, a, b => leastOf a b
  | surplus, a, b => a - leastOf b a

end BinOp

inductive Variable where
  | plain (text : String)
  | numbered (stem : String) (n : Nat)
  | shift (x : Variable)
deriving DecidableEq, Hashable

namespace Variable

instance : Coe String Variable := ⟨plain⟩

def display : Variable → String
  | plain text => text
  | numbered stem n => stem ++ "_" ++ toString n
  | shift x => "$rand_disp$." ++ x.display

def renumber (f : Nat → Nat) : Variable → Variable
  | plain text => plain text
  | numbered stem n => numbered stem (f n)
  | shift x => shift (x.renumber f)

end Variable

inductive Term : Kind → Type where
  | var (name : Variable) (w : Nat) : Term (.bits w)
  | const {w : Nat} (x : BitVec w) : Term (.bits w)
  | truth (b : Bool) : Term .bool
  | not (a : Term .bool) : Term .bool
  | conn (op : Connective) (a b : Term .bool) : Term .bool
  | rel {w : Nat} (op : Relation) (a b : Term (.bits w)) : Term .bool
  | arith {w : Nat} (op : BinOp) (a b : Term (.bits w)) : Term (.bits w)
  | flip {w : Nat} (a : Term (.bits w)) : Term (.bits w)
  | choose {k : Kind} (c : Term .bool) (a b : Term k) : Term k
  | resize {w : Nat} (v : Nat) (a : Term (.bits w)) : Term (.bits v)
  | concat {w v : Nat} (a : Term (.bits w)) (b : Term (.bits v)) : Term (.bits (w + v))

abbrev Formula := Term .bool

abbrev Assignment := Variable → (w : Nat) → BitVec w

namespace Term

instance {k : Kind} : Inhabited (Term k) :=
  ⟨match k with
    | .bool => .truth false
    | .bits _ => .const 0⟩

def eval (ρ : Assignment) : {k : Kind} → Term k → k.Val
  | _, .var name w => ρ name w
  | _, .const x => x
  | _, .truth b => b
  | _, .not a => !(a.eval ρ)
  | _, .conn op a b | _, .rel op a b | _, .arith op a b => op.eval (a.eval ρ) (b.eval ρ)
  | _, .flip a => ~~~(a.eval ρ)
  | _, .choose c a b => if c.eval ρ then a.eval ρ else b.eval ρ
  | _, .resize v a => (a.eval ρ).setWidth v
  | _, .concat a b => a.eval ρ ++ b.eval ρ

def all : List Formula → Formula
  | [] => .truth true
  | [a] => a
  | a :: rest => .conn .and a (all rest)

def any : List Formula → Formula
  | [] => .truth false
  | [a] => a
  | a :: rest => .conn .or a (any rest)

def vars : {k : Kind} → Term k → List (Variable × Nat)
  | _, .var name w => [(name, w)]
  | _, .const _ => []
  | _, .truth _ => []
  | _, .not a => a.vars
  | _, .conn _ a b | _, .rel _ a b | _, .arith _ a b => a.vars ++ b.vars
  | _, .flip a => a.vars
  | _, .choose c a b => c.vars ++ a.vars ++ b.vars
  | _, .resize _ a => a.vars
  | _, .concat a b => a.vars ++ b.vars

def rename (f : Variable → Nat → Variable) : {k : Kind} → Term k → Term k
  | _, .var name w => .var (f name w) w
  | _, .const x => .const x
  | _, .truth b => .truth b
  | _, .not a => .not (a.rename f)
  | _, .conn op a b => .conn op (a.rename f) (b.rename f)
  | _, .rel op a b => .rel op (a.rename f) (b.rename f)
  | _, .arith op a b => .arith op (a.rename f) (b.rename f)
  | _, .flip a => .flip (a.rename f)
  | _, .choose c a b => .choose (c.rename f) (a.rename f) (b.rename f)
  | _, .resize v a => .resize v (a.rename f)
  | _, .concat a b => .concat (a.rename f) (b.rename f)

def same : {k k' : Kind} → Term k → Term k' → Bool
  | _, _, .var name w, .var name' w' => name == name' && w == w'
  | .bits w, .bits w', .const x, .const x' => w == w' && x.toNat == x'.toNat
  | _, _, .truth b, .truth b' => b == b'
  | _, _, .not a, .not a' => a.same a'
  | _, _, .conn op a b, .conn op' a' b' | _, _, .rel op a b, .rel op' a' b'
  | _, _, .arith op a b, .arith op' a' b' => op == op' && a.same a' && b.same b'
  | _, _, .flip a, .flip a' => a.same a'
  | _, _, .choose c a b, .choose c' a' b' => c.same c' && a.same a' && b.same b'
  | _, _, .resize v a, .resize v' a' => v == v' && a.same a'
  | _, _, .concat a b, .concat a' b' => a.same a' && b.same b'
  | _, _, _, _ => false

/-! ## Renaming and meaning -/

theorem eval_rename (f : Variable → Nat → Variable) (ρ : Assignment) {k : Kind} (t : Term k) :
    (t.rename f).eval ρ = t.eval fun name w => ρ (f name w) w := by
  induction t with
  | var => rfl
  | const => rfl
  | truth => rfl
  | not a ih => simp [rename, eval, ih]
  | conn op a b iha ihb | rel op a b iha ihb | arith op a b iha ihb => simp [rename, eval, iha, ihb]
  | flip a ih => simp [rename, eval, ih]
  | choose c a b ihc iha ihb => simp [rename, eval, ihc, iha, ihb]
  | resize v a ih => simp [rename, eval, ih]
  | concat a b iha ihb => simp [rename, eval, iha, ihb]

theorem eval_all (ρ : Assignment) (fs : List Formula) :
    (all fs).eval ρ = fs.all fun f => f.eval ρ := by
  induction fs with
  | nil => rfl
  | cons a rest ih =>
    cases rest with
    | nil => simp [all]
    | cons b rest => simp [all, eval, Connective.eval, ih]

theorem eval_any (ρ : Assignment) (fs : List Formula) :
    (any fs).eval ρ = fs.any fun f => f.eval ρ := by
  induction fs with
  | nil => rfl
  | cons a rest ih =>
    cases rest with
    | nil => simp [any]
    | cons b rest => simp [any, eval, Connective.eval, ih]

end Term

end PacketSmith
