import PacketSmith.Fault
import PacketSmith.Term.Fold
import PacketSmith.Term.Shape.Reduce

/-!
# Bit vectors of any width

Operators apply to operands of one width only, and another width is a fault. Operands are brought to one width by
filling up the narrower one with zeros.
-/

namespace PacketSmith

structure Bits where
  width : Nat
  term : Term (.bits width)

namespace Bits

instance : Inhabited Bits := ⟨⟨1, .const 0⟩⟩

def ofInt (n : Int) (w : Nat) : Bits := ⟨w, .const (BitVec.ofInt w n)⟩

def widthLimit : Nat := 0x80000000

def widthOf : Option Int → Except Fault Nat
  | none => .error .noWidth
  | some n => if 0 < n ∧ n < widthLimit then .ok n.toNat else .error .sortMismatch

def named (name : Variable) (size : Option Int) : Except Fault Bits := do
  let w ← widthOf size
  return ⟨w, .var name w⟩

def constant (n : Int) (size : Option Int) : Except Fault Bits := do
  return ofInt n (← widthOf size)

def word : Option Int → Except Fault Bits
  | some n => .ok (ofInt n 32)
  | none => .error .sortMismatch

def both {α : Type} (f : {w : Nat} → Term (.bits w) → Term (.bits w) → α) (a b : Bits) :
    Except Fault α :=
  if h : b.width = a.width then .ok (f a.term (h ▸ b.term)) else .error .sortMismatch

def arith (op : BinOp) (a b : Bits) : Except Fault Bits :=
  both (fun {w} x y => ⟨w, .arith op x y⟩) a b

def rel (op : Relation) (a b : Bits) : Except Fault Formula := both (fun x y => .rel op x y) a b

def choose (c : Formula) (a b : Bits) : Except Fault Bits :=
  both (fun {w} x y => ⟨w, .choose c x y⟩) a b

def arithInt (op : BinOp) (a : Bits) (n : Int) : Bits :=
  ⟨a.width, .arith op a.term (.const (BitVec.ofInt a.width n))⟩

def relInt (op : Relation) (a : Bits) (n : Int) : Formula :=
  .rel op a.term (.const (BitVec.ofInt a.width n))

def atWidth (a : Bits) (v : Nat) : Term (.bits v) :=
  if h : a.width = v then h ▸ a.term else .resize v a.term

def resize (v : Nat) (a : Bits) : Bits := ⟨v, a.atWidth v⟩

def fit (size : Int) (a : Bits) : Except Fault Bits :=
  if size = a.width then .ok a
  else if size ≤ 0 then .error .sortMismatch
  else .ok (a.resize size.toNat)

def equalize (a b : Bits) : Bits × Bits :=
  let w := max a.width b.width
  (a.resize w, b.resize w)

def equalizeAll (as : List Bits) : Except Fault (List Bits) :=
  match (as.map width).max? with
  | some w => .ok (as.map (resize w))
  | none => .error .malformed

def arithWide (op : BinOp) (a b : Bits) : Bits :=
  let w := max a.width b.width
  ⟨w, .arith op (a.atWidth w) (b.atWidth w)⟩

def relWide (op : Relation) (a b : Bits) : Formula :=
  let w := max a.width b.width
  .rel op (a.atWidth w) (b.atWidth w)

def alike (a b : Bits) : Except Fault Bool :=
  if a.width = b.width then .ok (a.term.same b.term) else .error .sortMismatch

def isBit (a : Bits) (b : Bool) : Except Fault Bool :=
  if a.width = 1 then
    match a.term.fold with
    | some x => .ok (x.toNat == b.toNat)
    | none => .ok (a.term.number? == some b.toNat)
  else .error .sortMismatch

def settle (a : Bits) : Bits :=
  match a.term.fold with
  | some x => ⟨a.width, .const x⟩
  | none => a

def evalNat (ρ : Assignment) (a : Bits) : Nat := (a.term.eval ρ).toNat

def rename (f : Variable → Nat → Variable) (a : Bits) : Bits := ⟨a.width, a.term.rename f⟩

end Bits

end PacketSmith
