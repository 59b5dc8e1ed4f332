import PacketSmith.Term.Basic
import Std.Tactic.BVDecide.Bitblast

/-!
# Circuits of terms

A term becomes an expression of the standard library, which makes a circuit of it. Truth values are bits there.
-/

namespace PacketSmith.Decide

open Std.Sat Std.Tactic.BVDecide

def size : Kind → Nat
  | .bool => 1
  | .bits w => w

section

variable {w : Nat}

def turn (a : BVExpr w) : BVExpr w := .un .not a

def difference (a b : BVExpr w) : BVExpr w := turn (.bin (turn a) .add b)

/-- The borrow of a difference. -/
def below (a b : BVExpr w) : BVExpr 1 :=
  let wide (a : BVExpr w) : BVExpr (1 + w) := .append (.const 0#1) a rfl
  .extract w 1 (difference (wide a) (wide b))

def turnSign (a : BVExpr w) : BVExpr w := .bin a .xor (.const (.intMin w))

def choose (c : BVExpr 1) (a b : BVExpr w) : BVExpr w :=
  let mask : BVExpr w := .replicate w c (Nat.one_mul w).symm
  .bin (.bin mask .and a) .or (.bin (turn mask) .and b)

def lesser (a b : BVExpr w) : BVExpr w := choose (below (turnSign b) (turnSign a)) b a

def arith (op : BinOp) (a b : BVExpr w) : BVExpr w :=
  match op with
  | .add => .bin a .add b
  | .sub => difference a b
  | .mul => .bin a .mul b
  | .and => .bin a .and b
  | .or => .bin a .or b
  | .xor => .bin a .xor b
  | .shl => .shiftLeft a b
  | .lshr => .shiftRight a b
  | .ashr => .arithShiftRight a b
  | .least => lesser a b
  | .surplus => difference a (lesser b a)

def compare (op : Relation) (a b : BVExpr w) : BVExpr 1 :=
  match op with
  | .eq => turn (below (.const 0) (.bin a .xor b))
  | .ult => below a b
  | .ule => turn (below b a)
  | .slt => below (turnSign a) (turnSign b)
  | .sle => turn (below (turnSign b) (turnSign a))

end

def connect (op : Connective) (a b : BVExpr 1) : BVExpr 1 :=
  match op with
  | .and => .bin a .and b
  | .or => .bin a .or b
  | .iff => turn (.bin a .xor b)

def expression (number : Variable × Nat → Nat) : {k : Kind} → Term k → BVExpr (size k)
  | _, .var name w => .var (number (name, w))
  | _, .const x => .const x
  | _, .truth b => .const (.ofBool b)
  | _, .not a => turn (expression number a)
  | _, .conn op a b => connect op (expression number a) (expression number b)
  | _, .rel op a b => compare op (expression number a) (expression number b)
  | _, .arith op a b => arith op (expression number a) (expression number b)
  | _, .flip a => turn (expression number a)
  | _, .choose c a b => choose (expression number c) (expression number a) (expression number b)
  | _, .resize v a => .extract 0 v (expression number a)
  | _, .concat a b => .append (expression number a) (expression number b) rfl

def circuit (number : Variable × Nat → Nat) (fs : List Formula) : AIG.Entrypoint BVBit :=
  BVLogicalExpr.bitblast (fs.foldr (fun f rest =>
    .gate .and (.literal (.getLsbD (expression number f) 0)) rest) (.const true))

end PacketSmith.Decide
