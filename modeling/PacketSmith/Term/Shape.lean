import PacketSmith.Term.Basic

/-!
# Shapes of terms

A `Shape` is a term without its width in its type. It knows a variable by its width and by its rank among the
variables of the term, so that reduction does not depend on names.
-/

namespace PacketSmith

inductive Chain where
  | join
  | either
  | differ
  | sum
  | product
  | both
  | any
deriving DecidableEq

inductive Shape where
  | number (w n : Nat)
  | var (rank w : Nat)
  | slice (lo n : Nat) (a : Shape)
  | flip (a : Shape)
  | chain (op : Chain) (a b : Shape)
  | binary (op : BinOp) (a b : Shape)
  | choose (c a b : Shape)
  | truth (b : Bool)
  | not (a : Shape)
  | iff (a b : Shape)
  | rel (op : Relation) (a b : Shape)
deriving DecidableEq

namespace Shape

def num (w n : Nat) : Shape := .number w (n % Nat.pow 2 w)

def ones (w : Nat) : Shape := .number w (Nat.pow 2 w - 1)

def number? : Shape → Option Nat
  | .number _ n => some n
  | _ => none

def width : Shape → Nat
  | .number w _ => w
  | .var _ w => w
  | .slice _ n _ => n
  | .chain .join a b => a.width + b.width
  | .chain .both _ _ | .chain .any _ _ => 0
  | .flip a | .chain _ a _ | .binary _ a _ | .choose _ a _ => a.width
  | _ => 0

def isFormula : Shape → Bool
  | .choose _ a _ => a.isFormula
  | .chain .both _ _ | .chain .any _ _ | .truth _ | .not _ | .iff _ _ | .rel _ _ _ => true
  | _ => false

def size : Shape → Nat
  | .slice _ _ a | .flip a | .not a => a.size + 1
  | .chain _ a b | .binary _ a b | .iff a b | .rel _ a b => a.size + b.size + 1
  | .choose c a b => c.size + a.size + b.size + 1
  | _ => 1

/-! ## Chains -/

def operands (op : Chain) : Shape → List Shape
  | .chain op' a b =>
    if op' = op then a.operands op ++ b.operands op else [.chain op' a b]
  | t => [t]

def ofOperands (op : Chain) (unit : Shape) : List Shape → Shape
  | [] => unit
  | [a] => a
  | a :: rest => .chain op a (ofOperands op unit rest)

def joined (pieces : List Shape) : Shape := ofOperands .join (.number 0 0) pieces

def isChain (op : Chain) : Shape → Bool
  | .chain op' _ _ => op' = op
  | _ => false

/-! ## Positions -/

def zeroBit : Shape → Nat → Bool
  | .number _ n, i => !n.testBit i
  | .chain .join a b, i => if i < b.width then b.zeroBit i else a.zeroBit (i - b.width)
  | _, _ => false

def starts : Shape → Nat → Bool
  | .chain .join a b, i => if i < b.width then b.starts i else a.starts (i - b.width)
  | _, i => i = 0

/-- Cuts the bits below a position, each segment with its lowest bit and its width. A segment
begins where the cut says, and the most significant one comes first. -/
def segments (cut : Nat → Bool) : Nat → List (Nat × Nat)
  | 0 => []
  | i + 1 =>
    match segments cut i with
    | [] => [(i, 1)]
    | (lo, n) :: rest => if cut i then (i, 1) :: (lo, n) :: rest else (lo, n + 1) :: rest

def runs (p : Nat → Bool) (w : Nat) : List (Nat × Nat) := segments (fun i => p i != p (i - 1)) w

/-! ## Order -/

def code : Shape → List Nat
  | .number w n => [0, w, n]
  | .var rank w => [1, w, rank]
  | .slice lo n a => 2 :: lo :: n :: a.code
  | .flip a => 3 :: a.code
  | .chain op a b => 4 :: op.ctorIdx :: (a.code ++ b.code)
  | .binary op a b => 5 :: op.ctorIdx :: (a.code ++ b.code)
  | .choose c a b => 6 :: (c.code ++ a.code ++ b.code)
  | .truth b => [7, b.toNat]
  | .not a => 8 :: a.code
  | .iff a b => 9 :: (a.code ++ b.code)
  | .rel op a b => 10 :: op.ctorIdx :: (a.code ++ b.code)

def precedes (a b : Shape) : Bool := (List.compareLex compare a.code b.code).isLE

/-! ## Single steps -/

inductive Outcome where
  | done (t : Shape)
  | again (layers : Nat) (t : Shape)

end Shape

end PacketSmith
