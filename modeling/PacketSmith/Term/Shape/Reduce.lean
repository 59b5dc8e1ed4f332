import PacketSmith.Term.Shape.Comparison

/-!
# Reduced shapes

A term is reduced from its variables outwards. Each operator is applied to reduced operands and takes the step of its
kind; a step may ask for some outer layers of its outcome to be reduced again.
-/

namespace PacketSmith

namespace Shape

def stepBinary (op : BinOp) (a b : Shape) : Outcome :=
  let w := a.width
  match op, a.number?, b.number? with
  | .add, _, _ => .again 1 (.chain .sum a b)
  | .sub, _, _ => .again 2 (.chain .sum a (.chain .product (ones w) b))
  | .mul, _, _ => .again 1 (.chain .product a b)
  | .and, _, _ => .again 3 (.flip (.chain .either (.flip a) (.flip b)))
  | .or, _, _ => .again 1 (.chain .either a b)
  | .xor, _, _ => .again 1 (.chain .differ a b)
  | op, some n, some m => .done (onNumbers op w n m)
  | .shl, none, some k => stepShift true a k
  | .lshr, none, some k => stepShift false a k
  | .ashr, none, some k => stepShiftSigned a k
  | op, _, _ => .done (.binary op a b)

def step : Shape → Outcome
  | .slice lo n a => stepSlice lo n a
  | .flip a => stepFlip a
  | .chain op a b =>
    let ts := (chain op a b).operands op
    match op with
    | .join => stepJoin ts
    | .either => stepEither a.width ts
    | .differ => stepDiffer a.width ts
    | .sum => stepSum a.width ts
    | .product => stepProduct a.width ts
    | .both => stepFormulas .both true ts
    | .any => stepFormulas .any false ts
  | .binary op a b => stepBinary op a b
  | .choose c a b => stepChoose c a b
  | .not a => stepNot a
  | .iff a b => stepIff a b
  | .rel .eq a b => stepEqual a b
  | .rel .ule a b => stepAtMost a b
  | .rel .ult a b => .again 2 (.not (.rel .ule b a))
  | .rel .sle a b => stepAtMostSigned a b
  | .rel .slt a b => .again 2 (.not (.rel .sle b a))
  | t => .done t

def mapParts (f : Shape → Shape) : Shape → Shape
  | .slice lo n a => .slice lo n (f a)
  | .flip a => .flip (f a)
  | .chain op a b =>
    ofOperands op (.chain op a b) (((chain op a b).operands op).map f)
  | .binary op a b => .binary op (f a) (f b)
  | .choose c a b => .choose (f c) (f a) (f b)
  | .not a => .not (f a)
  | .iff a b => .iff (f a) (f b)
  | .rel op a b => .rel op (f a) (f b)
  | t => t

def reduceLayers : Nat → Nat → Shape → Shape
  | 0, _, t => t
  | _, 0, t => t
  | fuel + 1, layers + 1, t =>
    match (t.mapParts (reduceLayers fuel layers)).step with
    | .done u => u
    | .again n u => reduceLayers fuel n u

def reduce (t : Shape) : Shape := reduceLayers (64 * t.size) 1 t

def resized (v : Nat) (a : Shape) : Shape :=
  if v ≤ a.width then .slice 0 v a else .chain .join (.number (v - a.width) 0) a

end Shape

/-- Variables with texts for names come before those with numbers, and displacements come last. -/
def Variable.order : Variable → Variable → Ordering
  | plain a, plain b => compare a b
  | plain _, _ => .lt
  | numbered _ _, plain _ => .gt
  | numbered a n, numbered b m => (compare a b).then (compare n m)
  | numbered _ _, shift _ => .lt
  | shift a, shift b => a.order b
  | shift _, _ => .gt

namespace Term

def shape (rank : Variable → Nat) : {k : Kind} → Term k → Shape
  | _, .var name w => .var (rank name) w
  | .bits w, .const x => .number w x.toNat
  | _, .truth b => .truth b
  | _, .not a => (Shape.not (a.shape rank)).reduce
  | _, .conn .and a b => (Shape.chain .both (a.shape rank) (b.shape rank)).reduce
  | _, .conn .or a b => (Shape.chain .any (a.shape rank) (b.shape rank)).reduce
  | _, .conn .iff a b => (Shape.iff (a.shape rank) (b.shape rank)).reduce
  | _, .rel op a b => (Shape.rel op (a.shape rank) (b.shape rank)).reduce
  | _, .arith op a b => (Shape.binary op (a.shape rank) (b.shape rank)).reduce
  | _, .flip a => (Shape.flip (a.shape rank)).reduce
  | _, .choose c a b => (Shape.choose (c.shape rank) (a.shape rank) (b.shape rank)).reduce
  | _, .resize v a => ((a.shape rank).resized v).reduce
  | _, .concat a b => (Shape.chain .join (a.shape rank) (b.shape rank)).reduce

/-- The rank of a variable is the number of occurrences of variables before it. -/
def rank {k : Kind} (a : Term k) (name : Variable) : Nat :=
  a.vars.countP fun (other, _) => (other.order name).isLT

def number? {w : Nat} (a : Term (.bits w)) : Option Nat := (a.shape a.rank).number?

end Term

end PacketSmith
