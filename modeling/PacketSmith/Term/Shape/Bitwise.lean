import PacketSmith.Term.Shape

/-!
# Steps on bits

Steps move slices towards the variables and joins away from them, so that bits that are constant come to stand as
numbers of their own.
-/

namespace PacketSmith.Shape

/-! ## Slices and joins -/

def cover (lo n : Nat) : List Shape → List Shape
  | [] => []
  | a :: rest =>
    let base := (rest.map width).foldl (· + ·) 0
    let first := max lo base
    let last := min (lo + n) (base + a.width)
    if first < last then .slice (first - base) (last - first) a :: cover lo n rest
    else cover lo n rest

def slicesThrough (lo : Nat) : Chain → Bool
  | .either | .differ => true
  | .sum | .product => lo = 0
  | _ => false

def stepSlice (lo n : Nat) (a : Shape) : Outcome :=
  if lo = 0 ∧ n = a.width then .done a
  else match a with
    | .number _ x => .done (num n (x >>> lo))
    | .slice lo' _ b => .again 1 (.slice (lo + lo') n b)
    | .flip b => .again 2 (.flip (.slice lo n b))
    | .chain .join x y => .again 2 (joined (cover lo n ((chain .join x y).operands .join)))
    | .chain op x y =>
      if slicesThrough lo op then
        .again 2 (ofOperands op (num n 0) (((chain op x y).operands op).map (.slice lo n)))
      else .done (.slice lo n (.chain op x y))
    | .choose c x y => .again 2 (.choose c (.slice lo n x) (.slice lo n y))
    | b => .done (.slice lo n b)

/-- A piece put before others. Numbers beside each other are one number, and slices beside each
other are one slice if they are of one bit vector and meet. -/
def fuse : Shape → List Shape → List Shape
  | .number w n, .number v m :: rest => .number (w + v) (n * Nat.pow 2 v + m) :: rest
  | .slice lo n a, .slice lo' n' b :: rest =>
    if a = b ∧ lo = lo' + n' then
      (if lo' = 0 ∧ n + n' = a.width then a else .slice lo' (n + n') a) :: rest
    else .slice lo n a :: .slice lo' n' b :: rest
  | a, rest => a :: rest

def stepJoin (pieces : List Shape) : Outcome := .done (joined (pieces.foldr fuse []))

def stepFlip : Shape → Outcome
  | .flip a => .done a
  | .number w n => .done (num w (Nat.pow 2 w - 1 - n))
  | .chain .join a b => .again 2 (joined (((chain .join a b).operands .join).map .flip))
  | a => .done (.flip a)

/-! ## Chains on single bits -/

def numbers (ts : List Shape) : List Nat := ts.filterMap number?

def unknowns (ts : List Shape) : List Shape := ts.filter fun t => t.number?.isNone

def opposite : Shape → Shape
  | .flip a => a
  | a => .flip a

def addDistinct (seen : List Shape) (t : Shape) : Option (List Shape) :=
  if t ∈ seen then some seen
  else if t.opposite ∈ seen then none
  else some (seen ++ [t])

def distinctly (ts : List Shape) : Option (List Shape) := ts.foldlM addDistinct []

def interleave (a b : Shape) : Option Shape :=
  let w := a.width
  if a.isChain .join ∧ b.isChain .join ∧
      (List.range w).all (fun i => a.zeroBit i || b.zeroBit i) then
    some (joined ((runs a.zeroBit w).map fun (lo, n) =>
      .slice lo n (if a.zeroBit lo then b else a)))
  else none

def stepEither (w : Nat) (ts : List Shape) : Outcome :=
  let v := (numbers ts).foldl (· ||| ·) 0
  match distinctly (unknowns ts) with
  | none => .done (ones w)
  | some others =>
    if v = Nat.pow 2 w - 1 then .done (ones w)
    else if v = 0 then
      match numbers ts, others with
      | [], [a, b] =>
        match interleave a b with
        | some t => .again 2 t
        | none => .done (.chain .either a b)
      | _, _ => .done (ofOperands .either (.number w 0) others)
    else match others with
      | [a] =>
        .again 2 (joined ((runs v.testBit w).map fun (lo, n) =>
          if v.testBit lo then ones n else .slice lo n a))
      | _ => .done (ofOperands .either (.number w 0) (others ++ [.number w v]))

def pairOff (kept : List Shape × Bool) (t : Shape) : List Shape × Bool :=
  if t ∈ kept.1 then (kept.1.erase t, kept.2)
  else if t.opposite ∈ kept.1 then (kept.1.erase t.opposite, !kept.2)
  else (kept.1 ++ [t], kept.2)

/-- The operands that are left if equal ones are taken away in pairs, and whether an odd number of
pairs of opposites has been taken away too. -/
def inPairs (ts : List Shape) : List Shape × Bool := ts.foldl pairOff ([], false)

def differWith (w v : Nat) : List Shape → Outcome
  | [a] => if v = Nat.pow 2 w - 1 then .again 1 (.flip a) else .done (.chain .differ (.number w v) a)
  | others => .done (ofOperands .differ (.number w 0) (.number w v :: others))

def stepDiffer (w : Nat) (ts : List Shape) : Outcome :=
  let v := (numbers ts).foldl (· ^^^ ·) 0
  let (others, odd) := inPairs (unknowns ts)
  let v := if odd then v ^^^ (Nat.pow 2 w - 1) else v
  if v = 0 then .done (ofOperands .differ (.number w 0) others)
  else match unknowns ts with
    | [a] =>
      .again 3 (joined ((runs v.testBit w).map fun (lo, n) =>
        if v.testBit lo then .flip (.slice lo n a) else .slice lo n a))
    | _ => differWith w v others

/-! ## Shifts -/

def onNumbers (op : BinOp) (w n m : Nat) : Shape :=
  .number w (op.eval (BitVec.ofNat w n) (BitVec.ofNat w m)).toNat

def stepShift (left : Bool) (a : Shape) (k : Nat) : Outcome :=
  let w := a.width
  if k = 0 then .done a
  else if w ≤ k then .done (.number w 0)
  else .again 2 (joined (if left then [.slice 0 (w - k) a, .number k 0] else [.number k 0, .slice k (w - k) a]))

def stepShiftSigned (a : Shape) (k : Nat) : Outcome :=
  let w := a.width
  if k = 0 then .done a
  else match a with
    | .binary .ashr b (.number _ j) => .again 1 (.binary .ashr b (num w (min (j + k) w)))
    | _ => .done (.binary .ashr a (.number w k))

end PacketSmith.Shape
