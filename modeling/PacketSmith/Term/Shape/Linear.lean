import PacketSmith.Term.Shape

/-!
# Steps on sums and products

A summand is a *monomial*: a coefficient and a product without a number. A sum collects the monomials of one product,
and a number comes first in it.
-/

namespace PacketSmith.Shape

variable (w : Nat) (ts : List Shape)

/-! ## Monomials -/

structure Monomial where
  factor : Nat
  base : Shape
deriving DecidableEq

def monomial (t : Shape) : Monomial :=
  match t.operands .product with
  | .number _ n :: rest => ⟨n, ofOperands .product (.number t.width 1) rest⟩
  | _ => ⟨1, t⟩

def Monomial.shape (m : Monomial) : Shape :=
  if m.factor = 1 then m.base else .chain .product (.number w m.factor) m.base

def collect : List Monomial :=
  let all := (ts.filter fun t => t.number?.isNone).map monomial
  let bases := (all.map Monomial.base).eraseDups
  let sums := bases.map fun base =>
    ⟨((all.filter fun m => m.base = base).map Monomial.factor).foldl (· + ·) 0 % Nat.pow 2 w, base⟩
  sums.filter fun m => m.factor ≠ 0

def constantOf : Nat := (ts.filterMap number?).foldl (· + ·) 0 % Nat.pow 2 w

def summands (w c : Nat) (ms : List Monomial) : List Shape :=
  (if c = 0 then [] else [.number w c]) ++ ms.map (·.shape w)

def total : Shape := ofOperands .sum (.number w 0) ts

/-! ## Sums and products -/

def apart (a b : Shape) : Bool :=
  let plain (t : Shape) : Bool := t.isChain .join || t.number?.isSome
  plain a && plain b && (List.range a.width).all fun i => a.zeroBit i || b.zeroBit i

def stepSum : Outcome :=
  match summands w (constantOf w ts) (collect w ts) with
  | [a, b] => if apart a b then .again 1 (.chain .either a b) else .done (.chain .sum a b)
  | rest => .done (total w rest)

def stepProduct : Outcome :=
  let c := (ts.filterMap number?).foldl (· * ·) 1 % Nat.pow 2 w
  if c = 0 then .done (.number w 0)
  else match ts.filter fun t => t.number?.isNone with
    | [] => .done (.number w c)
    | [a] =>
      if c = 1 then .done a
      else match a with
        | .chain .sum x y =>
          .again 2 (total w
            (((chain .sum x y).operands .sum).map (.chain .product (.number w c))))
        | _ => .done (.chain .product (.number w c) a)
    | others =>
      let sorted := others.mergeSort precedes
      .done (Monomial.shape w ⟨c, ofOperands .product (.number w 1) sorted⟩)

/-! ## Equations -/

def Monomial.isCommon (ms : List Monomial) (m : Monomial) : Bool := ms.any fun m' => m'.base = m.base

def Monomial.less (ms : List Monomial) (m : Monomial) : Monomial :=
  let taken := ((ms.filter fun m' => m'.base = m.base).map Monomial.factor).foldl (· + ·) 0
  ⟨(m.factor + (Nat.pow 2 w - taken)) % Nat.pow 2 w, m.base⟩

/-- Two sides of an equation without what they have in common. There is a result only if
something changes. The number is on the right-hand side unless the left-hand side would be
empty. -/
def cancel (a b : Shape) : Option (Shape × Shape) :=
  let left := a.operands .sum
  let right := b.operands .sum
  let leftTerms := collect w left
  let rightTerms := collect w right
  let count := (left.filterMap number?).length + (right.filterMap number?).length
  if !leftTerms.any (Monomial.isCommon rightTerms) && count ≤ 1 &&
      (count = 0 || b.number?.isSome) then none
  else
    let newLeft := (leftTerms.map (Monomial.less w rightTerms)).filter (·.factor ≠ 0)
    let newRight := rightTerms.filter fun m => !Monomial.isCommon leftTerms m
    let l := constantOf w left
    let r := constantOf w right
    if newLeft.isEmpty && !newRight.isEmpty then
      some (total w (summands w ((l + (Nat.pow 2 w - r)) % Nat.pow 2 w) []), total w (summands w 0 newRight))
    else
      some (total w (summands w 0 newLeft),
        total w (summands w ((r + (Nat.pow 2 w - l)) % Nat.pow 2 w) newRight))

def isolate (a b : Shape) : Option (Shape × Shape) :=
  match a.operands .sum, b.number? with
  | t :: u :: rest, some c =>
    let others := total w (u :: rest)
    let (kept, moved) := if t.monomial.factor = Nat.pow 2 w - 1 then (others, t) else (t, others)
    some (kept, .binary .sub (.number w c) moved)
  | _, _ => none

def inverse (w n : Nat) : Option Nat :=
  if n % 2 = 1 then
    -- each round doubles the number of bits that are right
    some ((List.range (w.log2 + 1)).foldl
      (fun x _ => x * (Nat.pow 2 w + 2 - n * x % Nat.pow 2 w) % Nat.pow 2 w) (n % Nat.pow 2 w))
  else none

def allScaled (t : Shape) : Bool :=
  t.isChain .sum && (t.operands .sum).all fun s => s.number?.isSome || s.monomial.factor ≠ 1

def multiplySide (w i : Nat) (base b : Shape) : Option Outcome :=
  match b with
  | .number _ n => some (.again 1 (.rel .eq base (num w (i * n))))
  | _ =>
    let mb := b.monomial
    if mb.factor ≠ 1 ∧ (inverse w mb.factor).isSome then
      some (.again 1 (.rel .eq base (Monomial.shape w ⟨i * mb.factor % Nat.pow 2 w, mb.base⟩)))
    else if allScaled b then some (.again 2 (.rel .eq base (.chain .product (.number w i) b)))
    else none

def divide (a b : Shape) : Option Outcome :=
  let ma := a.monomial
  if ma.factor = 1 then none
  else match inverse w ma.factor with
    | none => none
    | some i => multiplySide w i ma.base b

end PacketSmith.Shape
