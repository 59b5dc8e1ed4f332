import PacketSmith.Term.Shape.Bitwise
import PacketSmith.Term.Shape.Linear

/-!
# Steps on comparisons

*Equations.* An equation of single bits becomes a formula of its parts. An equation of sums is brought down to what
the sides do not have in common. An equation of joins is one equation for each piece.

*Order.* An order is settled by the least and the greatest number, and bits at the significant end of the greater side
that are zero have to be zero on the other side.
-/

/-! ## Steps on truth values and choices

Conjunctions and disjunctions drop what is repeated, and a formula beside its negation settles them. A choice drops
what its condition rules out.
-/

namespace PacketSmith.Shape

def negated : Shape → Shape
  | .not a => a
  | a => .not a

def bothOf (a b : Shape) : Shape := .chain .both a b

def anyOf (a b : Shape) : Shape := .chain .any a b

def stepNot : Shape → Outcome
  | .truth b => .done (.truth !b)
  | .not a => .done a
  | .iff a b => .again 2 (.iff (.not a) b)
  | a => .done (.not a)

/-- Adds a formula to those of a chain, unless it adds nothing, and gives up if it settles the chain.
One truth value is the unit of the chain, and the other one settles it. -/
def absorb (unit : Bool) (seen : List Shape) (t : Shape) : Option (List Shape) :=
  if t = .truth unit ∨ t ∈ seen then some seen
  else if t = .truth (!unit) ∨ t.negated ∈ seen then none
  else some (seen ++ [t])

def stepFormulas (op : Chain) (unit : Bool) (ts : List Shape) : Outcome :=
  match ts.foldlM (absorb unit) [] with
  | some rest => .done (ofOperands op (.truth unit) rest)
  | none => .done (.truth !unit)

def stepIff (a b : Shape) : Outcome :=
  if a = b then .done (.truth true)
  else match a, b with
    | .not x, .not y => .again 1 (.iff x y)
    | .truth true, _ => .done b
    | .truth false, _ => .again 1 (.not b)
    | _, .truth true => .done a
    | _, .truth false => .again 1 (.not a)
    | _, _ =>
      if a.negated = b ∨ b.negated = a then .done (.truth false)
      else .done (.iff a b)

def stepChooseFormula (c a b : Shape) : Outcome :=
  match a, b with
  | .truth true, .truth false => .done c
  | .truth false, .truth true => .again 1 (.not c)
  | .truth true, _ => .again 1 (anyOf c b)
  | .truth false, _ => .again 2 (bothOf (.not c) b)
  | _, .truth true => .again 2 (anyOf (.not c) a)
  | _, .truth false => .again 1 (bothOf c a)
  | _, _ =>
    if c = b then .again 1 (bothOf c a)
    else if c = a then .again 1 (anyOf c b)
    else if a = .not b ∨ b = .not a then .again 1 (.iff c a)
    else .done (.choose c a b)

def chosenSide (c : Shape) (value : Bool) : Shape → Shape
  | .choose d x y => if d = c then (if value then x else y) else .choose d x y
  | t => t

def settleChoice (c a b : Shape) : Outcome :=
  if c = .truth true then .done a
  else if c = .truth false then .done b
  else if a = b then .done a
  else if a.isFormula then stepChooseFormula c a b
  else .done (.choose c a b)

def stepChoosePlain (c a b : Shape) : Outcome :=
  let a := chosenSide c true a
  let b := chosenSide c false b
  match b with
  | .choose d x y =>
    if x = a then .again 2 (.choose (anyOf c d) a y) else settleChoice c a (.choose d x y)
  | _ => settleChoice c a b

def stepChoose (c a b : Shape) : Outcome :=
  match c with
  | .not d => stepChoosePlain d b a
  | _ => stepChoosePlain c a b

variable (a b : Shape)

def equal : Shape := .rel .eq a b

/-! ## Equations -/

def equalBit : Option Outcome :=
  match b with
  | .number 1 v =>
    let one := Shape.number 1 1
    match a with
    | .choose c x y => some (.again 2 (.choose c (equal x b) (equal y b)))
    | .flip x => some (.again 1 (equal x (num 1 (1 + v))))
    | .chain .either x y =>
      let raised := ofOperands .any (.truth false)
        (((chain .either x y).operands .either).map (equal · one))
      some (if v = 1 then .again 2 raised else .again 3 (.not raised))
    | .chain .differ x y =>
      match (chain .differ x y).operands .differ with
      | [s, t] =>
        let unlike := Shape.iff (.not (equal s one)) (equal t one)
        some (if v = 1 then .again 3 unlike else .again 4 (.not unlike))
      | _ => none
    | _ => none
  | _ => none

def splits : Bool :=
  let target (t : Shape) : Bool := t.isChain .join || t.number?.isSome || t.isChain .either
  (a.isChain .join && target b) || (b.isChain .join && target a)

def equalPieces : Outcome :=
  let pieces := segments (fun i => a.starts i || b.starts i) a.width
  .again 3 (ofOperands .both (.truth true)
    (pieces.map fun (lo, n) => equal (.slice lo n a) (.slice lo n b)))

def equalReduced (w : Nat) (isNew : Bool) (x y : Shape) : Option Outcome :=
  match x.number?, y.number? with
  | some n, some m => some (.done (.truth (n = m)))
  | _, _ =>
    match isolate w x y <|> isolate w y x with
    | some (s, t) => some (.again 2 (equal s t))
    | none =>
      if splits x y then some (equalPieces x y)
      else if isNew then some (.done (equal x y))
      else none

def equalLinear : Option Outcome :=
  let linear (t : Shape) : Bool := t.isChain .sum || t.isChain .product
  if linear a || linear b then
    match cancel a.width a b with
    | some (x, y) => equalReduced a.width true x y
    | none => equalReduced a.width false a b
  else none

def equalChosen : Option Outcome :=
  match a, b with
  | .choose c x y, .number _ v =>
    match x.number?, y.number? with
    | _, some m =>
      if m ≠ v then some (.again 2 (bothOf (equal x b) c))
      else if x.number?.isSome ∧ x ≠ b then some (.again 2 (bothOf (equal y b) (.not c)))
      else if x = b then some (.again 2 (anyOf (equal y b) c))
      else some (.again 2 (anyOf (equal x b) (.not c)))
    | some n, none =>
      if n ≠ v then some (.again 2 (bothOf (equal y b) (.not c)))
      else some (.again 2 (anyOf (equal y b) c))
    | none, none => none
  | _, _ => none

def equalSides : Option Outcome :=
  equalBit a b <|> divide a.width a b <|> divide a.width b a <|> equalLinear a b <|>
    if splits a b then some (equalPieces a b) else none

def stepEqual : Outcome :=
  if a = b then .done (.truth true)
  else match a.number?, b.number? with
    | some _, some _ => .done (.truth false)
    | some _, none => (equalSides b a).getD (.done (equal b a))
    | none, _ => (equalSides a b <|> equalChosen a b).getD (.done (equal a b))

/-! ## Order -/

def extent (t : Shape) : Nat → Nat
  | 0 => 0
  | i + 1 => if t.zeroBit i then t.extent i else i + 1

def atMostSides : Outcome :=
  let w := a.width
  let zero := Shape.number w 0
  if b = zero ∨ a = ones w then .again 1 (equal a b)
  else
    let k := b.extent w
    if k = 0 then .again 1 (equal a zero)
    else if k < w then
      .again 3 (bothOf (equal (.slice k (w - k) a) (.number (w - k) 0))
        (.rel .ule (.slice 0 k a) (.slice 0 k b)))
    else .done (.rel .ule a b)

def stepAtMost : Outcome :=
  let w := a.width
  if a = b ∨ b = ones w ∨ a = .number w 0 then .done (.truth true)
  else match a.number?, b.number? with
    | some n, some m => .done (.truth (n ≤ m))
    | _, _ => atMostSides a b

def stepAtMostSigned : Outcome :=
  if a = b then .done (.truth true)
  else match a, b with
    | .number w n, .number _ m =>
      .done (.truth ((BitVec.ofNat w n).sle (BitVec.ofNat w m)))
    | _, _ => .done (.rel .sle a b)

end PacketSmith.Shape
