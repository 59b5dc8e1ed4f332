import PacketSmith.Options
import PacketSmith.Term.Bits

/-!
# Symbolic packets

A packet as a parser sees it: a sequence of extractions, each with the number of bits that are read and a variable for
the data, and lookaheads into the part that comes after some extraction.
-/

namespace PacketSmith

structure Extraction where
  length : Bits
  data : Bits
  varies : Bool := false

structure Lookahead where
  index : Nat
  data : Bits

structure Packet where
  maxLength : Option Bits := none
  extractions : List Extraction := []
  lookaheads : List Lookahead := []
  tailed : Bool := false
  displacements : List (Variable × Nat) := []

def newVariable (randomize : Bool) (name : Variable) (size : Option Int) :
    Except Fault (Bits × List (Variable × Nat)) := do
  let v ← Bits.named name size
  if randomize then
    return (⟨v.width, .arith .xor v.term (.var (.shift name) v.width)⟩, [(.shift name, v.width)])
  else return (v, [])

def Bits.lineWidth : Nat := 60

def Bits.display (b : Bits) : String :=
  match b.term with
  | .var name _ => name.display
  | .arith .xor (.var name _) (.var shift _) =>
    let (name, shift) := (name.display, shift.display)
    let sep := if name.length + 3 + shift.length ≤ Bits.lineWidth then " ^ " else " ^\n"
    name ++ sep ++ shift
  | _ => ""

namespace Packet

variable (p : Packet)

def size : Bits := ⟨32, .var "packet_size" 32⟩

def maxSize : Int := 4096

def tail (w : Nat) : Bits := ⟨w, .var "lookahead_tail" w⟩

def tailLength : Bits := ⟨32, .var "lookahead_tail_len" 32⟩

def labelled (name : String) : Option String → String
  | some label => name ++ "." ++ label
  | none => name

def readLength (size : Option Int) : Option Bits → Except Fault Bits
  | some l => .ok l
  | none => Bits.word size

def extract (o : Options) (size : Option Int) (length : Option Bits)
    (label : Option String) : Except Fault (Bits × Packet) := do
  let read ← readLength size length
  let name := labelled s!"$packet{p.extractions.length}$" label
  let (data, shifts) ← newVariable o.randomize name size
  return (data, { p with
    extractions := p.extractions ++ [⟨read, data, length.isSome⟩]
    displacements := p.displacements ++ shifts })

def lookahead (o : Options) (size : Option Int) : Except Fault (Bits × Packet) := do
  let _ ← Bits.word size
  let (data, shifts) ← newVariable o.randomize s!"$lookahead{p.lookaheads.length}$" size
  return (data, { p with
    lookaheads := p.lookaheads ++ [⟨p.extractions.length, data⟩]
    displacements := p.displacements ++ shifts })

/-! ## Constraints -/

def totalLength : List Extraction → Except Fault (Option Bits)
  | [] => .ok none
  | e :: rest => some <$> rest.foldlM (fun sum e => sum.arith .add e.length) e.length

def lengthConstraints (o : Options) : Except Fault (List Formula) := do
  let bounds := [.rel .sle (.const (BitVec.ofInt 32 o.minPacketLength)) size.term,
    size.relInt .sle o.maxPacketLength]
  let total := ((← totalLength p.extractions).getD (Bits.ofInt o.minPacketLength 32)).settle
  match p.maxLength with
  | none => return bounds ++ [← size.rel .eq total]
  | some most => return bounds ++ [← total.rel .sle size, ← size.rel .sle most]

def widestLookahead : Nat := p.lookaheads.foldl (fun w l => max w l.data.width) 0

def withTail : Packet :=
  { p with
    tailed := true
    extractions := p.extractions ++ [⟨tailLength, tail p.widestLookahead, false⟩] }

def tailConstraints : List Formula :=
  [tailLength.relInt .ule p.widestLookahead, (tailLength.arithInt .and 7).relInt .eq 0]

def among (e : Extraction) : List Extraction → Except Fault Bool
  | [] => .ok false
  | v :: rest => do
    if ← e.length.alike v.length then
      if ← e.data.alike v.data then return true else among e rest
    else among e rest

structure Comparison where
  data : Bits
  mask : Bits
  left : Bits
  bound : Int

namespace Comparison

def start (l : Lookahead) : Comparison :=
  let w := l.data.width
  let ones := Bits.ofInt (-1) w
  { data := if w < 32 then l.data.resize 32 else l.data
    mask := if w < 32 then ones.resize 32 else ones
    left := Bits.ofInt w 32
    bound := w }

def step (varying : List Extraction) (c : Comparison) (e : Extraction) :
    Except Fault (Formula × Option Comparison) := do
  let overlap ← e.length.arith .least c.left
  let left := (← c.left.arith .surplus e.length).settle
  let unread := (← e.length.arith .sub overlap).settle
  let masked ← c.data.arith .and c.mask
  let agree := (e.data.arithWide .lshr unread).relWide .eq (masked.arithWide .lshr left)
  let next : Comparison :=
    { c with left := left, mask := (c.mask.arithWide .lshr overlap.settle).settle }
  if ← among e varying then return (agree, some next)
  else
    let bound := c.bound - e.data.width
    return (agree, if bound ≤ 0 then none else some { next with bound := bound })

def fitsTail (c : Comparison) (e : Extraction) : List Extraction → Except Fault (List Formula)
  | [] => do return [← c.left.rel .ule e.length]
  | _ => .ok []

def run (varying : List Extraction) : Comparison → List Extraction → Except Fault (List Formula)
  | _, [] => .ok []
  | c, e :: rest => do
    let enough ← c.fitsTail e rest
    let (agree, next) ← step varying c e
    match next with
    | none => return enough ++ [agree]
    | some c => return enough ++ agree :: (← run varying c rest)

end Comparison

def lookaheadConstraints : Except Fault (List Formula) := do
  let varying := p.extractions.filter (·.varies)
  let parts ← p.lookaheads.mapM fun l =>
    Comparison.run varying (Comparison.start l) (p.extractions.drop l.index)
  return parts.flatten

def constraints (o : Options) : Except Fault (List Formula) × Packet :=
  match p.lengthConstraints o with
  | .error f => (.error f, p)
  | .ok lengths =>
    if p.tailed then (.error .violated, p)
    else if p.lookaheads.isEmpty then (.ok lengths, p)
    else
      let p' := p.withTail
      (do return lengths ++ p.tailConstraints ++ (← p'.lookaheadConstraints), p')

/-! ## Layout -/

/-- The digits laid out so far, last first, and the bits that do not fill a digit yet. -/
structure Layout where
  pieces : List (Nat × Nat) := []
  carryWidth : Nat := 0
  carry : Nat := 0

namespace Layout

def push (l : Layout) (width value : Nat) : Layout :=
  let value := value % Nat.pow 2 width + l.carry * Nat.pow 2 width
  let width := width + l.carryWidth
  let spare := width % 4
  let digits := width / 4
  let piece := if digits = 0 then [] else [(digits, value / Nat.pow 2 spare)]
  { pieces := piece ++ l.pieces, carryWidth := spare, carry := value % Nat.pow 2 spare }

def length (l : Layout) : Nat := (l.pieces.map Prod.fst).foldl (· + ·) 0

def text (l : Layout) : String :=
  String.join (l.pieces.reverse.map fun (digits, value) => Text.zeroFill digits (Text.hexDigits value))

end Layout

def bytesOf : List Char → List UInt8
  | a :: b :: rest => ((Text.digit? a).getD 0 * 16 + (Text.digit? b).getD 0).toUInt8 :: bytesOf rest
  | _ => []

/-- The bytes of the packet under an assignment. The extractions have to end with a whole
hexadecimal digit, and what they make up has to end with a whole byte. -/
def payload (ρ : Assignment) : Except Fault (List UInt8) := do
  let layout := p.extractions.foldl
    (fun l e => l.push (e.length.evalNat ρ) (e.data.evalNat ρ)) ({} : Layout)
  require (layout.carryWidth == 0)
  let bytes := (size.evalNat ρ + 7) / 8
  let missing := bytes * 2 - layout.length
  if (layout.length + missing) % 2 = 1 then throw .malformed
  return bytesOf (layout.text ++ "".pushn '0' missing).toList

end Packet

end PacketSmith
