import PacketSmith.Extern
import PacketSmith.Symbolic.Context

/-!
# Terms of operands

Operands of different widths are brought to one width by filling up the narrower one with zeros. Comparisons are those
of natural numbers, and shifting to the right keeps the sign.
-/

namespace PacketSmith

structure Setting where
  options : Options
  program : Program
  pipeline : Pipeline
  externs : Dict Label ExternObject := {}

inductive Value where
  | bits (b : Bits)
  | formula (f : Formula)
  | absent

namespace Value

def ofField : Option Bits → Value
  | some b => .bits b
  | none => .absent

def sized : Value → Except Fault Bits
  | .bits b => .ok b
  | _ => .error .noPart

def truth : Value → Except Fault Formula
  | .formula f => .ok f
  | _ => .error .sortMismatch

def isTruth (v : Value) (b : Bool) : Except Fault Formula :=
  match v with
  | .formula f => .ok (.conn .iff f (.truth b))
  | .bits _ => .error .sortMismatch
  | .absent => .ok (.truth false)

def rename (f : Variable → Nat → Variable) : Value → Value
  | .bits b => .bits (b.rename f)
  | .formula g => .formula (g.rename f)
  | .absent => .absent

end Value

/-- Widths are tried in steps of 32. The first that has room for a number is given with the last that was tried before
it. -/
@[semireducible] def roomFrom (n last width : Nat) : Nat × Nat :=
  if n < Nat.pow 2 width then (last, width) else roomFrom n width (width + 32)
termination_by n - width
decreasing_by
  have hwidth : width < Nat.pow 2 width := Nat.lt_two_pow_self
  omega

/-- The least width between two that has room for a number, by halving. -/
@[semireducible] def narrowest (n least most : Nat) : Nat :=
  if least < most then
    let middle := (least + most) / 2
    if n < Nat.pow 2 middle then narrowest n least middle else narrowest n (middle + 1) most
  else least
termination_by most - least

def bitLength (n : Nat) : Nat :=
  if n = 0 then 1
  else
    let (least, most) := roomFrom n 1 32
    narrowest n least most

def Bits.holding (n : Nat) (size : Int) : Except Fault Bits := do
  require (bitLength n ≤ size)
  Bits.constant n (some size)

namespace Operand

def className : Operand → String
  | .expression _ _ _ _ => "Expression"
  | .field _ _ => "Field"
  | .stackField _ _ => "StackField"
  | .hexstr _ => "Hexstr"
  | .lookahead _ _ => "Lookahead"
  | .header _ => "Header"
  | .stack _ => "Stack"
  | .headerStack _ => "HeaderStack"
  | .bool _ => "Bool"
  | .runtimeData _ => "RuntimeData"
  | .calculation _ => "Calculation"
  | .counterArray _ => "CounterArray"
  | .meterArray _ => "MeterArray"
  | .registerArray _ => "RegisterArray"
  | .regular _ => "Regular"
  | .externInstance _ => "Extern"

def classText (v : Operand) : String :=
  "<class 'p4pktgen.hlir.type_value.TypeValue" ++ v.className ++ "'>"

def unsupported (v : Operand) : Fault :=
  match v.display with
  | .ok shown => .unsupported ("Type value " ++ shown ++ " not supported (type: " ++ v.classText ++ ")")
  | .error f => f

def absentOperand : Fault :=
  .unsupported "Type value None not supported (type: <class 'NoneType'>)"

def headerName : Operand → Except Fault Json
  | .field h _ => .ok h
  | .stackField h _ => .ok h
  | .header h => .ok h
  | .stack h => .ok h
  | .regular h => .ok h
  | _ => .error .noPart

def fieldName : Operand → Except Fault Json
  | .field _ f => .ok f
  | .stackField _ f => .ok f
  | _ => .error .noPart

def stackName : Operand → Except Fault Json
  | .headerStack name => .ok name
  | _ => .error .noPart

def binary? : String → Option (Bits → Bits → Value)
  | "==" => some fun a b => .formula (a.relWide .eq b)
  | "!=" => some fun a b => .formula (.not (a.relWide .eq b))
  | "&" => some fun a b => .bits (a.arithWide .and b)
  | "|" => some fun a b => .bits (a.arithWide .or b)
  | "^" => some fun a b => .bits (a.arithWide .xor b)
  | "+" => some fun a b => .bits (a.arithWide .add b)
  | "-" => some fun a b => .bits (a.arithWide .sub b)
  | "*" => some fun a b => .bits (a.arithWide .mul b)
  | ">" => some fun a b => .formula (b.relWide .ult a)
  | "<" => some fun a b => .formula (a.relWide .ult b)
  | ">=" => some fun a b => .formula (b.relWide .ule a)
  | "<=" => some fun a b => .formula (a.relWide .ule b)
  | "<<" => some fun a b => .bits (a.arithWide .shl b)
  | ">>" => some fun a b => .bits (a.arithWide .ashr b)
  | _ => none

def unary? : String → Option (Value → Except Fault Value)
  | "not" => some fun v => do return .formula (.not (← v.truth))
  | "~" => some fun
    | .bits b => .ok (.bits ⟨b.width, .flip b.term⟩)
    | _ => .error .wrongKind
  | "d2b" => some fun
    | .bits b => .ok (.formula (b.relInt .eq 1))
    | .formula _ => .error .sortMismatch
    | .absent => .ok (.formula (.truth false))
  | "b2d" => some fun v => do
    return .bits ⟨1, .choose (← v.truth) (.const 1) (.const 0)⟩
  | _ => none

def connective? : String → Option Connective
  | "and" => some .and
  | "or" => some .or
  | _ => none

end Operand

namespace Symbolic

def readNamed (o : Options) (header field : Json) : Symbolic Value := do
  let h ← lift header.key
  let f ← lift field.key
  return Value.ofField (← read o (h, f))

def stackOf (p : Program) (name : Json) : Except Fault (Label × Stack) := do
  let key ← name.key
  match p.headerStacks.get? key with
  | some s => return (key, s)
  | none => throw (.missing key)

def readLastNamed (env : Setting) (stack field : Json) : Symbolic Value := do
  let (key, s) ← lift (stackOf env.program stack)
  let element ← lastElement key s.size
  return Value.ofField (← read env.options (element, ← lift field.key))

def numeral (v : Json) : Except Fault Int :=
  match v with
  | .int n => .ok n
  | .bool b => .ok b.toNat
  | .float x => Json.truncate x
  | .str s =>
    match Text.int? s with
    | some n => .ok n
    | none => .error .sortMismatch
  | _ => .error .sortMismatch

def lookaheadSize : Json → Except Fault Int
  | .int n => .ok n
  | .bool b => .ok b.toNat
  | _ => .error .noWidth

def lookahead (o : Options) (offset size : Json) : Symbolic Bits := do
  let _ ← lift (numeral offset)
  let _ ← lift (numeral size)
  let n ← lift (lookaheadSize size)
  let (v, p) ← lift ((← get).packet.lookahead o (some n))
  modify fun s => { s with packet := p }
  return v

def isValid (o : Options) (header : Json) : Symbolic Value := do
  match ← readNamed o header (.str "$valid$") with
  | .bits b => do return .formula (← lift (b.rel .eq (Bits.ofInt 1 1)))
  | .formula _ => throw .sortMismatch
  | .absent => return .formula (.truth false)

def operator (o : Options) (op : Json) (operand : Operand) (cond left right : Symbolic Value) :
    Symbolic Value :=
  match op with
  | .str name =>
    match Operand.connective? name, Operand.unary? name, Operand.binary? name with
    | some conn, _, _ => do
      let a ← left
      let b ← right
      return .formula (.conn conn (← lift a.truth) (← lift b.truth))
    | none, some f, _ => do lift (f (← right))
    | none, none, some f => do
      let a ← left
      let b ← right
      return f (← lift a.sized) (← lift b.sized)
    | none, none, none =>
      if name == "valid" then
        match operand with
        | .header h => isValid o h
        | _ => throw .violated
      else if name == "?" then do
        let c ← cond
        let a ← left
        let b ← right
        let (a, b) := (← lift a.sized).equalize (← lift b.sized)
        return .bits (← lift (Bits.choose (← lift c.truth) a b))
      else throw (.unsupported ("Type value expression " ++ name ++ " not supported"))
  | other => throw (.unsupported ("Type value expression " ++ other.display ++ " not supported"))

def value (env : Setting) (inParser : Bool) : Operand → Symbolic Value
  | .hexstr n => do
    require (0 ≤ n)
    return .bits (Bits.ofInt n (bitLength n.toNat))
  | .header _ => throw (.unsupported "Unexpected")
  | .bool b => return .formula (.truth b.truth)
  | .lookahead offset size => do
    require inParser
    return .bits (← lookahead env.options offset size)
  | .field h f => readNamed env.options h f
  | .stackField h f => readLastNamed env h f
  | .runtimeData i => do return .bits (← lift ((← context).currentParameter i))
  | .expression op cond left right =>
    operator env.options op right
      (match cond with
        | some c => value env inParser c
        | none => throw Operand.absentOperand)
      (match left with
        | some l => value env inParser l
        | none => throw Operand.absentOperand)
      (value env inParser right)
  | other => throw other.unsupported

end Symbolic

end PacketSmith
