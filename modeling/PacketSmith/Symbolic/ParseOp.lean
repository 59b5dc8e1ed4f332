import PacketSmith.Symbolic.Operand

/-!
# Operations of a parser

An operation starts at a position of the packet and answers with the position after it. It may be taken to fail with
an error.
-/

namespace PacketSmith

namespace Symbolic

def outOfBounds (env : Setting) (op : ParseOp) : Symbolic Bool :=
  go op.stackParts
where
  go : List Operand → Symbolic Bool
    | [] => return false
    | v :: rest => do
      let name ← lift v.headerName
      let count ← stackCount (← lift name.key)
      let (_, s) ← lift (stackOf env.program name)
      require ((count : Int) ≤ s.size)
      let limit : Int := match v with
        | .stack _ => s.size
        | _ => 0
      if count = limit then return true else go rest

def extractedType (p : Program) (v : Operand) : Except Fault (Label × HeaderType) := do
  match v with
  | .regular name =>
    let key ← name.key
    let some h := (match key with
      | .text s => p.headers.get? s
      | _ => none) | throw (.missing key)
    let some t := p.headerTypes.get? h.typeName | throw (.missing h.typeName)
    return (key, t)
  | .stack name =>
    let (key, s) ← stackOf p name
    let some t := (match s.headerType with
      | .text n => p.headerTypes.get? n
      | _ => none) | throw (.missing s.headerType)
    return (key, t)
  | _ => throw .violated

def isMetadata (p : Program) : Label → Bool
  | .text s => ((p.headers.get? s).map Header.metadata).getD false
  | _ => false

def enter (env : Setting) (v : Operand) (key : Label) : Symbolic Label := do
  match v with
  | .stack _ =>
    let name ← nextElement key
    setValid env.options name
    return name
  | _ =>
    if isMetadata env.program key then return key
    else
      setValid env.options key
      return key

def advance (pos offset : Bits) : Symbolic Bits := lift (pos.arith .add offset)

def tooShort (pos : Bits) : Symbolic Unit := setMaxLength (pos.arithInt .sub 8).settle

def extractionLabel (header : Label) (field : String) : String := header.display ++ "." ++ field

def extractHeader (env : Setting) (v : Operand) (fail : Label) (pos : Bits) : Symbolic Bits := do
  let (key, type) ← lift (extractedType env.program v)
  if fail == .text "PacketTooShort" then
    let sizes ← lift (type.fields.values.mapM fun f => Bits.word f.size)
    let needed ← sizes.foldlM advance (Bits.ofInt 0 32)
    tooShort (← advance pos needed)
    return pos
  else
    let name ← enter env v key
    let length ← type.fields.entries.foldlM (fun offset (fieldName, f) => do
      let data ← extract env.options f.size none (extractionLabel name fieldName)
      modifyContext fun c => c.put (name, .text fieldName) (some data)
      advance offset (← lift (Bits.word f.size))) (Bits.ofInt 0 32)
    advance pos length

def varyingLength (length : Bits) (fields : List Field) : Symbolic Bits :=
  fields.foldlM (fun sum f => do
    if f.name == "$valid$" then return sum
    else if f.varLength then advance sum length
    else advance sum (← lift (Bits.word f.size))) (Bits.ofInt 0 32)

def headerTooShort (env : Setting) (length pos : Bits) : Bits → List Field → Symbolic Formula
  | _, [] => throw .violated
  | offset, f :: rest => do
    if f.varLength then
      let some size := f.size | throw .sortMismatch
      let start ← advance pos offset
      let beyond ← lift ((Bits.ofInt size length.width).rel .ult length)
      let fits ← lift (length.rel .ult (← lift ((Bits.ofInt Packet.maxSize 32).arith .sub start)))
      let _ ← extract env.options f.size (some length) none
      return .conn .and beyond fits
    else if f.name == "$valid$" then headerTooShort env length pos offset rest
    else headerTooShort env length pos (← advance offset (← lift (Bits.word f.size))) rest

def extractVarying (env : Setting) (name : Label) (length : Bits) :
    Bits → List (String × Field) → Symbolic (Bits × List Formula)
  | offset, [] => return (offset, [])
  | offset, (fieldName, f) :: rest => do
    let ref : FieldRef := (name, .text fieldName)
    if fieldName == "$valid$" then
      setValid env.options name
      extractVarying env name length offset rest
    else if f.varLength then
      let data ← extract env.options f.size (some length) (extractionLabel name fieldName)
      let some size := f.size | throw .sortMismatch
      let bound ← lift (length.rel .ule (Bits.ofInt size length.width))
      recordLength ref length
      modifyContext fun c => c.put ref (some data)
      let (offset, more) ← extractVarying env name length (← advance offset length) rest
      return (offset, bound :: more)
    else
      let data ← extract env.options f.size none (extractionLabel name fieldName)
      modifyContext fun c => c.put ref (some data)
      extractVarying env name length (← advance offset (← lift (Bits.word f.size))) rest

def extractVaryingHeader (env : Setting) (v size : Operand) (fail : Label) (pos : Bits) :
    Symbolic (Bits × List Formula) := do
  let length ← lift (← value env true size).sized
  let whole := (length.arithInt .and 7).relInt .eq 0
  let (key, type) ← lift (extractedType env.program v)
  if fail == .text "PacketTooShort" then
    tooShort (← advance pos (← varyingLength length type.fields.values))
    return (pos, [whole])
  else if fail == .text "HeaderTooShort" then
    let excess ← headerTooShort env length pos (Bits.ofInt 0 32) type.fields.values
    return (pos, [whole, excess])
  else
    let name ← enter env v key
    let (offset, bounds) ← extractVarying env name length (Bits.ofInt 0 32) type.fields.entries
    return (← advance pos offset, whole :: bounds)

def fitField (size : Option Int) (v : Value) : Except Fault Bits := do
  let b ← v.sized
  match size with
  | some n => b.fit n
  | none => throw .wrongKind

def setField (env : Setting) (target source : Operand) : Symbolic Unit := do
  match target with
  | .field h f =>
    let field ← lift (env.program.field h f)
    let v ← value env true source
    write env.options (h.asLabel, f.asLabel) (some (← lift (fitField field.size v)))
  | _ => throw .violated

def isExtractable : Operand → Bool
  | .regular _ => true
  | .stack _ => true
  | _ => false

/-- The effect of an operation that is taken to fail with an error, or not to fail if the error is
the empty text: the position after it, and the constraints it adds. -/
def parseOp (env : Setting) (op : ParseOp) (fail : Label) (pos : Bits) :
    Symbolic (Bits × List Formula) := do
  match op with
  | .plain .extract values =>
    match values with
    | [v] =>
      require (isExtractable v)
      return (← extractHeader env v fail pos, [])
    | _ => throw .violated
  | .plain .set values =>
    match values with
    | [target, source] =>
      setField env target source
      return (pos, [])
    | _ => throw .violated
  | .plain .extractVL values =>
    match values with
    | [v, size] =>
      require (isExtractable v)
      extractVaryingHeader env v size fail pos
    | _ => throw .violated
  | .plain .verify values =>
    let some v := values.head? | throw .outOfRange
    let c ← value env true v
    return (pos, [← lift (c.isTruth (fail == .text ""))])
  | .plain .shift _ => throw (.unsupported "Parser op not supported: P4ParserOpsEnum.shift")
  | .primitive call =>
    if call.op == .str "add_header" then
      let some v := call.parameters.head? | throw .outOfRange
      setValid env.options (← lift (← lift v.headerName).key)
      return (pos, [])
    else throw (.unsupported ("Primitive not supported: " ++ call.op.display))

end Symbolic

end PacketSmith
