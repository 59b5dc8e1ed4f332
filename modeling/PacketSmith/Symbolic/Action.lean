import PacketSmith.Symbolic.ParseOp

/-!
# Actions

*Assignments* bring the value to the size of the field, by cutting off or filling up at the significant end.
*Dropping* a packet sends it to the number that stands for no way out. The fields of a header that becomes invalid
lose their values. *Stacks* are copied or shifted element by element: an element that is known to be valid hands on
its fields, and any other one makes its target invalid.
-/

namespace PacketSmith

namespace Symbolic

variable (o : Options)

def invalidate (header : Label) : Symbolic Unit := do
  setValid o header false
  clear header

def typeNamed (p : Program) (name : Label) : Except Fault HeaderType :=
  match (match name with
    | .text s => p.headerTypes.get? s
    | _ => none) with
  | some t => .ok t
  | none => .error (.missing name)

def elementValidity (name : Label) : Symbolic Bits := do
  match ← read o (name, Context.valid) with
  | some v => return v.settle
  | none => throw .sortMismatch

def copyFields (type : HeaderType) (src dst : Label) : Symbolic Unit :=
  type.fields.values.forM fun f => do
    write o (dst, .text f.name) (← read o (src, .text f.name))

def handOn (type : HeaderType) (validity : Bits) (src dst : Label) : Symbolic Unit := do
  if ← lift (validity.isBit true) then copyFields o type src dst else invalidate o dst

def between (a b : Int) : List Int := (List.range (b - a).toNat).map fun (i : Nat) => a + i

def assignStack (env : Setting) (target source : Json) : Symbolic Unit := do
  let (_, src) ← lift (stackOf env.program source)
  let (_, dst) ← lift (stackOf env.program target)
  let type ← lift (typeNamed env.program src.headerType)
  (between 0 src.size).forM fun i => do
    let element := Context.elementName src.name i
    let copy := Context.elementName dst.name i
    let validity ← elementValidity env.options element
    write env.options (copy, Context.valid) (some validity)
    handOn env.options type validity element copy

def moveElement (env : Setting) (type : HeaderType) (stack : Label) (src dst : Int) :
    Symbolic Unit := do
  let element := Context.elementName stack src
  let validity ← elementValidity env.options element
  handOn env.options type validity element (Context.elementName stack dst)

def shiftOperands (env : Setting) (parameters : List Operand) :
    Except Fault (Label × Stack × HeaderType × Int) := do
  match parameters with
  | [] => throw .outOfRange
  | .headerStack name :: rest =>
    match rest with
    | [] => throw .outOfRange
    | .hexstr n :: _ =>
      let (key, s) ← stackOf env.program name
      return (key, s, ← typeNamed env.program s.headerType, n)
    | _ => throw .violated
  | _ => throw .violated

def pop (env : Setting) (parameters : List Operand) : Symbolic Unit := do
  let (stack, s, type, n) ← lift (shiftOperands env parameters)
  (between n s.size).forM fun i => moveElement env type stack i (i - n)
  (between (s.size - n) s.size).forM fun i => invalidate env.options (Context.elementName stack i)

def push (env : Setting) (parameters : List Operand) : Symbolic Unit := do
  let (stack, s, type, n) ← lift (shiftOperands env parameters)
  (between n s.size).reverse.forM fun i => moveElement env type stack (i - n) i
  (between 0 n).forM fun i => invalidate env.options (Context.elementName stack i)

def assign (env : Setting) (parameters : List Operand) : Symbolic Unit := do
  let some source := (parameters[1]? : Option Operand) | throw .outOfRange
  let some target := parameters.head? | throw .outOfRange
  let v ← value env false source
  let name ← lift target.headerName
  let key ← lift name.key
  let some h := (match key with
    | .text s => env.program.headers.get? s
    | _ => none) | throw (.missing key)
  let fieldKey ← lift (← lift target.fieldName).key
  let some f := (match fieldKey with
    | .text s => h.fields.get? s
    | _ => none) | throw (.missing fieldKey)
  write env.options (key, fieldKey) (some (← lift (fitField f.size v)))

def drop : Symbolic Unit := do
  write o (.text "standard_metadata", .text "egress_spec") (some (Bits.ofInt 511 9))
  write o (.text "standard_metadata", .text "mcast_grp") (some (Bits.ofInt 0 16))

def firstHeader (parameters : List Operand) : Except Fault Label := do
  let some v := parameters.head? | throw .outOfRange
  (← v.headerName).key

/-! ## Externs -/

def readArgument (ref : FieldRef) : Symbolic (Option Bits) := do
  let c ← context
  if c.values.contains ref then read o ref
  else
    let some info := c.fields.get? ref | throw .missingPair
    if info.metadata && o.solveForMetadata then read o ref
    else return some (← lift (Bits.constant 0 info.size))

def headerFields (p : Program) (name : Json) : Except Fault (List FieldRef) := do
  let key ← name.key
  let some h := (match key with
    | .text s => p.headers.get? s
    | _ => none) | throw (.missing key)
  return (h.fields.keys.filter (· != "$valid$")).map fun f => (key, .text f)

def externArgument (env : Setting) : Operand → Symbolic ExternArgument
  | .field h f => do
    let h ← lift h.key
    let f ← lift f.key
    return .field (← readArgument env.options (h, f))
  | .header name => do
    let refs ← lift (headerFields env.program name)
    return .header (← refs.mapM (readArgument env.options))
  | _ => throw .violated

def sameSizes : Option Bits → Option Bits → Bool
  | some a, some b => a.width == b.width
  | _, _ => false

def argumentFits : ExternArgument → ExternResult → Bool
  | .field a, .field b => sameSizes a (b.getD a)
  | .header as, .header bs =>
    as.length == bs.length && (as.zip bs).all fun (a, b) => sameSizes a (b.getD a)
  | _, _ => false

def storeField (o : Options) (ref : FieldRef) : Option (Option Bits) → Symbolic Unit
  | some b => write o ref b
  | none => pure ()

def storeArgument (env : Setting) (v : Operand) (set : ExternResult) : Symbolic Unit := do
  match v, set with
  | .field h f, .field b => storeField env.options (← lift h.key, ← lift f.key) b
  | .header name, .header bs =>
    let refs ← lift (headerFields env.program name)
    setValid env.options (← lift name.key)
    (refs.zip bs).forM fun (ref, b) => storeField env.options ref b
  | _, _ => pure ()

def callExtern (env : Setting) (method : ExternMethod) (operands : List Operand) : Symbolic Unit := do
  let given ← operands.mapM (externArgument env)
  let set ← lift (method given)
  require (set.length == given.length)
  require ((given.zip set).all fun (a, b) => argumentFits a b)
  (operands.zip set).forM fun (v, b) => storeArgument env v b

def externPrimitive (env : Setting) (op name : Json) (operands : List Operand) : Symbolic Unit := do
  let key ← lift name.key
  let some e := env.program.externs.get? key | throw (.missing key)
  let start := "_" ++ e.type.display ++ "_"
  let .str op := op | throw .noPart
  require (Text.startsWith op start) (.refuted ("Unexpected op " ++ op ++
    " for extern call to instance of type " ++ e.type.display))
  let method := String.ofList (op.toList.drop start.length)
  let some object := env.externs.get? e.name | throw (.missing e.name)
  let some call := object method
    | throw (.refuted ("Extern definition provided for " ++ e.name.display ++ " does not implement " ++
        method))
  callExtern env call operands

/-! ## Primitives -/

def unimplemented : List String := [
  "modify_field_rng_uniform", "modify_field_with_hash_based_offset",
  "clone_ingress_pkt_to_egress", "clone_egress_pkt_to_egress", "count", "execute_meter",
  "generate_digest"]

def primitive? (env : Setting) (parameters : List Operand) : String → Option (Symbolic Unit)
  | "modify_field" | "assign" => some (assign env parameters)
  | "drop" | "mark_to_drop" => some (drop env.options)
  | "add_header" => some do setValid env.options (← lift (firstHeader parameters))
  | "remove_header" => some do invalidate env.options (← lift (firstHeader parameters))
  | "assign_header_stack" => some do
    let some source := (parameters[1]? : Option Operand) | throw .outOfRange
    let source ← lift source.stackName
    let _ ← lift (stackOf env.program source)
    let some target := parameters.head? | throw .outOfRange
    assignStack env (← lift target.stackName) source
  | "pop" => some (pop env parameters)
  | "push" => some (push env parameters)
  | _ => none

def primitive (env : Setting) (call : PrimitiveCall) : Symbolic Unit :=
  match call.op.str?.bind (primitive? env call.parameters) with
  | some step => step
  | none =>
    match call.parameters with
    | .externInstance name :: operands => externPrimitive env call.op name operands
    | _ =>
      if (call.op.str?.map unimplemented.contains).getD false then
        if env.options.allowUnimplementedPrimitives then pure ()
        else throw (.unsupported
          "Primitive op \x7b\x7d only allowed with--allow-unimplemented-primitives option")
      else throw (.unsupported ("Primitive op " ++ call.op.display ++ " not supported"))

def primitives (env : Setting) : List PrimitiveCall → Symbolic Unit
  | [] => pure ()
  | call :: rest => do
    setSource call.source
    primitive env call
    setSource none
    primitives env rest

def action (env : Setting) (table : Label) (a : Action) : Symbolic Unit := do
  setAction table a.name
  addParameters env.options table a.name (a.parameters.map fun p => (p.name.asLabel, p.width))
  modifyContext fun c => { c with currentTable := table }
  try primitives env a.primitives
  finally modifyContext fun c => { c with currentTable := .null }

end Symbolic

end PacketSmith
