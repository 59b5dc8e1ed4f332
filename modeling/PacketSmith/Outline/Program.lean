import PacketSmith.Drawing

/-!
# Outlines of programs

An outline shows a value as a JSON value of small arrays. Numbers that stand for bit strings are shown in base
sixteen, and what is absent is shown as null.
-/

namespace PacketSmith

class Shown (α : Type) where
  shown : α → Json

def Json.list (v : Json) : List Json := v.arr?.getD []

def Json.members : Json → List (String × Json)
  | .obj ms => ms
  | _ => []

namespace Outline

open Shown

variable {α β : Type} [Shown α] [Shown β]

scoped instance (a : α) : CoeDep α a Json := ⟨shown a⟩

instance : Shown Json := ⟨id⟩

instance : Shown String := ⟨.str⟩

instance : Shown Int := ⟨.int⟩

instance : Shown Nat := ⟨fun n => .int n⟩

instance : Shown Bool := ⟨.bool⟩

instance : Shown Label := ⟨Label.toJson⟩

instance : Shown (List α) := ⟨fun l => .arr (l.map shown)⟩

instance : Shown (Option α) := ⟨fun o => (o.map shown).getD .null⟩

instance : Shown (α × β) := ⟨fun p => .arr [p.1, p.2]⟩

instance : Shown Unit := ⟨fun _ => .null⟩

instance : Shown (Except α β) := ⟨fun
  | .ok b => b
  | .error a => a⟩

def hex (n : Int) : Json := Text.hex n

def labelLe : Label → Label → Bool
  | .text s, .text t => s ≤ t
  | .int m, .int n => m ≤ n
  | .null, _ => true
  | _, .null => false
  | .text _, .int _ => false
  | _, _ => true

instance : Shown SourceInfo := ⟨fun s => .arr [s.filename, s.line, s.column, s.fragment]⟩

def operand : Operand → Json
  | .expression op cond left right =>
    .arr ["expression", op,
      (match cond with
        | some c => operand c
        | none => .null),
      (match left with
        | some l => operand l
        | none => .null),
      operand right]
  | .field h f => .arr ["field", h, f]
  | .stackField h f => .arr ["stack_field", h, f]
  | .hexstr n => .arr ["hexstr", hex n]
  | .lookahead o s => .arr ["lookahead", o, s]
  | .header n => .arr ["header", n]
  | .stack n => .arr ["stack", n]
  | .headerStack n => .arr ["header_stack", n]
  | .bool v => .arr ["bool", v]
  | .runtimeData i => .arr ["runtime_data", i]
  | .calculation n => .arr ["calculation", n]
  | .counterArray n => .arr ["counter_array", n]
  | .meterArray n => .arr ["meter_array", n]
  | .registerArray n => .arr ["register_array", n]
  | .regular n => .arr ["regular", n]
  | .externInstance n => .arr ["extern", n]

instance : Shown Operand := ⟨operand⟩

instance : Shown PrimitiveCall := ⟨fun c => .arr [c.op, c.parameters, c.source]⟩

instance : Shown Field := ⟨fun f => .arr [f.name, f.size, f.signed, f.varLength]⟩

instance : Shown HeaderType := ⟨fun t =>
  .obj [("name", t.name), ("id", t.id), ("fields", t.fields.values), ("length_exp", t.lengthExp),
    ("max_length", t.maxLength)]⟩

instance : Shown Header := ⟨fun h =>
  .obj [("name", h.name), ("id", h.id), ("type", h.typeName), ("metadata", h.metadata), ("pi_omit", h.piOmit),
    ("fields", h.fields.values)]⟩

instance : Shown Stack := ⟨fun s => .arr [s.name, s.id, s.headerType, s.size]⟩

instance : Shown ParseOp := ⟨fun op =>
  let values : Json := match op with
    | .plain _ values => values
    | .primitive c => [c]
  .arr [op.name, values, op.stackParts]⟩

def transition (states : Dict String ParseState) (t : Transition) : Json :=
  let next : Json := match Parser.follow states t with
    | .ok s => s
    | _ => .null
  .arr [t.kind, t.value.map hex, t.mask.map hex, t.target, next]

def state (states : Dict String ParseState) (s : ParseState) : Json :=
  .obj [("name", s.name), ("id", s.id), ("ops", s.ops), ("transitions", s.transitions.map (transition states)),
    ("key", s.key), ("errors", s.errors.map fun e => (e.error, e.opIndex)), ("stack_extracts", s.stackExtracts),
    ("has_stack_extracts", !s.stackExtracts.isEmpty), ("stack_key_elems", s.stackKeys)]

instance : Shown Parser := ⟨fun p =>
  .obj [("name", p.name), ("id", p.id), ("init_state", p.initState), ("states", p.states.values.map (state p.states))]⟩

instance : Shown Action := ⟨fun a =>
  .obj [("name", a.name), ("id", a.id), ("runtime_data", a.parameters.map fun q => (q.name, q.width)),
    ("primitives", a.primitives)]⟩

instance : Shown TableEntry := ⟨fun e =>
  .arr [e.matchKeys.map fun k => (k.matchType, k.key), e.actionId, e.actionData, e.priority]⟩

instance [Shown Fault] : Shown Table := ⟨fun t =>
  let successors := t.successors.entries.mergeSort fun a b =>
    if a.1.1 == b.1.1 then a.1.2 ≤ b.1.2 else labelLe a.1.1 b.1.1
  .obj [("name", t.name), ("id", t.id), ("match_type", t.matchType), ("max_size", t.maxSize),
    ("key", .arr (t.key.map fun k => .arr [k.matchType, k.target, k.mask])), ("actions", t.actions),
    ("base_default_next", t.baseDefaultNext),
    ("next_tables", .arr (successors.map fun e => .arr [e.1.1, e.1.2, e.2])),
    ("default_entry", t.defaultEntry.map fun d => Json.arr [d.actionId, d.actionConst, d.entryConst]),
    ("entries", t.entries), ("source_info", t.source), ("keyless", t.keyless), ("const_entries", t.hasConstEntries),
    ("default_action", t.defaultAction)]⟩

instance : Shown Conditional := ⟨fun c =>
  .obj [("name", c.name), ("id", c.id), ("expression", c.expression), ("true_next", c.trueNext),
    ("false_next", c.falseNext), ("source_info", c.source)]⟩

instance [Shown Fault] : Shown Pipeline := ⟨fun p =>
  .obj [("name", p.name), ("id", p.id), ("init_table", p.initTable), ("tables", p.tables.values),
    ("conditionals", p.conditionals.values)]⟩

instance : Shown ExternInstance := ⟨fun e =>
  .arr [e.name, e.id, e.type, .arr (e.attributes.map fun a => .arr [a.name, a.type, a.value])]⟩

instance [Shown Fault] : Shown Program := ⟨fun p =>
  .obj [("program", p.source), ("meta", p.about.map fun a => (a.version, a.compiler)),
    ("header_types", p.headerTypes.values), ("headers", p.headers.values), ("stacks", p.headerStacks.values),
    ("id_to_errors", p.errors.byId.entries.mergeSort fun a b => a.1 ≤ b.1),
    ("errors_to_id", p.errors.byName.entries.mergeSort fun a b => labelLe a.1 b.1),
    ("parsers", p.parsers.values), ("actions", p.actions.values), ("pipelines", p.pipelines.values),
    ("externs", p.externs.values)]⟩

instance : Shown ParserEdge := ⟨fun e =>
  let single (t : Transition) : Json := .arr ["T", e.src, e.dst, t.value.map hex, t.mask.map hex]
  match e.label with
  | .transition t => single t
  | .composite parts => .arr ["C", e.src, e.dst, parts.map single]
  | .error err => .arr ["E", e.src, e.dst, err.error, err.opIndex]⟩

def controlEdge (p : Pipeline) (e : ControlEdge) : Json :=
  let row (kind : String) (rest : List Json) : Json := .arr (↑kind :: ↑e.src :: ↑e.dst :: rest)
  match e.label with
  | .action name id byDefault => row "A" [name, id, byDefault]
  | .constAction name id i =>
    row "K" [name, id, (p.tables.get? e.src).bind fun t => t.entries[i]?.map TableEntry.actionData]
  | .branch value _ => row "B" [value]
  | .noop => row "N" []

instance : Shown DrawCall := ⟨fun
  | .comment c => .arr ["comment", c]
  | .node name label shape color => .arr ["node", name, label, shape, color]
  | .edge src dst label color style constraint => .arr ["edge", src, dst, label, color, style, constraint]
  | .render file => .arr ["render", file, false]⟩

/-! ## Graphs -/

def edgeText (e : Edge Label Unit) : String := e.src.display ++ " -> " ++ e.dst.display

def edgesText (es : List (Edge Label Unit)) : String := "[" ++ ", ".intercalate (es.map edgeText) ++ "]"

def graphText (g : Graph Label Unit) : String :=
  "\x7b" ++ ", ".intercalate (g.out.entries.map fun e => e.1.inner ++ ": " ++ edgesText e.2) ++ "\x7d"

end Outline

end PacketSmith
