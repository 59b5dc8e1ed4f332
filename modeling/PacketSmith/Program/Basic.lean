import PacketSmith.Program.Header
import PacketSmith.Program.Parser
import PacketSmith.Program.Pipeline

/-!
# Programs

The parts of a program file are read in a fixed order, since a header needs its type and a state the errors.
-/

namespace PacketSmith

structure ExternAttribute where
  name : Json
  type : Json
  value : Json

structure ExternInstance where
  name : Label
  id : Int
  type : Json
  attributes : List ExternAttribute

namespace ExternInstance

def readAttribute (v : Json) : Except Fault ExternAttribute := do
  let name ← v.get "name"
  let type ← v.get "type"
  return ⟨name, type, ← v.get "value"⟩

def ofJson (v : Json) : Except Fault ExternInstance := do
  let name ← v.get "name"
  let id ← (← v.get "id").toInt
  let type ← v.get "type"
  let attributes ← (← (← v.get "attribute_values").items).mapM readAttribute
  return ⟨← name.key, id, type, attributes⟩

end ExternInstance

structure About where
  version : String
  compiler : Option String

namespace About

def ofJson (v : Json) : Except Fault About := do
  let some version ← v.given "version" | throw (.lacking "__meta__" "version")
  let compiler ← v.given "compiler"
  return ⟨version.display, compiler.map Json.display⟩

end About

structure Program where
  source : Option String
  about : Option About
  headerTypes : Dict String HeaderType
  headers : Dict String Header
  headerStacks : Dict Label Stack
  errors : ErrorTable
  parsers : Dict String Parser
  actions : Dict (Label × Int) Action
  pipelines : Dict Label Pipeline
  externs : Dict Label ExternInstance

namespace Program

def readActions (vs : List Json) : Except Fault (Dict (Label × Int) Action) :=
  vs.foldlM (fun d v => do
    let a ← Action.ofJson v
    require (!d.contains (a.name, a.id))
    return d.insert (a.name, a.id) a) {}

def ofJson (lengthErrors : Bool) (v : Json) : Except Fault Program := do
  let source ← v.given "program"
  let about ←
    match ← v.get "__meta__" with
    | .null => pure none
    | given => some <$> About.ofJson given
  let types ← (← (← v.get "header_types").items).mapM HeaderType.ofJson
  let types := Dict.ofList (types.map fun t => (t.name, t))
  let headers ← (← (← v.get "headers").items).mapM (Header.ofJson types)
  let headerStacks ← (← (← v.get "header_stacks").items).mapM Stack.ofJson
  let errors ← ErrorTable.ofJson (← v.get "errors")
  let parsers ← (← (← v.get "parsers").items).mapM (Parser.ofJson errors lengthErrors)
  let actions ← readActions (← (← v.get "actions").items)
  let pipelines ← (← (← v.get "pipelines").items).mapM Pipeline.ofJson
  let externs ← (← (← v.get "extern_instances").items).mapM ExternInstance.ofJson
  return {
    source := source.map Json.display
    about := about
    headerTypes := types
    headers := Dict.ofList (headers.map fun h => (h.name, h))
    headerStacks := Dict.ofList (headerStacks.map fun s => (s.name, s))
    errors := errors
    parsers := Dict.ofList (parsers.map fun p => (p.name, p))
    actions := actions
    pipelines := Dict.ofList (pipelines.map fun p => (p.name, p))
    externs := Dict.ofList (externs.map fun e => (e.name, e)) }

def actionById (p : Program) (id : Int) : Except Fault Action :=
  match p.actions.values.reverse.find? fun a => a.id == id with
  | some a => .ok a
  | none => .error (.missing (.int id))

def field (p : Program) (header field : Json) : Except Fault Field := do
  let h ← header.key
  match h with
  | .text s =>
    match p.headers.get? s with
    | none => throw (.missing h)
    | some found =>
      match ← field.key with
      | .text f =>
        match found.fields.get? f with
        | some fd => return fd
        | none => throw (.missing (.text f))
      | other => throw (.missing other)
  | _ => throw (.missing h)

end Program

end PacketSmith
