import PacketSmith.Console.Resource

/-!
# The catalog of resources

*Loading.* A catalog is filled step by step in the order of the file. A step that fails leaves what was filled in
before, and resources can then be listed but not looked up. An action profile declared again hides the earlier one,
but the tables that use the earlier one keep it.

*Names.* A resource can be looked up by the last parts of its name, as long as no other resource of its kind ends in
the same parts. This holds for whole names too: a name that another one ends in cannot be looked up.
-/

namespace PacketSmith.Console

structure Catalog where
  tables : Dict String TableInfo := {}
  profiles : List ProfileInfo := []
  profileNames : Dict String Nat := {}
  actions : Dict String ActionInfo := {}
  meters : Dict String MeterInfo := {}
  counters : Dict String CounterInfo := {}
  registers : Dict String RegisterInfo := {}
  checksums : Dict Label Nat := {}
  valueSets : Dict String ValueSetInfo := {}
  unnamed : Bool := false
  complete : Bool := false

namespace Catalog

variable (c : Catalog) (suffix : String)

/-! ## Names -/

def endings : List String → List String
  | [] => []
  | part :: rest => ".".intercalate (part :: rest) :: endings rest

def suffixes (name : String) : List String := endings (Text.split "." name)

def names : ResourceKind → List String
  | .table => c.tables.keys
  | .profile => c.profileNames.keys
  | .action => c.actions.keys
  | .meter => c.meters.keys
  | .counter => c.counters.keys
  | .register => c.registers.keys
  | .valueSet => c.valueSets.keys

def occurrences (names : List String) : List (String × String) :=
  names.flatMap fun name => (suffixes name).map fun s => (s, name)

/-- The name that a suffix stands for. A suffix that comes up more than once stands for none. -/
def resolveAmong (names : List String) (suffix : String) : Option String :=
  match (occurrences names).filter fun o => o.1 == suffix with
  | [o] => some o.2
  | _ => none

def resolve (kind : ResourceKind) (suffix : String) : Option String :=
  if c.complete then resolveAmong (c.names kind) suffix else none

def resolved (kind : ResourceKind) : List (String × String) :=
  (occurrences (c.names kind)).filter fun o => c.resolve kind o.1 == some o.2

/-! ## Lookup -/

def table? : Option TableInfo :=
  (c.resolve .table suffix).bind c.tables.get?

def action? : Option ActionInfo :=
  (c.resolve .action suffix).bind c.actions.get?

def profileNamed? (name : String) : Option ProfileInfo :=
  (c.profileNames.get? name).bind fun i => c.profiles[i]?

def profile? : Option ProfileInfo :=
  (c.resolve .profile suffix).bind c.profileNamed?

def meter? : Option MeterInfo :=
  (c.resolve .meter suffix).bind c.meters.get?

def counter? : Option CounterInfo :=
  (c.resolve .counter suffix).bind c.counters.get?

def register? : Option RegisterInfo :=
  (c.resolve .register suffix).bind c.registers.get?

def valueSet? : Option ValueSetInfo :=
  (c.resolve .valueSet suffix).bind c.valueSets.get?

def actionAmong? (actions : List String) (suffix : String) : Option ActionInfo :=
  (c.action? suffix).filter fun a => actions.contains a.name

def profileOf? (t : TableInfo) : Option ProfileInfo :=
  t.profile.bind fun i => c.profiles[i]?

def tableLine (t : TableInfo) : String :=
  let profile := match c.profileOf? t with
    | some p => p.name
    | none => "None"
  Text.padRight nameColumn t.name ++ " [implementation=" ++ profile ++ ", mk=" ++ t.keyText ++ "]"

/-! ## Loading -/

abbrev Load := ExceptT Fault (StateM Catalog)

namespace Load

variable (v : Json)

def list (source : Json) (name : String) : Load (List Json) :=
  liftM ((source.member? name).getD (.arr [])).items

def nameAt (key : String) : Load String := do
  match ← (← v.get key).key with
  | .text s => return s
  | l =>
    modify fun c => { c with unnamed := true }
    return l.display

def declareProfile (name : String) (id : Json) (selects : Bool) : Load Nat := do
  let i := (← get).profiles.length
  modify fun c => { c with
    profiles := c.profiles ++ [{ name := name, id := id, selects := selects }]
    profileNames := c.profileNames.insert name i }
  return i

def action : Load Unit := do
  let name ← nameAt v "name"
  let id ← v.get "id"
  modify fun c => { c with actions := c.actions.insert name { name := name, id := id } }
  for p in ← (← v.get "runtime_data").items do
    let param := (← p.get "name", ← p.get "bitwidth")
    modify fun c => { c with
      actions := c.actions.alter name { name := name, id := id } fun a => { a with params := a.params ++ [param] } }

def fieldWidth (source target : Json) : Except Fault Json := do
  let header ← target.elem 0
  let type ← (← (← source.get "headers").items).findSomeM? fun h => do
    if (← h.get "name").same header then return some (← h.get "header_type") else return none
  let some type := type | throw .violated
  let field ← target.elem 1
  let width ← (← (← source.get "header_types").items).findSomeM? fun t => do
    if !(← t.get "name").same type then return none
    (← (← t.get "fields").items).findSomeM? fun f => do
      let name ← f.elem 0
      let width ← f.elem 1
      return if name.same field then some width else none
  let some width := width | throw .violated
  return width

def validName : Json → Except Fault String
  | .str s => .ok (s ++ "_valid")
  | _ => .error .wrongKind

def keyField (source v : Json) : Except Fault KeyInfo := do
  let target ← v.get "target"
  let kind ← MatchKind.ofJson (← v.get "match_type")
  if kind = .valid then return ⟨← validName target, kind, .int 1⟩
  else if (← target.elem 1).same (.str "$valid$") then
    return ⟨← validName (← target.elem 0), kind, .int 1⟩
  else
    let parts ← (← target.items).mapM fun v =>
      match v with
      | .str s => Except.ok s
      | _ => Except.error Fault.wrongKind
    return ⟨".".intercalate parts, kind, ← fieldWidth source target⟩

def ownProfile (t : TableInfo) : Load Nat := do
  if ← v.holds "action_profile" then
    let l ← (← v.get "action_profile").key
    match l with
    | .text s =>
      match (← get).profileNames.get? s with
      | some i => return i
      | none => throw (.missing l)
    | l => throw (.missing l)
  else
    require (← v.holds "act_prof_name")
    let name ← nameAt v "act_prof_name"
    declareProfile name t.id (← v.holds "selector")

def tableProfile (t : TableInfo) : Load (Option Nat) := do
  if t.source = .simple then return none
  else
    let i ← ownProfile v t
    modify fun c => { c with profiles := c.profiles.modify i fun p => { p with
      actions := p.actions ++ t.actions.filter (fun a => !p.actions.contains a)
      users := p.users + 1 } }
    return some i

def table (source v : Json) : Load Unit := do
  let name ← nameAt v "name"
  let id ← v.get "id"
  let put (t : TableInfo) : Load Unit := modify fun c => { c with tables := c.tables.insert name t }
  put { name := name, id := id }
  let kind ← MatchKind.ofJson (← v.get "match_type")
  let origin ← TableKind.ofJson (← v.get "type")
  let timeouts ← v.get "support_timeout"
  let actions ← (← (← v.get "actions").items).foldlM (fun (acc : List String) a => do
    let l ← a.key
    match l with
    | .text s =>
      if (← get).actions.contains s then return if acc.contains s then acc else acc ++ [s]
      else throw (.missing l)
    | l => throw (.missing l)) []
  let t : TableInfo :=
    { name := name, id := id, kind := kind, source := origin, timeouts := timeouts, actions := actions }
  let t := { t with profile := ← tableProfile v t }
  put t
  for k in ← (← v.get "key").items do
    let field ← keyField source k
    modify fun c => { c with
      tables := c.tables.alter name t fun t => { t with key := t.key ++ [field] } }

def profile : Load Unit := do
  let name ← nameAt v "name"
  let id ← v.get "id"
  let _ ← declareProfile name id false
  let selects ← v.holds "selector"
  modify fun c => { c with profiles := c.profiles.modify (c.profiles.length - 1) fun p =>
    { p with selects := selects } }

def pipeline (source v : Json) : Load Unit := do
  if ← v.holds "action_profiles" then
    (← (← v.get "action_profiles").items).forM profile
  (← (← v.get "tables").items).forM (table source)

def meter : Load Unit := do
  let name ← nameAt v "name"
  let m : MeterInfo := { name := name, id := ← v.get "id" }
  modify fun c => { c with meters := c.meters.insert name m }
  let direct ← if ← v.holds "is_direct" then do pure (← v.get "is_direct").truth else pure false
  let m ← if direct then pure { m with direct := true, binding := ← v.get "binding" }
    else pure { m with size := ← v.get "size" }
  let kind ← Kinds.meters.number (← v.get "type")
  let rates ← v.get "rate_count"
  modify fun c => { c with meters := c.meters.insert name { m with kind := kind, rates := rates } }

def counter : Load Unit := do
  let name ← nameAt v "name"
  let m : CounterInfo := { name := name, id := ← v.get "id" }
  modify fun c => { c with counters := c.counters.insert name m }
  let direct ← v.get "is_direct"
  let m ← if direct.truth then pure { m with direct := direct, binding := ← v.get "binding" }
    else pure { m with direct := direct, size := ← v.get "size" }
  modify fun c => { c with counters := c.counters.insert name m }

def register : Load Unit := do
  let name ← nameAt v "name"
  let r : RegisterInfo := { name := name, id := ← v.get "id" }
  modify fun c => { c with registers := c.registers.insert name r }
  let size ← v.get "size"
  let width ← v.get "bitwidth"
  modify fun c => { c with registers := c.registers.insert name { r with size := size, width := width } }

def checksum : Load Unit := do
  let name ← v.get "name"
  let put (width : Nat) : Load Unit := do
    let l ← name.key
    modify fun c => { c with checksums := c.checksums.insert l width }
  match ← v.get "algo" with
  | .str "crc16_custom" => put 16
  | .str "crc32_custom" => put 32
  | _ => pure ()

def valueSet : Load Unit := do
  let name ← nameAt v "name"
  let s : ValueSetInfo := { name := name, id := ← v.get "id" }
  modify fun c => { c with valueSets := c.valueSets.insert name s }
  let width ← v.get "compressed_bitwidth"
  modify fun c => { c with valueSets := c.valueSets.insert name { s with width := width } }

def file (source : Json) : Load Unit := do
  set ({} : Catalog)
  match source with
  | .obj _ =>
    (← list source "actions").forM action
    (← list source "pipelines").forM (pipeline source)
    (← list source "meter_arrays").forM meter
    (← list source "counter_arrays").forM counter
    (← list source "register_arrays").forM register
    (← list source "calculations").forM checksum
    (← list source "parse_vsets").forM valueSet
    if (← get).unnamed then throw .noPart
    modify fun c => { c with complete := true }
  | _ => throw .noPart

end Load

def ofJson (source : Json) : Except Fault Catalog :=
  match (ExceptT.run (Load.file source)).run {} with
  | (.ok _, c) => .ok c
  | (.error f, _) => .error f

end Catalog

end PacketSmith.Console
