import PacketSmith.Proofs.Consolidate.Batches
import PacketSmith.Proofs.IdealSolver
import PacketSmith.Proofs.Packet.Lookaheads

/-!
# Shared entries serve every path

`TableCommand.lookup` says what a switch does at a table after the commands of a batch. Each path of the batch finds
its own action there (`shared_entries_serve`). The parameters of an entry are those that the path was solved with.
The default action of a table is const, so it has the parameters of the program and not those of the path
(`default_parameter_not_set`).
-/

namespace PacketSmith

open Bits EntryKey

/-! ## Lookup -/

namespace TableCommand

/-- The action and the parameters of an entry that is added for a table and a key. -/
def hit? (table : Label) (key : List EntryValue) : TableCommand → Option (Label × List EntryValue)
  | .add t a keys params _ => if t = table ∧ keys.map (·.value) = key then some (a, params.map Prod.snd) else none
  | .setDefault .. => none

/-- The table that a command is for. -/
def table : TableCommand → Label
  | .add t .. => t
  | .setDefault t .. => t

theorem table_of_hit? (h : hit? t key x = some r) : x.table = t := by
  cases x with
  | setDefault => cases h
  | add =>
    rw [hit?] at h
    split at h
    · next heq => exact heq.1
    · cases h

/-- What a switch does at a table after some commands: it takes the entry that was added for the key, or
the default that is fixed in the program. A default that is const cannot be changed by a command. -/
def lookup (cs : List TableCommand) (table : Label) (key : List EntryValue)
    (fixed : Label × List EntryValue) : Label × List EntryValue :=
  (cs.findSome? (hit? table key)).getD fixed

end TableCommand

theorem findSome?_eq_some_of_unique {as : List α} (hmem : ∃ a ∈ as, f a = some b)
    (hunique : ∀ a ∈ as, ∀ b', f a = some b' → b' = b) : as.findSome? f = some b := by
  cases h : as.findSome? f with
  | none =>
    obtain ⟨a, ha, hb⟩ := hmem
    rw [List.findSome?_eq_none_iff.mp h a ha] at hb
    cases hb
  | some b' =>
    obtain ⟨a, ha, hb'⟩ := List.exists_of_findSome?_eq_some h
    rw [hunique a ha b' hb']

/-! ## Commands -/

theorem entryConfig_ok {t : Table} {action : Label} {byDefault : Bool} {values : List EntryValue}
    {params : List (Json × EntryValue)} (hlength : values.length = t.key.length)
    (h : t.entryConfig action byDefault values params = .ok r) :
    ∃ keys entry, t.defaultEntry = some entry ∧ keys.map value = values ∧ r = if keys.isEmpty
      && entry.actionConst.truth then none else some ⟨t.name, action, byDefault, keys, params⟩ := by
  have hvalue (x : TableKey × EntryValue) (k : EntryKey) (hk : Table.entryKey x.1 x.2 = .ok k) : k.value = x.2 := by
    obtain ⟨field, -, hk⟩ := bind_eq_ok.mp hk
    split at hk
    · cases hk
      rfl
    · cases hk
  obtain ⟨keys, hkeys, h⟩ := bind_eq_ok.mp h
  have hvalues : keys.map value = values := by
    rw [map_of_mapM hvalue hkeys]
    exact List.map_snd_zip (Nat.le_of_eq hlength)
  cases hentry : t.defaultEntry with
  | none =>
    rw [hentry] at h
    cases h
  | some entry =>
    rw [hentry] at h
    refine ⟨keys, entry, rfl, hvalues, ?_⟩
    dsimp only at h
    split at h
    · next hempty =>
      cases h
      rw [if_pos hempty]
    · next hempty =>
      cases h
      rw [if_neg hempty]

namespace Batch

variable {engine : Engine} {b : Batch} {ρ : Assignment}

def Issues (engine : Engine) (ρ : Assignment) (t a : Label) (e : SharedEntry) (c : Option TableCommand) : Prop :=
  ∃ table default id config, engine.setting.pipeline.tables.get? t = some table ∧
    table.defaultAction = .ok (default, id) ∧
    table.entryConfig a (a == default) (values ρ e.key)
      (e.params.map fun p => (Json.str p.display, TestCase.entryValue ρ p)) = .ok config ∧
    c = config.map (.ofConfig table)

theorem commands_of_mapM {f : Label × Dict Label SharedEntry → Except Fault (List (Option TableCommand))}
    (hwell : b.entries.WellFormed) (htable : ∀ x issued, f x = .ok issued →
      (∀ a e, (a, e) ∈ x.2.entries → ∃ c ∈ issued, Issues engine ρ x.1 a e c) ∧ ∀ c ∈ issued, ∃ a e,
      (a, e) ∈ x.2.entries ∧ Issues engine ρ x.1 a e c) (hall : b.entries.entries.mapM f = .ok all) :
    (∀ t a e, b.entries.find? t a = some e → ∃ c, Issues engine ρ t a e c ∧
      ∀ x, c = some x → x ∈ all.flatten.filterMap id) ∧ ∀ x ∈ all.flatten.filterMap id,
      ∃ t a e, b.entries.find? t a = some e ∧ Issues engine ρ t a e (some x) := by
  constructor
  · intro t a e he
    obtain ⟨d, hd, he⟩ := SharedEntries.mem_of_find? he
    obtain ⟨issued, hissued, hx⟩ := mem_mapM hall hd
    obtain ⟨c, hc, hissues⟩ := (htable (t, d) issued hx).1 a e he
    refine ⟨c, hissues, ?_⟩
    rintro x rfl
    exact List.mem_filterMap.mpr ⟨_, List.mem_flatten.mpr ⟨issued, hissued, hc⟩, rfl⟩
  · intro x hx
    obtain ⟨c, hc, rfl⟩ := List.mem_filterMap.mp hx
    obtain ⟨issued, hissued, hc⟩ := List.mem_flatten.mp hc
    obtain ⟨⟨t, d⟩, hd, htd⟩ := mem_of_mapM hall issued hissued
    obtain ⟨a, e, he, hissues⟩ := (htable (t, d) issued htd).2 _ hc
    exact ⟨t, a, e, hwell.find?_of_mem hd he, hissues⟩

theorem commands_ok (hwell : b.entries.WellFormed) (h : b.commands engine ρ = .ok cs) :
    (∀ t a e, b.entries.find? t a = some e → ∃ c, Issues engine ρ t a e c ∧ ∀ x, c = some x → x ∈ cs) ∧
      ∀ x ∈ cs, ∃ t a e, b.entries.find? t a = some e ∧ Issues engine ρ t a e (some x) := by
  obtain ⟨all, hall, h⟩ := bind_eq_ok.mp h
  cases h
  refine commands_of_mapM hwell (fun x issued hx => ?_) hall
  dsimp only at hx
  cases hget : engine.setting.pipeline.tables.get? x.1 with
  | none =>
    rw [hget] at hx
    cases hx
  | some t =>
    rw [hget] at hx
    obtain ⟨⟨default, id⟩, hdefault, hx⟩ := bind_eq_ok.mp hx
    constructor
    · intro a e he
      obtain ⟨c, hc, hissue⟩ := mem_mapM hx he
      obtain ⟨config, hconfig, hissue⟩ := bind_eq_ok.mp hissue
      cases hissue
      exact ⟨_, hc, t, default, id, config, hget, hdefault, hconfig, rfl⟩
    · intro c hc
      obtain ⟨⟨a, e⟩, he, hissue⟩ := mem_of_mapM hx c hc
      obtain ⟨config, hconfig, hissue⟩ := bind_eq_ok.mp hissue
      cases hissue
      exact ⟨a, e, he, t, default, id, config, hget, hdefault, hconfig, rfl⟩

end Batch

/-! ## Tables on a path -/

/-- A table that a path takes an action of, with a key of some length. An action that is not the
default needs an entry, which only a table with a key and without fixed entries can have. -/
structure Table.Admits (table : Table) (name : Label) (length : Nat) (action : Label) : Prop where
  name : table.name = name
  length : length = table.key.length
  taken : ∀ default id, table.defaultAction = .ok (default, id) →
    action = default ∨ table.key ≠ [] ∧ table.hasConstEntries = false

/-- A solution for a path through a pipeline. -/
structure Solution.Fits (s : Solution) (pipeline : Pipeline) : Prop where
  nodup : s.context.tableKeys.keys.Nodup
  admits : ∀ t keys a table, s.context.tableKeys.get? t = some keys → s.context.tableActions.get? t = some a →
    pipeline.tables.get? t = some table → table.Admits t keys.length a

namespace Batch

variable {engine : Engine}

theorem Sound.admits {pipeline : Pipeline} (h : Sound o b)
    (hfits : ∀ p ∈ b.paths, p.solution.Fits pipeline) (he : b.entries.find? t a = some e)
    (htable : pipeline.tables.get? t = some table) : table.Admits t e.key.length a := by
  obtain ⟨p, hp, ts, like, hts, hmem, rfl⟩ := h.made t a e he
  obtain ⟨keys, bs, hkeys, hat⟩ := (tables_ok hts).taken t a like hmem
  have hadmits := (hfits p hp).admits t keys a table (Dict.get?_of_mem (hfits p hp).nodup hkeys) hat.action htable
  have hlength : (newEntry o t a like).key.length = keys.length := by
    have hwidths := congrArg List.length (map_width_newEntry o t a like).1
    simpa [hat.entry, hat.keys] using hwidths
  rw [hlength]
  exact hadmits

theorem Issues.table {table : Table} (h : Issues engine ρ t a e (some x))
    (htable : engine.setting.pipeline.tables.get? t = some table) (hadmits : table.Admits t e.key.length a) :
    x.table = t := by
  obtain ⟨table', default, id, config, htable', -, hconfig, hx⟩ := h
  obtain rfl := Option.some.inj (htable.symm.trans htable')
  obtain ⟨keys, entry, -, -, rfl⟩ := entryConfig_ok (by simpa using hadmits.length) hconfig
  split at hx
  · cases hx
  · cases hx
    rw [← hadmits.name, TableCommand.ofConfig]
    split <;> rfl

theorem Issues.cases {table : Table} {default : Label} {id : Int} (h : Issues engine ρ t a e c)
    (htable : engine.setting.pipeline.tables.get? t = some table)
    (hdefault : table.defaultAction = .ok (default, id)) (hadmits : table.Admits t e.key.length a) :
    (a = default ∧ ∀ x, c = some x → x.isDefault = true) ∨
    a ≠ default ∧ ∃ keys params priority, keys.map value = values ρ e.key ∧
      params.map Prod.snd = values ρ e.params ∧ c = some (.add t a keys params priority) := by
  obtain ⟨table', default', id', config, htable', hdefault', hconfig, rfl⟩ := h
  obtain rfl := Option.some.inj (htable.symm.trans htable')
  obtain ⟨rfl, rfl⟩ := Prod.mk.inj (Except.ok.inj (hdefault.symm.trans hdefault'))
  obtain ⟨keys, entry, -, hvalues, rfl⟩ := entryConfig_ok (by simpa using hadmits.length) hconfig
  by_cases ha : a = default
  · refine .inl ⟨ha, fun x hx => ?_⟩
    split at hx
    · cases hx
    · cases hx
      simp [TableCommand.ofConfig, TableCommand.isDefault, ha]
  · obtain ⟨hkey, hentries⟩ := (hadmits.taken default id hdefault).resolve_left ha
    have hlength : keys.length = table.key.length := by
      rw [← hadmits.length]
      simpa using congrArg List.length hvalues
    have hempty : keys.isEmpty = false := by
      rw [List.isEmpty_eq_false_iff]
      rintro rfl
      exact hkey (List.eq_nil_of_length_eq_zero hlength.symm)
    refine .inr ⟨ha, keys, e.params.map fun p => (Json.str p.display, TestCase.entryValue ρ p),
      EntryConfig.priority ⟨table.name, a, false, keys, []⟩, hvalues, by simp, ?_⟩
    simp [hempty, TableCommand.ofConfig, EntryConfig.priority, ha, hadmits.name, hentries]

theorem Shared.lookup_commands (hsound : Sound engine.options b) (hshared : b.Shared ρ)
    (hfits : ∀ p ∈ b.paths, p.solution.Fits engine.setting.pipeline)
    (hcs : b.commands engine ρ = .ok cs) (he : b.entries.find? t a = some e) :
    ∃ table default id, engine.setting.pipeline.tables.get? t = some table ∧
      table.defaultAction = .ok (default, id) ∧
      ∀ constant, TableCommand.lookup cs t (values ρ e.key) (default, constant) =
        (a, if a = default then constant else values ρ e.params) := by
  obtain ⟨hissued, horigin⟩ := commands_ok hsound.wellFormed hcs
  obtain ⟨c, hissues, hmem⟩ := hissued t a e he
  obtain ⟨table, default, n, -, htable, hdefault, -, -⟩ := id hissues
  refine ⟨table, default, n, htable, hdefault, fun constant => ?_⟩
  have hcases (a' : Label) (e' : SharedEntry) (c' : Option TableCommand)
      (he' : b.entries.find? t a' = some e') (hissues' : Issues engine ρ t a' e' c') :=
    hissues'.cases htable hdefault (hsound.admits hfits he' htable)
  -- a command that is hit comes from the entry of the table for the key
  have hhit (x : TableCommand) (hx : x ∈ cs) (r : Label × List EntryValue)
      (hr : TableCommand.hit? t (values ρ e.key) x = some r) :
      a ≠ default ∧ r = (a, values ρ e.params) := by
    obtain ⟨t', a', e', he', hissues'⟩ := horigin x hx
    obtain ⟨table', -, -, -, htable', -⟩ := id hissues'
    obtain rfl := (hissues'.table htable' (hsound.admits hfits he' htable')).symm.trans
      (TableCommand.table_of_hit? hr)
    obtain ⟨-, hset⟩ | ⟨ha', keys, params, priority, hkeys, hparams, hx⟩ := hcases a' e' _ he' hissues'
    · specialize hset x rfl
      cases x with
      | setDefault => cases hr
      | add => cases hset
    · cases hx
      rw [TableCommand.hit?] at hr
      split at hr
      · next hkey =>
        cases hr
        have hsame : a' = a := Classical.byContradiction fun hne =>
          hshared.apart _ a' a e' e he' he hne (hkeys.symm.trans hkey.2)
        subst hsame
        obtain rfl := Option.some.inj (he.symm.trans he')
        exact ⟨ha', by rw [hparams]⟩
      · cases hr
  rw [TableCommand.lookup]
  obtain ⟨rfl, -⟩ | ⟨ha, keys, params, priority, hkeys, hparams, rfl⟩ := hcases a e c he hissues
  · have hnone : cs.findSome? (TableCommand.hit? t (values ρ e.key)) = none := by
      rw [List.findSome?_eq_none_iff]
      intro x hx
      cases hr : TableCommand.hit? t (values ρ e.key) x with
      | none => rfl
      | some r => exact absurd rfl (hhit x hx r hr).1
    rw [hnone, if_pos rfl]
    rfl
  · have hfound : cs.findSome? (TableCommand.hit? t (values ρ e.key)) =
        some (a, values ρ e.params) :=
      findSome?_eq_some_of_unique ⟨_, hmem _ rfl, by simp [TableCommand.hit?, hparams, hkeys]⟩
        fun x hx r hr => (hhit x hx r hr).2
    rw [hfound, if_neg ha]
    rfl

theorem start_ok (h : start engine = .ok b)
    (htable : engine.setting.pipeline.tables.get? t = some table) : table.hasConstDefault = .ok true := by
  have hall (tables : List Table) (hok : (tables.forM fun t => do
      require (← t.hasConstDefault) (.refuted "Tables with non-const defaults are not currently supported") :
        Except Fault Unit) = .ok ()) : ∀ t ∈ tables, t.hasConstDefault = .ok true := by
    induction tables with
    | nil => simp
    | cons t tables ih =>
      obtain ⟨_, hfirst, hrest⟩ := bind_eq_ok.mp hok
      obtain ⟨const, hconst, hfirst⟩ := bind_eq_ok.mp hfirst
      refine List.forall_mem_cons.mpr ⟨?_, ih hrest⟩
      cases const with
      | false => cases hfirst
      | true => exact hconst
  obtain ⟨-, h⟩ := require_bind_eq_ok.mp h
  obtain ⟨_, hforM, -⟩ := bind_eq_ok.mp h
  exact hall _ hforM table (List.mem_map.mpr ⟨_, Dict.mem_entries_of_get? htable, rfl⟩)

end Batch

/-- However solutions are added to batches, an assignment that satisfies a batch when it is written,
read through the names of one of its paths, satisfies the constraints of the path. At each table of
the path, the commands for the batch make a switch take the action of the path. An action other than
the default has the parameters that the path was solved with. The default is const, and has the
parameters that are fixed in the program. -/
theorem shared_entries_serve {engine : Engine} {ss : List Solution} {b b' : Batch} {st st' : Progress}
    {ρ : Assignment} {cs : List TableCommand} {p : BatchPath} (hstart : Batch.start engine = .ok {})
    (hfits : ∀ s ∈ ss, s.Fits engine.setting.pipeline) (hwritten : Batch.Written engine ss b)
    (hdraws : (b.fixDraws engine).run st = .ok (b', st')) (hρ : ρ.Satisfies b'.asserted)
    (hcs : b'.commands engine ρ = .ok cs) (hp : p ∈ b.paths) :
    (∃ s ∈ ss, p = .ofSolution s) ∧ (p.view ρ).Satisfies p.solution.constraints.flatten ∧
      ∀ t keys, p.solution.context.tableKeys.get? t = some keys →
        ∃ bs action table default id, keys = bs.map some ∧
          p.solution.context.tableActions.get? t = some action ∧
          engine.setting.pipeline.tables.get? t = some table ∧
          table.defaultAction = .ok (default, id) ∧ table.hasConstDefault = .ok true ∧
          ∀ constant, TableCommand.lookup cs t (Bits.values (p.view ρ) bs) (default, constant) =
            (action, if action = default then constant
              else Bits.values (p.view ρ) (p.solution.context.tableData.getD t [])) := by
  obtain ⟨hsound, hfrom⟩ := hwritten.sound fun s hs => (hfits s hs).nodup
  obtain ⟨hpaths, hentries, hasserted⟩ := Batch.fixDraws_ok hsound hdraws
  have hformulas : ρ.Satisfies b.formulas.flatten := by
    rw [hasserted] at hρ
    exact (Assignment.satisfies_append.mp hρ).1
  have hshared := hsound.shared ρ hformulas
  have hcommands : b.commands engine ρ = .ok cs := by
    rw [← hcs, Batch.commands, Batch.commands, hentries]
  refine ⟨hfrom p hp, hshared.constraints p hp, fun t keys hkeys => ?_⟩
  obtain ⟨ts, hts, htied⟩ := hshared.tied p hp
  obtain ⟨bs, a, like, hat, hmem⟩ :=
    (Batch.tables_ok hts).listed t keys (Dict.mem_entries_of_get? hkeys)
  obtain ⟨e, he, hagrees⟩ := htied t a like hmem
  have hall (q : BatchPath) (hq : q ∈ b.paths) : q.solution.Fits engine.setting.pipeline := by
    obtain ⟨s, hs, rfl⟩ := hfrom q hq
    exact hfits s hs
  obtain ⟨table, default, id, htable, hdefault, hlookup⟩ :=
    hshared.lookup_commands hsound hall hcommands he
  refine ⟨bs, a, table, default, id, hat.keys, hat.action, htable, hdefault,
    Batch.start_ok hstart htable, fun constant => ?_⟩
  have hkey := hagrees.key
  have hparams := hagrees.params
  rw [hat.entry] at hkey hparams
  rw [← Batch.values_bits, ← Batch.values_bits, ← hkey, ← hparams]
  exact hlookup constant

namespace Routing

/-- A table that forwards packets to some destinations, and drops all others. -/
def routes : Table :=
  { (default : Table) with
    name := .text "routes"
    key := [⟨.str "exact", .arr [.str "ip", .str "dst"], .null⟩]
    actions := [(.text "drop", 0), (.text "forward", 1)]
    defaultEntry := some ⟨.int 0, .bool true, .bool true⟩ }

def classes : Table :=
  { (default : Table) with
    name := .text "classes"
    actions := [(.text "mark", 2)]
    defaultEntry := some ⟨.int 2, .bool true, .bool true⟩ }

def engine (solver : Solver) (randomize : Bool) (limit : Int) : Engine where
  setting :=
    { options := { randomize := randomize, consolidateTables := some limit, minPacketLength := 0 }
      program := Small.program [] []
      pipeline := { (default : Pipeline) with
        tables := ⟨[(.text "routes", routes), (.text "classes", classes)]⟩ } }
  solver := solver
  draw i := i + 3
  graph := default
  start := .null
  places := {}
  switchLog _ := []

def byte (name : String) : Bits := ⟨8, .var name 8⟩

def solution (id : Int) (table action : String) (key params : List Bits) (constraints : List Formula) : Solution where
  path := ⟨id, [], [], true⟩
  outcome := .success
  constraints := [constraints]
  context :=
    { tableKeys := ⟨[(.text table, key.map some)]⟩
      tableData := ⟨[(.text table, params)]⟩
      tableActions := ⟨[(.text table, .text action)]⟩ }
  packet := {}
  model := fun _ _ => 0

/-- A path whose packet goes to the fifth destination, and is forwarded to the ninth port. -/
def forwarded : Solution :=
  solution 1 "routes" "forward" [byte "dst"] [byte "port"] [(byte "dst").relInt .eq 5, (byte "port").relInt .eq 9]

def dropped : Solution := solution 2 "routes" "drop" [byte "dst"] [] [(byte "dst").relInt .eq 6]

theorem fits_solution {solver : Solver} {randomize : Bool} {limit id : Int} {name action : String} {key params : List Bits}
    {constraints : List Formula}
    (htable : (engine solver randomize limit).setting.pipeline.tables.get? (.text name) = some table)
    (hadmits : table.Admits (.text name) key.length (.text action)) :
    (solution id name action key params constraints).Fits (engine solver randomize limit).setting.pipeline := by
  refine ⟨by simp [solution, Dict.keys], fun t keys a table' hkeys haction htable' => ?_⟩
  simp only [solution, Dict.get?, Dict.lookup] at hkeys haction
  split at hkeys
  · next ht =>
    subst ht
    obtain rfl := Option.some.inj hkeys
    obtain rfl := Option.some.inj ((if_pos rfl).symm.trans haction)
    obtain rfl := Option.some.inj (htable.symm.trans htable')
    simpa using hadmits
  · cases hkeys

/-- A solver that always gives the same answer. -/
def heedless : Solver := fun _ => .sat fun _ _ => 0

def added (engine : Engine) (ss : List Solution) : Batch :=
  (((Batch.addAll engine ss {}).run {}).toOption.map Prod.fst).getD {}

def drawn (engine : Engine) (b : Batch) : Batch :=
  (((b.fixDraws engine).run {}).toOption.map Prod.fst).getD {}

/-- Values for both paths, and for the variables of the two entries with their displacements. -/
def values : Assignment :=
  Packet.valued [("path1/dst", 5), ("path1/port", 9), ("path2/dst", 6),
    ("consolidated_$routes$.$forward$.key_0", 5 ^^^ 3), ("$rand_disp$.consolidated_$routes$.$forward$.key_0", 3),
    ("consolidated_$routes$.$forward$.param_0", 9 ^^^ 4), ("$rand_disp$.consolidated_$routes$.$forward$.param_0", 4),
    ("consolidated_$routes$.$drop$.key_0", 6 ^^^ 5), ("$rand_disp$.consolidated_$routes$.$drop$.key_0", 5)]

def random : Engine := engine heedless true (-1)

def both : Batch := added random [forwarded, dropped]

def commands : List TableCommand := ((drawn random both).commands random values).toOption.getD []

end Routing

open Routing in
/-- One entry and the default serve both paths, with random draws. -/
theorem shared_entries_serve_routes :
    Batch.start random = .ok {} ∧ (∀ s ∈ [forwarded, dropped], s.Fits random.setting.pipeline) ∧
    Batch.Written random [forwarded, dropped] both ∧
    (both.fixDraws random).run {} = .ok (drawn random both, { drawn := 3 }) ∧
    values.Satisfies (drawn random both).asserted ∧ (drawn random both).commands random values = .ok commands ∧
    TableCommand.lookup commands (.text "routes") [.number 8 5] (.text "drop", []) = (.text "forward", [.number 8 9]) ∧
    TableCommand.lookup commands (.text "routes") [.number 8 6] (.text "drop", []) = (.text "drop", []) := by
  have hstart : Batch.start random = .ok {} := rfl
  have hfits : ∀ s ∈ [forwarded, dropped], s.Fits random.setting.pipeline := by
    have hroutes : random.setting.pipeline.tables.get? (.text "routes") = some routes := rfl
    have hadmits (action : String) : routes.Admits (.text "routes") 1 (.text action) :=
      ⟨rfl, rfl, fun _ _ _ => .inr ⟨by simp [routes], rfl⟩⟩
    exact List.forall_mem_cons.mpr ⟨fits_solution hroutes (hadmits "forward"),
      List.forall_mem_singleton.mpr (fits_solution hroutes (hadmits "drop"))⟩
  have hrun : (Batch.addAll random [forwarded, dropped] {}).run {} =
      .ok (both, { statistics := { solverCalls := 2 } }) := rfl
  have hwritten : Batch.Written random [forwarded, dropped] both := .between hrun
  have hdraws : (both.fixDraws random).run {} = .ok (drawn random both, { drawn := 3 }) := rfl
  have hvalues : values.Satisfies (drawn random both).asserted := by decide
  have hcommands : (drawn random both).commands random values = .ok commands := rfl
  have hserves (s : Solution) (hs : .ofSolution s ∈ both.paths) := (shared_entries_serve hstart hfits hwritten hdraws hvalues
    hcommands hs).2.2 (.text "routes") ([byte "dst"].map some)
  refine ⟨hstart, hfits, hwritten, hdraws, hvalues, hcommands, ?_, ?_⟩
  · obtain ⟨bs, action, table, default, id, hkeys, ⟨⟩, ⟨⟩, ⟨⟩, -, hlookup⟩ :=
      hserves forwarded (.head _) rfl
    obtain rfl := (List.map_inj_right fun _ _ => Option.some.inj).mp hkeys
    exact hlookup []
  · obtain ⟨bs, action, table, default, id, hkeys, ⟨⟩, ⟨⟩, ⟨⟩, -, hlookup⟩ :=
      hserves dropped (.tail _ (.head _)) rfl
    obtain rfl := (List.map_inj_right fun _ _ => Option.some.inj).mp hkeys
    exact hlookup []

namespace Routing

/-- A path that takes the default of a table, with the parameter 7. -/
def marked (table action : String) (key : List Bits) : Solution :=
  solution 3 table action key [byte "class"] [(byte "class").relInt .eq 7]

def markedValues (table action : String) : Assignment :=
  Packet.valued [("path3/class", 7), ("consolidated_$" ++ table ++ "$.$" ++ action ++ "$.param_0", 7)]

/-- The path is solved with 7, but a switch on which the default has 5 takes it with 5. -/
def NotSet (table action : String) (key : List Bits) (values : List EntryValue) : Prop :=
  let engine := engine heedless false (-1)
  let s := marked table action key
  let b := added engine [s]
  let ρ := markedValues table action
  s.Fits engine.setting.pipeline ∧ Batch.Written engine [s] b ∧ (b.fixDraws engine).run {} = .ok (b, {}) ∧
    ρ.Satisfies b.asserted ∧ Bits.values ((BatchPath.ofSolution s).view ρ) key = values ∧
    Bits.values ((BatchPath.ofSolution s).view ρ) (s.context.tableData.getD (.text table) []) =
      [.number 8 7] ∧
    ∃ cs, b.commands engine ρ = .ok cs ∧
      TableCommand.lookup cs (.text table) values (.text action, [.number 8 5]) =
        (.text action, [.number 8 5])

end Routing

open Routing in
/-- A path may be solved with a parameter of a default action that no switch takes it with. Without a
key there is no command for the table, and with a key there is one that sets a const default. -/
theorem default_parameter_not_set : Batch.start (engine heedless false (-1)) = .ok {} ∧
    NotSet "classes" "mark" [] [] ∧ NotSet "routes" "drop" [byte "dst"] [.number 8 0] := by
  have hadmits : classes.Admits (.text "classes") 0 (.text "mark") := by
    refine ⟨rfl, rfl, fun default id hdefault => ?_⟩
    cases hdefault
    exact .inl rfl
  have hadmits' : routes.Admits (.text "routes") 1 (.text "drop") :=
    ⟨rfl, rfl, fun _ _ _ => .inr ⟨by simp [routes], rfl⟩⟩
  have hwritten (s : Solution) {st : Progress} (hrun : (Batch.addAll (engine heedless false (-1)) [s] {}).run {} =
      .ok (added (engine heedless false (-1)) [s], st)) :
      Batch.Written (engine heedless false (-1)) [s] (added (engine heedless false (-1)) [s]) :=
    .between hrun
  refine ⟨rfl, ?_, ?_⟩
  · exact ⟨fits_solution rfl hadmits, hwritten _ rfl, rfl, by decide, rfl, rfl, _, rfl, rfl⟩
  · exact ⟨fits_solution rfl hadmits', hwritten _ rfl, rfl, by decide, rfl, rfl, _, rfl, rfl⟩

end PacketSmith
