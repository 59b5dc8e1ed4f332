import PacketSmith.Proofs.Results.Recorded

/-!
# The entries of the results

The key under which a path is recorded tells its parser path, and its control path regardless of hits and defaults
(`Loaded.key_eq_iff`). So there are as many entries as pairs of paths, if no two recorded paths differ only in whether
actions are taken on a hit or by default. In a table with a key the default action can be taken in both ways.
-/

namespace PacketSmith

open List PathResult Edge Finding Loaded

/-! ## Results as they are recorded -/

def PathResult.enter (r : PathResult) (results : Dict (List EdgeKey × List EdgeKey) PathResult) :
    Dict (List EdgeKey × List EdgeKey) PathResult :=
  results.alter r.key r fun old => { old with outcome := r.outcome }

def Finding.result? : Finding → Option PathResult
  | .parser _ _ => none
  | .control r => if r.outcome.isReported (Explore.isComplete r.control) then some r else none

def Progress.recorded (p : Progress) : List PathResult := p.findings.filterMap result?

variable {p : Progress}

theorem Progress.Told.results_eq (h : p.Told) : p.results = p.recorded.foldr PathResult.enter {} := by
  have henter (f : Finding) (d : Dict (List EdgeKey × List EdgeKey) PathResult) :
      f.enter d = f.result?.elim d fun r => r.enter d := by
    cases f with
    | parser path possible => rfl
    | control r =>
      unfold Finding.enter Finding.result?
      dsimp only
      split <;> rfl
  rw [h, recorded]
  induction p.findings with
  | nil => rfl
  | cons f found ih =>
    rw [foldr_cons, henter, ih]
    cases hf : f.result? with
    | none => rw [filterMap_cons_none hf]; rfl
    | some r => rw [filterMap_cons_some hf]; rfl

theorem Progress.control_of_recorded {r : PathResult} (h : r ∈ p.recorded) : .control r ∈ p.findings := by
  obtain ⟨f, hf, hr⟩ := mem_filterMap.mp h
  cases f with
  | parser path possible => cases hr
  | control r' =>
    unfold result? at hr
    dsimp only at hr
    split at hr
    · obtain rfl := Option.some.inj hr
      exact hf
    · cases hr

section Entered

variable (rs : List PathResult)

theorem nodup_keys_enter : (rs.foldr PathResult.enter {}).keys.Nodup := by
  induction rs with
  | nil => exact nodup_nil
  | cons r rs ih => exact Dict.nodup_keys_insert ih _ _

theorem mem_keys_enter (k : List EdgeKey × List EdgeKey) :
    k ∈ (rs.foldr PathResult.enter {}).keys ↔ k ∈ rs.map PathResult.key := by
  induction rs with
  | nil => exact Iff.rfl
  | cons r rs ih =>
    rw [foldr_cons, PathResult.enter, Dict.alter, Dict.mem_keys_insert, ih, map_cons, mem_cons, or_comm]

theorem size_enter : (rs.foldr PathResult.enter {}).size = (rs.map PathResult.key).toFinset.card := by
  have hsize : (rs.foldr PathResult.enter {}).size = (rs.foldr PathResult.enter {}).keys.length :=
    (length_map _).symm
  rw [hsize, ← toFinset_card_of_nodup (nodup_keys_enter rs)]
  congr 1
  ext k
  rw [mem_toFinset, mem_toFinset, mem_keys_enter]

variable {rs}

theorem get?_enter (hapart : ∀ r ∈ rs, ∀ r' ∈ rs, r.key = r'.key → (r.parser, r.control) = (r'.parser, r'.control))
    (k : List EdgeKey × List EdgeKey) : (rs.foldr PathResult.enter {}).get? k = rs.find? fun r => r.key = k := by
  induction rs with
  | nil => rfl
  | cons r rs ih =>
    have ih := ih fun r hr r' hr' => hapart r (mem_cons_of_mem _ hr) r' (mem_cons_of_mem _ hr')
    rw [foldr_cons, PathResult.enter, Dict.alter, Dict.get?_insert, List.find?_cons]
    by_cases hk : r.key = k
    · rw [if_pos hk, decide_eq_true hk, Dict.getD, hk, ih]
      refine congrArg some ?_
      cases hfind : rs.find? fun r' => r'.key = k with
      | none => rfl
      | some old =>
        have hkey : old.key = k := by simpa using List.find?_some hfind
        have hold := hapart r mem_cons_self old (mem_cons_of_mem _ (mem_of_find?_eq_some hfind))
          (hk.trans hkey.symm)
        obtain ⟨hparser, hcontrol⟩ := Prod.mk.inj hold
        rw [Option.getD_some, ← hparser, ← hcontrol]
    · rw [if_neg hk, decide_eq_false hk, ih]

end Entered

/-- Lists whose elements agree in the one way when they agree in the other take as many values in both. -/
theorem card_toFinset_map {α β γ : Type} [DecidableEq β] [DecidableEq γ] {f : α → β} {g : α → γ} {l : List α}
    (h : ∀ a ∈ l, ∀ b ∈ l, f a = f b ↔ g a = g b) : (l.map f).toFinset.card = (l.map g).toFinset.card := by
  induction l with
  | nil => rfl
  | cons a l ih =>
    have ih := ih fun a ha b hb => h a (mem_cons_of_mem _ ha) b (mem_cons_of_mem _ hb)
    have hmem : f a ∈ (l.map f).toFinset ↔ g a ∈ (l.map g).toFinset := by
      rw [mem_toFinset, mem_toFinset, mem_map, mem_map]
      exact exists_congr fun b => and_congr_right fun hb => h b (mem_cons_of_mem _ hb) a mem_cons_self
    rw [map_cons, map_cons, toFinset_cons, toFinset_cons]
    by_cases ha : f a ∈ (l.map f).toFinset
    · rw [Finset.insert_eq_of_mem ha, Finset.insert_eq_of_mem (hmem.mp ha), ih]
    · rw [Finset.card_insert_of_notMem ha, Finset.card_insert_of_notMem (mt hmem.mpr ha), ih]

/-! ## Whole runs -/

namespace Loaded

variable {o : Options} {files : ExternFiles} {source : Json} {l : Loaded} {parser : Parser} {paths : List ParserPath}
  {solver : Solver} {draw : Nat → Nat} {switchLog : Nat → List String} {p : Progress}

theorem key_eq_iff (hload : ofJson o files source = .ok l)
    (hparser : l.setting.program.parser = .ok parser) (hpaths : ∀ path ∈ paths,
      l.setting.program.Walkable l.parserGraph parser.initState l.setting.options.collapseParserPaths path)
    (hp : p.Traced (l.engine solver draw switchLog) paths)
    {r r' : PathResult} (hr : .control r ∈ p.findings) (hr' : .control r' ∈ p.findings) :
    r.key = r'.key ↔ (r.parser, r.control.map regardless) = (r'.parser, r'.control.map regardless) := by
  obtain ⟨hmem, hfollows⟩ := hp.found r hr
  obtain ⟨hmem', hfollows'⟩ := hp.found r' hr'
  obtain ⟨-, hg, -⟩ := program_of_ofJson hload
  rw [key, key, Prod.mk.injEq, Prod.mk.injEq,
    hfollows.keys_eq_iff (engine_keyed hload solver draw switchLog) hfollows']
  refine and_congr_left' ⟨fun hkeys => ?_, fun h => by rw [h]⟩
  exact (hpaths _ hmem).parserKeys_inj hparser hg (hpaths _ hmem') hkeys

theorem walkable_of_parserPaths (h : l.parserPaths = .ok paths) : ∃ parser, l.setting.program.parser = .ok parser ∧
    ∀ path ∈ paths,
      l.setting.program.Walkable l.parserGraph parser.initState l.setting.options.collapseParserPaths path := by
  obtain ⟨parser, left, hparser, hfinds, -⟩ := Program.parserPaths_ok (program_parserPaths h)
  have hsound := (hfinds.sound (by simpa using Program.Walkable.start)).1
  exact ⟨parser, hparser, fun path hpath => (hsound path hpath).1⟩

/-- For every list of parser paths the results of a run have an entry for each pair of a parser path and a control path,
regardless of hits and defaults. If no two recorded paths of a parser path differ in these alone, they have an entry for
each pair, which is what was recorded last about this pair. -/
theorem results_entry_per_path (hload : Loaded.ofJson o files source = .ok l)
    (hparser : l.setting.program.parser = .ok parser)
    (hpaths : ∀ path ∈ paths,
      l.setting.program.Walkable l.parserGraph parser.initState l.setting.options.collapseParserPaths path)
    {batch : Option Batch} {g : Generation} {u : Unit}
    (hrun : (Produce.all (l.engine solver draw switchLog) paths).exec { batch := batch } {} = .ok ((u, g), p)) :
    (∀ r r', .control r ∈ p.findings → .control r' ∈ p.findings → (r.key = r'.key ↔
      (r.parser, r.control.map Edge.regardless) = (r'.parser, r'.control.map Edge.regardless))) ∧
    p.results.size = (p.recorded.map fun r => (r.parser, r.control.map Edge.regardless)).toFinset.card ∧
    ((∀ r ∈ p.recorded, ∀ r' ∈ p.recorded, r.parser = r'.parser →
        r.control.map Edge.regardless = r'.control.map Edge.regardless → r.control = r'.control) →
      p.results.size = (p.recorded.map fun r => (r.parser, r.control)).toFinset.card ∧
      ∀ r ∈ p.recorded, p.results.get? r.key =
        p.recorded.find? fun r' => (r'.parser, r'.control) = (r.parser, r.control)) := by
  have htraced := Produce.all_traced hrun
  have hkey {r r' : PathResult} (hr : .control r ∈ p.findings) (hr' : .control r' ∈ p.findings) :=
    key_eq_iff hload hparser hpaths htraced hr hr'
  have hrecorded {r r' : PathResult} (hr : r ∈ p.recorded) (hr' : r' ∈ p.recorded) :=
    hkey (Progress.control_of_recorded hr) (Progress.control_of_recorded hr')
  rw [htraced.told.results_eq, size_enter]
  refine ⟨fun r r' => hkey, card_toFinset_map fun r hr r' hr' => hrecorded hr hr', fun hapart => ?_⟩
  have hpair (r : PathResult) (hr : r ∈ p.recorded) (r' : PathResult) (hr' : r' ∈ p.recorded) :
      r.key = r'.key ↔ (r.parser, r.control) = (r'.parser, r'.control) := by
    rw [hrecorded hr hr', Prod.mk.injEq, Prod.mk.injEq]
    exact ⟨fun h => ⟨h.1, hapart r hr r' hr' h.1 h.2⟩, fun h => ⟨h.1, by rw [h.2]⟩⟩
  refine ⟨card_toFinset_map hpair, fun r hr => ?_⟩
  rw [get?_enter fun a ha b hb => (hpair a ha b hb).mp]
  rw [← List.head?_filter, ← List.head?_filter]
  refine congrArg List.head? (filter_congr fun r' hr' => ?_)
  exact decide_eq_decide.mpr (hpair r' hr' r hr)

end Loaded

/-! ## A table with two actions -/

namespace Small

def actionSource (name : String) (id : Int) : Json :=
  .obj [("name", .str name), ("id", .int id), ("runtime_data", .arr []), ("primitives", .arr [])]

def withActions (actions : List Json) : Json → Json
  | .obj members => .obj (members.map fun m => if m.1 = "actions" then ("actions", .arr actions) else m)
  | source => source

def tabled (keyed : Bool) : Json :=
  withActions [actionSource "a" 0, actionSource "b" 1] (source [] [] [] "start" [state "start" [] [] [transition none none]]
    [("init_table", .str "t"), ("tables", .arr [.obj [("name", .str "t"), ("id", .int 0), ("match_type", .str "exact"),
      ("type", .str "simple"), ("max_size", .int 16), ("with_counters", .bool false), ("support_timeout", .bool false),
      ("direct_meters", .null), ("action_ids", .arr [.int 0, .int 1]), ("actions", .arr [.str "a", .str "b"]),
      ("base_default_next", .null), ("next_tables", .obj [("a", .null), ("b", .null)]),
      ("key", .arr (if keyed then [.obj [("match_type", .str "exact"), ("mask", .null),
        ("target", .arr [.str "standard_metadata", .str "ingress_port"])]] else [])),
      ("default_entry", .obj [("action_id", .int 0), ("action_const", .bool false), ("action_data", .arr []),
        ("action_entry_const", .bool false)])]]), ("conditionals", .arr [])])

/-- A run of this program: without a key there is an entry for each path, and with a key the hit and the default of each
action share one. -/
theorem tabled_run (keyed : Bool) : ∃ l parser paths g p, ofJson {} (fun _ => none) (tabled keyed) = .ok l ∧
      l.setting.program.parser = .ok parser ∧ (∀ path ∈ paths,
        l.setting.program.Walkable l.parserGraph parser.initState l.setting.options.collapseParserPaths path) ∧
      (Produce.all (l.engine (.ideal [ones]) (fun _ => 0) fun _ => []) paths).exec { batch := none } {} =
        .ok (((), g), p) ∧
      p.results.size = 2 ∧ (p.recorded.map fun r => (r.parser, r.control)).toFinset.card = (if keyed then 4 else 2) ∧
      ((∀ r ∈ p.recorded, ∀ r' ∈ p.recorded, r.parser = r'.parser →
        r.control.map regardless = r'.control.map regardless → r.control = r'.control) ↔ keyed = false) := by
  have hcomputed : ((ofJson {} (fun _ => none) (tabled keyed)).toOption.any fun l =>
      l.parserPaths.toOption.any fun paths =>
        ((Produce.all (l.engine (.ideal [ones]) (fun _ => 0) fun _ => []) paths).exec
          { batch := none } {}).toOption.any fun run =>
            decide (run.2.results.size = 2 ∧
              (run.2.recorded.map fun r => (r.parser, r.control)).toFinset.card = (if keyed then 4 else 2) ∧
              ((∀ r ∈ run.2.recorded, ∀ r' ∈ run.2.recorded, r.parser = r'.parser →
                r.control.map regardless = r'.control.map regardless → r.control = r'.control) ↔
                  keyed = false))) = true := by
    cases keyed <;> decide +kernel
  obtain ⟨l, hload, hl⟩ := ok_of_any hcomputed
  obtain ⟨paths, hpaths, hrun⟩ := ok_of_any hl
  obtain ⟨⟨⟨u, g⟩, p⟩, hall, hcounts⟩ := ok_of_any hrun
  obtain ⟨parser, hparser, hwalkable⟩ := walkable_of_parserPaths hpaths
  exact ⟨l, parser, paths, g, p, hload, hparser, hwalkable, hall, of_decide_eq_true hcounts⟩

end Small

/-- In a run over a table without a key each of the two paths has an entry of its own. -/
theorem Loaded.results_entry_per_path_keyless :
    ∃ l parser paths g p, Loaded.ofJson {} (fun _ => none) (Small.tabled false) = .ok l ∧
      l.setting.program.parser = .ok parser ∧ (∀ path ∈ paths,
        l.setting.program.Walkable l.parserGraph parser.initState l.setting.options.collapseParserPaths path) ∧
      (Produce.all (l.engine (.ideal [Small.ones]) (fun _ => 0) fun _ => []) paths).exec { batch := none } {} =
        .ok (((), g), p) ∧
      (p.recorded.map fun r => (r.parser, r.control)).toFinset.card = 2 ∧
      p.results.size = (p.recorded.map fun r => (r.parser, r.control)).toFinset.card ∧
      ∀ r ∈ p.recorded, p.results.get? r.key =
        p.recorded.find? fun r' => (r'.parser, r'.control) = (r.parser, r.control) := by
  obtain ⟨l, parser, paths, g, p, hload, hparser, hwalkable, hrun, -, hcard, hapart⟩ := Small.tabled_run false
  exact ⟨l, parser, paths, g, p, hload, hparser, hwalkable, hrun, hcard,
    (Loaded.results_entry_per_path hload hparser hwalkable hrun).2.2 (hapart.mpr rfl)⟩

/-- In a run over a table with a key the four paths share two entries. -/
theorem Loaded.results_shared_by_hit_and_default :
    ∃ l parser paths g p, Loaded.ofJson {} (fun _ => none) (Small.tabled true) = .ok l ∧
      l.setting.program.parser = .ok parser ∧ (∀ path ∈ paths,
        l.setting.program.Walkable l.parserGraph parser.initState l.setting.options.collapseParserPaths path) ∧
      (Produce.all (l.engine (.ideal [Small.ones]) (fun _ => 0) fun _ => []) paths).exec { batch := none } {} =
        .ok (((), g), p) ∧
      (p.recorded.map fun r => (r.parser, r.control)).toFinset.card = 4 ∧ p.results.size = 2 := by
  obtain ⟨l, parser, paths, g, p, hload, hparser, hwalkable, hrun, hsize, hcard, -⟩ := Small.tabled_run true
  exact ⟨l, parser, paths, g, p, hload, hparser, hwalkable, hrun, hcard, hsize⟩

end PacketSmith
