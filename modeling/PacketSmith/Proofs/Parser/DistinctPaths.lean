import PacketSmith.Proofs.Parser.Choices

/-!
# No path twice

The edges of a state differ, and so do those that are left when transitions are taken as one. So the
ways by which a path can go on differ, and the walk over the paths of a parser that was read finds no
path twice. The paths also differ in the keys of their edges: a transition is known by what it tests and
where it leads, if it is known where it starts.
-/

namespace PacketSmith

open List Edge Dict
open ParserEdge

theorem ParseState.WellFormed.nodup_edges {s : ParseState} (h : s.WellFormed) : s.edges.Nodup := by
  refine nodup_append.mpr ⟨h.transitions.map ?_, h.errors.map ?_, ?_⟩
  · intro a b hab
    simpa [edge] using congrArg label hab
  · intro a b hab
    simpa [errorEdge] using congrArg label hab
  · rintro e he e' he' rfl
    obtain ⟨t, -, rfl⟩ := mem_map.mp he
    obtain ⟨err, -, hlabel⟩ := mem_map.mp he'
    cases congrArg label hlabel

namespace Program

variable {p : Program} {parser : Parser} {collapsed : Bool} {next : List ParserEdge}

theorem nodup_collapse (hone : OneState edges) (h : edges.Nodup) : (collapse edges).Nodup := by
  obtain ⟨hnodup, hget⟩ := groups_spec edges
  have hgroup : ∀ x ∈ (edges.foldl addToGroup {}).entries, x.2 = group edges x.1 := by
    intro x hx
    have hfind := (get?_of_mem hnodup hx).symm.trans (hget x.1)
    split at hfind
    · cases hfind
    · exact Option.some.inj hfind
  have hcomponents {x : Label × List ParserEdge} {e : ParserEdge} (hx : x ∈ (edges.foldl addToGroup {}).entries)
      (hmerge : merge x.2 = some e) : components e = group edges x.1 ∧ components e ≠ [] := by
    rw [hgroup x hx] at hmerge
    have hparts := components_of_merge hone hmerge
    refine ⟨hparts, fun hnil => ?_⟩
    rw [← hparts, hnil] at hmerge
    cases hmerge
  rw [collapse_eq, values, filterMap_map]
  refine nodup_append.mpr ⟨h.filter _, ?_, ?_⟩
  · refine pairwise_filterMap.mpr ((pairwise_map.mp hnodup).imp_of_mem ?_)
    rintro x y hx hy hne e he _ he' rfl
    obtain ⟨hparts, hsome⟩ := hcomponents hx he
    obtain ⟨hparts', -⟩ := hcomponents hy he'
    obtain ⟨a, ha⟩ := exists_mem_of_ne_nil _ hsome
    have htarget := (mem_group.mp (hparts ▸ ha)).2
    exact hne (Option.some.inj (htarget.symm.trans (mem_group.mp (hparts' ▸ ha)).2))
  · rintro e he _ he' rfl
    obtain ⟨hmem, hlabel⟩ := mem_filter.mp he
    obtain ⟨x, hx, hmerge⟩ := mem_filterMap.mp he'
    obtain ⟨hparts, -⟩ := hcomponents hx hmerge
    have hself : e ∈ group edges x.1 := by
      rw [← hparts, hone.plain e hmem]
      exact mem_singleton_self e
    obtain ⟨t, ht, -⟩ := transition_of_target (mem_group.mp hself).2
    rw [ht] at hlabel
    cases hlabel

theorem parserKeys_concat (path : ParserPath) (e : ParserEdge) :
    parserKeys (path ++ [e]) = parserKeys path ++ [parserKey path e] := by
  unfold parserKeys
  rw [zipIdx_append, map_append]
  refine congrArg₂ (· ++ ·) (map_congr_left fun x hx => ?_) (by simp)
  have hlt : x.2 < path.length := by simpa using snd_lt_of_mem_zipIdx hx
  dsimp only
  rw [take_append_of_le_length hlt.le]

variable (hparser : p.parser = .ok parser) (hg : p.parserGraph = .ok g)

include hparser hg

theorem nodup_outEdges (hwell : parser.WellFormed) (v : String) : (g.outEdges v).Nodup := by
  cases hedges : g.outEdges v with
  | nil => exact nodup_nil
  | cons e es =>
    obtain ⟨-, -, s, hs, hname, -⟩ := mem_outEdges_parserGraph hparser hg (hedges ▸ mem_cons_self)
    obtain ⟨⟨name, s⟩, hentry, rfl⟩ := mem_map.mp hs
    have hget : parser.states.get? v = some s := by
      rw [← hname, hwell.name _ hentry]
      exact get?_of_mem hwell.nodup hentry
    rw [← hedges, outEdges_of_state hparser hwell hg hget]
    exact (hwell.states s hs).nodup_edges

theorem nodup_parserPaths (hwell : parser.WellFormed) (h : p.parserPaths g collapsed = .ok paths) : paths.Nodup := by
  obtain ⟨parser', left, hparser', hfinds, -⟩ := parserPaths_ok h
  have hnext (path : ParserPath) (next : List ParserEdge)
      (hways : p.onward collapsed path (path.leaving g parser'.initState) = .ok next) : next.Nodup := by
    obtain ⟨counts, full, -, -, rfl⟩ := onward_ok hways
    have hedges := nodup_outEdges hparser hg hwell ((path.getLast?.map dst).getD parser'.initState)
    split
    · exact hedges.filter _
    · split
      · exact nodup_collapse (oneState_leaving hparser hg path) hedges
      · exact hedges
  have hapart : ([] ++ paths ++ left).Pairwise Apart := hfinds.apart hnext (by simp)
  refine (pairwise_append.mp hapart).1.imp ?_
  rintro a b hab rfl
  exact hab.1 prefix_rfl

/-! ## Keys -/

theorem parserKey_inj (hways : p.onward collapsed path (path.leaving g init) = .ok next)
    (he : e ∈ next) (he' : e' ∈ next) (hkey : parserKey path e = parserKey path e') : e = e' := by
  have hone : OneState (path.leaving g init) := oneState_leaving hparser hg path
  have hplain {e : ParserEdge} {t : Transition} (he : e ∈ next) (hlabel : e.label = .transition t) :
      e ∈ path.leaving g init := by
    obtain ⟨counts, full, -, -, rfl⟩ := onward_ok hways
    split at he
    · exact mem_of_mem_filter he
    · split at he
      · exact mem_of_mem_collapse hone he (by simp [components, hlabel])
      · exact he
  unfold parserKey at hkey
  cases hlabel : e.label with
  | transition t =>
    cases hlabel' : e'.label with
    | transition t' =>
      rw [hlabel, hlabel'] at hkey
      obtain rfl := EdgeKey.transition.inj hkey
      obtain ⟨hsrc, hdst⟩ := hone.ends e (hplain he hlabel) e' (hplain he' hlabel') (by simp [target?, hlabel])
        (by simp [target?, hlabel, hlabel'])
      obtain ⟨src, dst, label⟩ := e
      obtain ⟨src', dst', label'⟩ := e'
      dsimp only at hsrc hdst hlabel hlabel'
      rw [hsrc, hdst, hlabel, hlabel']
    | composite parts | error err => simp [hlabel, hlabel'] at hkey
  | composite parts =>
    cases hlabel' : e'.label with
    | composite parts' => simpa [hlabel, hlabel'] using hkey
    | transition t | error err => simp [hlabel, hlabel'] at hkey
  | error err =>
    cases hlabel' : e'.label with
    | error err' => simpa [hlabel, hlabel'] using hkey
    | transition t | composite parts => simp [hlabel, hlabel'] at hkey

theorem Walkable.parserKeys_inj (ha : Walkable p g init collapsed a) (hb : Walkable p g init collapsed b)
    (hkeys : parserKeys a = parserKeys b) : a = b := by
  induction ha generalizing b with
  | start =>
    have hlength := congrArg List.length hkeys
    simp only [parserKeys, length_map, length_zipIdx] at hlength
    exact (length_eq_zero_iff.mp hlength.symm).symm
  | @onward path next e before opens ways mem ih =>
    rcases eq_nil_or_concat' b with rfl | ⟨front, e', rfl⟩
    · have hlength := congrArg List.length hkeys
      simp [parserKeys] at hlength
    · rw [parserKeys_concat, parserKeys_concat] at hkeys
      obtain ⟨hfront, hlast⟩ := append_inj' hkeys rfl
      obtain ⟨hbefore, -, next', ways', mem'⟩ := hb.concat
      obtain rfl := ih hbefore hfront
      obtain rfl := Except.ok.inj (ways.symm.trans ways')
      rw [parserKey_inj hparser hg ways mem mem' (singleton_inj.mp hlast)]

end Program

namespace Loaded

variable {source : Json} {l : Loaded}

theorem program_of_ofJson (h : Loaded.ofJson o files source = .ok l) :
    Program.ofJson o.packetLengthErrors source = .ok l.setting.program ∧
      l.setting.program.parserGraph = .ok l.parserGraph ∧ l.setting.options = o := by
  obtain ⟨p, hp, h⟩ := bind_eq_ok.mp h
  obtain ⟨g, hg, h⟩ := bind_eq_ok.mp h
  obtain ⟨pipeline, -, h⟩ := bind_eq_ok.mp h
  obtain ⟨control, -, h⟩ := bind_eq_ok.mp h
  obtain ⟨externs, -, h⟩ := bind_eq_ok.mp h
  cases h
  exact ⟨hp, hg, rfl⟩

theorem program_parserPaths (h : l.parserPaths = .ok paths) :
    l.setting.program.parserPaths l.parserGraph l.setting.options.collapseParserPaths = .ok paths := by
  obtain ⟨found, hfound, h⟩ := bind_eq_ok.mp h
  split at h
  · cases h
  · cases h
    exact hfound

theorem nodup_parserPaths (hload : Loaded.ofJson o files source = .ok l) (h : l.parserPaths = .ok paths) :
    paths.Nodup := by
  obtain ⟨hp, hg, -⟩ := program_of_ofJson hload
  have hfound := program_parserPaths h
  obtain ⟨parser, -, hparser, -⟩ := Program.parserPaths_ok hfound
  exact Program.nodup_parserPaths hparser hg (Program.parser_wellFormed hp hparser) hfound

theorem parserKeys_inj (hload : Loaded.ofJson o files source = .ok l) (h : l.parserPaths = .ok paths)
    (ha : a ∈ paths) (hb : b ∈ paths) (hkeys : Edge.parserKeys a = Edge.parserKeys b) : a = b := by
  obtain ⟨-, hg, -⟩ := program_of_ofJson hload
  obtain ⟨parser, left, hparser, hfinds, -⟩ := Program.parserPaths_ok (program_parserPaths h)
  have hsound := (hfinds.sound (by simpa using Program.Walkable.start)).1
  exact (hsound a ha).1.parserKeys_inj hparser hg (hsound b hb).1 hkeys

end Loaded

end PacketSmith
