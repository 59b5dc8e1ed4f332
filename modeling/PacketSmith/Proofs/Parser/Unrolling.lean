import PacketSmith.Proofs.Parser.Choices
import PacketSmith.Proofs.Parser.Pruning

/-!
# Parsers with cycles

A walk over a parser graph keeps no record of the nodes it has seen. It ends nevertheless if every
cycle has a state that extracts into a stack (`Consuming`): a path that comes back to a node has
extracted something in between, and the stacks have room for so many extractions only. The length
of a path is bounded by the number of states and the capacity of all stacks
(`parserPaths_of_consuming`).
-/

namespace PacketSmith

open List ParserPath

namespace Program

/-- Every cycle leads through a state that extracts into a stack. -/
def Consuming (parser : Parser) (g : Graph String ParserStep) : Prop :=
  ∀ v cycle, g.Route v cycle → cycle.getLast?.map Edge.dst = some v →
    ∃ e ∈ cycle, ∃ s, parser.states.get? e.dst = some s ∧ s.stackExtracts ≠ []

/-- The stacks that the states extract into are those of the program. -/
def Stocked (p : Program) (parser : Parser) : Prop :=
  ∀ s ∈ parser.states.values, ∀ name ∈ s.stackExtracts, ∃ key, name.key = .ok key ∧
    (p.headerStacks.get? key).isSome = true

variable {p : Program} {g : Graph String ParserStep} {parser : Parser} {collapsed : Bool}
  {path a c : ParserPath} {counts counts' : Dict Label Nat}

/-! ## Cycles -/

theorem route_concat : g.Route v (path ++ [e]) ↔ g.Route v path ∧ e ∈ path.leaving g v := by
  induction path generalizing v with
  | nil => simp [Graph.Route, leaving]
  | cons a path ih =>
    have hleaving : leaving g v (a :: path) = leaving g a.dst path := by
      cases path with
      | nil => rfl
      | cons b path => simp [leaving, List.getLast?_cons]
    rw [cons_append, Graph.Route, ih, hleaving, Graph.Route, and_assoc]

theorem Walkable.route (h : Walkable p g init false (a ++ c)) (hv : a.getLast?.map Edge.dst = some v) :
    g.Route v c := by
  induction c using List.reverseRecOn with
  | nil => trivial
  | append_singleton c e ih =>
    rw [← append_assoc] at h
    refine route_concat.mpr ⟨ih h.concat.1, ?_⟩
    have hmem := h.mem_leaving
    obtain rfl | ⟨front, last, rfl⟩ := eq_nil_or_concat' c
    · rw [append_nil, leaving, hv] at hmem
      exact hmem
    · rw [leaving, ← append_assoc, List.getLast?_concat] at hmem
      rw [leaving, List.getLast?_concat]
      exact hmem

theorem exists_stackCounts_of_append (hne : path ≠ []) (h : p.stackCounts (path ++ rest) = .ok counts) :
    ∃ before, p.stackCounts path = .ok before := by
  induction rest using List.reverseRecOn generalizing counts with
  | nil => exact ⟨counts, by simpa using h⟩
  | append_singleton rest e ih =>
    rw [← append_assoc, stackCounts_concat (by simp [hne])] at h
    obtain ⟨between, hbetween, -⟩ := bind_eq_ok.mp h
    exact ih hbetween

theorem Alike.extracts_nothing (h : Alike p a (a ++ c)) (hcounts : p.stackCounts a = .ok counts) (he : e ∈ c)
    (hsink : e.dst ≠ Transition.sink) : ∃ s, p.parseState e.dst = .ok s ∧ s.stackExtracts = [] := by
  obtain ⟨front, rest, rfl⟩ := append_of_mem he
  have hall : p.stackCounts (a ++ front ++ [e] ++ rest) = .ok counts := by
    rw [← hcounts, h.counts]
    simp
  have hfront : a ++ front ≠ [] := by simp [h.left]
  obtain ⟨after, hafter⟩ := exists_stackCounts_of_append (by simp) hall
  obtain ⟨before, hbefore⟩ := exists_stackCounts_of_append hfront hafter
  have hone : p.countExtracts before e.dst = .ok after := by
    rw [stackCounts_concat hfront, hbefore] at hafter
    exact hafter
  refine (countExtracts_ok hone).2.2 ?_ hsink
  -- the counts only grow, and are the same in the end
  have hfirst := stackCounts_append h.left hcounts hbefore
  have hlast := stackCounts_append (by simp) hafter hall
  refine (countExtracts_ok hone).1.resolve_right fun hmore => ?_
  rcases hfirst with rfl | hfirst <;> rcases hlast with rfl | hlast <;> omega

theorem Consuming.length_le (hparser : p.parser = .ok parser) (hg : p.parserGraph = .ok g)
    (hcycle : Consuming parser g) (h : Walkable p g init false path) :
    path.length ≤ g.nodes.length * (p.capacity + 1) + 2 := by
  by_contra hlong
  obtain ⟨a, c, rest, rfl, hc, hrest, halike, counts, hcounts⟩ := h.exists_loop hparser hg (Nat.lt_of_not_le hlong)
  obtain ⟨front, last, rfl⟩ := eq_nil_or_concat' a |>.resolve_left halike.left
  have hlast : (front ++ [last]).getLast?.map Edge.dst = some last.dst := by simp
  have hback : c.getLast?.map Edge.dst = some last.dst := by
    rw [← hlast, halike.last, List.getLast?_append_of_ne_nil _ hc]
  obtain ⟨e, he, s, hs, hextracts⟩ := hcycle _ c (h.of_append.route hlast) hback
  obtain ⟨before, after, hsplit⟩ := append_of_mem he
  have hopen : e.dst ≠ Transition.sink := by
    have hprefix : (front ++ [last] ++ before ++ [e]) <+: front ++ [last] ++ c ++ rest :=
      ⟨after ++ rest, by simp [hsplit]⟩
    refine mt ParserPath.atEnd_concat.mpr (h.beyond hprefix fun heq => ?_).1
    have hlength := congrArg List.length heq
    have hpos := length_pos_iff.mpr hrest
    simp only [hsplit, length_append, length_cons, length_nil] at hlength
    omega
  obtain ⟨s', hs', hnone⟩ := halike.extracts_nothing hcounts he hopen
  simp only [parseState, hparser, bind, Except.bind, hs] at hs'
  cases hs'
  exact hextracts hnone

/-! ## Faults -/

theorem dst_of_mem_outEdges (hparser : p.parser = .ok parser) (hg : p.parserGraph = .ok g) (he : e ∈ g.outEdges v) :
    e.dst = Transition.sink ∨ ∃ s, parser.states.get? e.dst = some s := by
  obtain ⟨-, -, s, hs, -, hedge⟩ := mem_outEdges_parserGraph hparser hg he
  rw [parserGraph, hparser] at hg
  obtain ⟨_, hsame, hg⟩ := bind_eq_ok.mp hg
  cases hsame
  obtain ⟨edges, hedges, -⟩ := bind_eq_ok.mp hg
  obtain ⟨es, -, hes⟩ := mem_mapM hedges hs
  obtain ⟨transitions, htransitions, -⟩ := bind_eq_ok.mp hes
  rcases mem_append.mp hedge with hedge | hedge
  · obtain ⟨t, ht, rfl⟩ := mem_map.mp hedge
    obtain ⟨_, -, hfollow⟩ := mem_mapM htransitions ht
    obtain ⟨_ | next, hnext, hend⟩ := bind_eq_ok.mp hfollow
    · obtain ⟨hend, -⟩ := require_bind_eq_ok.mp hend
      exact .inl (node_of_follow hnext fun _ => eq_of_beq hend)
    · right
      rw [show (s.edge t).dst = next from node_of_follow hnext (by simp), ← Option.isSome_iff_exists]
      unfold Parser.follow at hnext
      split at hnext
      · split at hnext
        · split at hnext
          · cases hnext
            assumption
          · cases hnext
        · cases hnext
      · cases hnext
  · obtain ⟨err, -, rfl⟩ := mem_map.mp hedge
    exact .inl rfl

def Known (p : Program) (counts : Dict Label Nat) : Prop := ∀ x ∈ counts.entries, (p.headerStacks.get? x.1).isSome = true

theorem countExtracts_known (hstocked : p.Stocked parser) (hparser : p.parser = .ok parser)
    (hnode : node = Transition.sink ∨ ∃ s, parser.states.get? node = some s) (hknown : p.Known counts) :
    ∃ counts', p.countExtracts counts node = .ok counts' ∧ p.Known counts' := by
  rcases hnode with rfl | ⟨s, hs⟩
  · exact ⟨counts, rfl, hknown⟩
  · by_cases hsink : node = Transition.sink
    · exact ⟨counts, by rw [countExtracts, if_pos hsink], hknown⟩
    · have hnames := hstocked s (mem_map.mpr ⟨_, Dict.mem_entries_of_get? hs, rfl⟩)
      simp only [countExtracts, hsink, if_false, parseState, hparser, bind, Except.bind, hs]
      change ∃ counts', s.stackExtracts.foldlM _ counts = _ ∧ _
      generalize s.stackExtracts = names at hnames
      induction names generalizing counts with
      | nil => exact ⟨counts, rfl, hknown⟩
      | cons name names ih =>
        obtain ⟨hfirst, hrest⟩ := forall_mem_cons.mp hnames
        obtain ⟨key, hkey, hsome⟩ := hfirst
        rw [foldlM_cons, hkey]
        refine ih (fun x hx => ?_) hrest
        rcases Dict.mem_put_eq hx with rfl | hx
        · exact hsome
        · exact hknown x hx

theorem Walkable.counts_known (hstocked : p.Stocked parser) (hparser : p.parser = .ok parser) (hg : p.parserGraph = .ok g)
    (hwell : parser.WellFormed) (h : Walkable p g init false path) :
    ∃ counts, p.stackCounts path = .ok counts ∧ p.Known counts := by
  induction path using List.reverseRecOn with
  | nil => exact ⟨{}, rfl, by simp [Known]⟩
  | append_singleton path e ih =>
    have hmem := h.mem_leaving
    have hdst := dst_of_mem_outEdges hparser hg hmem
    by_cases hne : path = []
    · subst hne
      obtain ⟨hsrc, -, s, hs, hname, -⟩ := mem_outEdges_parserGraph hparser hg hmem
      obtain ⟨x, hx, rfl⟩ := mem_map.mp hs
      have hget : parser.states.get? e.src = some x.2 :=
        Dict.get?_of_mem hwell.nodup (by rw [hsrc, ← hname, hwell.name x hx]; exact hx)
      have hnone : p.Known {} := by simp [Known]
      obtain ⟨first, hfirst, hknown⟩ := countExtracts_known hstocked hparser (.inr ⟨_, hget⟩) hnone
      obtain ⟨counts, hcounts, hknown⟩ := countExtracts_known hstocked hparser hdst hknown
      refine ⟨counts, ?_, hknown⟩
      simp only [stackCounts, nil_append, hfirst, bind, Except.bind, foldlM_cons, hcounts]
      rfl
    · obtain ⟨before, hbefore, hknown⟩ := ih h.concat.1
      obtain ⟨counts, hcounts, hknown⟩ := countExtracts_known hstocked hparser hdst hknown
      exact ⟨counts, by rw [stackCounts_concat hne, hbefore]; exact hcounts, hknown⟩

theorem overfull_known (h : ∀ x ∈ es, (p.headerStacks.get? x.1).isSome = true) : ∃ full, p.overfull es = .ok full := by
  induction es with
  | nil => exact ⟨false, rfl⟩
  | cons x es ih =>
    obtain ⟨hfirst, hrest⟩ := forall_mem_cons.mp h
    obtain ⟨s, hs⟩ := Option.isSome_iff_exists.mp hfirst
    obtain ⟨full, hfull⟩ := ih hrest
    by_cases hroom : s.size < x.2
    · exact ⟨true, by simp [overfull, stack, hs, hroom, bind, Except.bind, pure, Except.pure]⟩
    · exact ⟨full, by simp [overfull, stack, hs, hroom, hfull, bind, Except.bind]⟩

/-! ## The walk ends -/

theorem length_nodes_le (hparser : p.parser = .ok parser) (hg : p.parserGraph = .ok g) (hwell : parser.WellFormed) :
    g.nodes.length ≤ parser.states.size + 1 := by
  have hnodup : g.nodes.Nodup := by
    rw [parserGraph_ok hparser hg]
    exact (Graph.Coherent.empty.foldl_addEdge _).nodup_out
  have hsub : g.nodes ⊆ Transition.sink :: parser.states.keys := by
    intro v hv
    rw [parserGraph_ok hparser hg, Graph.mem_nodes_foldl_addEdge] at hv
    obtain ⟨e, he, hends⟩ := hv.resolve_left not_mem_nil
    have hout : e ∈ g.outEdges e.src := by
      rw [outEdges_parserGraph hparser hg]
      exact mem_filter.mpr ⟨he, by simp⟩
    rcases hends with rfl | rfl
    · obtain ⟨-, -, s, hs, hname, -⟩ := mem_outEdges_parserGraph hparser hg hout
      obtain ⟨x, hx, rfl⟩ := mem_map.mp hs
      exact mem_cons_of_mem _ (mem_map.mpr ⟨x, hx, by rw [← hwell.name x hx, hname]⟩)
    · rcases dst_of_mem_outEdges hparser hg hout with hsink | ⟨s, hs⟩
      · exact hsink ▸ mem_cons_self
      · exact mem_cons_of_mem _ (mem_map.mpr ⟨_, Dict.mem_entries_of_get? hs, rfl⟩)
  simpa [Dict.keys, Dict.size] using (subperm_of_subset hnodup hsub).length_le

theorem Walkable.exists_plain (hparser : p.parser = .ok parser) (hg : p.parserGraph = .ok g)
    (h : Walkable p g init collapsed path) : ∃ plain, Walkable p g init false plain ∧ plain.length = path.length ∧
    p.stackCounts plain = p.stackCounts path := by
  cases collapsed with
  | false => exact ⟨path, h, rfl, rfl⟩
  | true =>
    obtain ⟨plain, hplain⟩ := exists_choice hparser hg h
    exact ⟨plain, Chosen.walkable hparser hg h hplain, hplain.length_eq.symm, hplain.stackCounts p⟩

/-- If every cycle extracts into a stack, the walk over a parser graph ends with all of its paths and
with none waiting, and none of the paths that it visits is longer than the states and the stacks
allow. -/
theorem parserPaths_of_consuming {lengthErrors : Bool} {source : Json}
    (hload : Program.ofJson lengthErrors source = .ok p) (hparser : p.parser = .ok parser)
    (hg : p.parserGraph = .ok g) (hinit : parser.initState ∈ g.nodes) (hcycle : Consuming parser g)
    (hstocked : p.Stocked parser) (collapsed : Bool) :
    ∃ paths, p.parserPaths g collapsed = .ok paths ∧
      Finds p g parser.initState collapsed [[]] paths [] ∧
      (∀ q, q ∈ paths ↔ Walkable p g parser.initState collapsed q ∧ q.AtEnd) ∧
      ∀ q, Walkable p g parser.initState collapsed q →
        q.length ≤ (parser.states.size + 1) * (p.capacity + 1) + 2 := by
  have hwell := parser_wellFormed hload hparser
  have hlength (q : ParserPath) (hq : Walkable p g parser.initState collapsed q) :
      q.length ≤ g.nodes.length * (p.capacity + 1) + 2 := by
    obtain ⟨plain, hplain, hsame, -⟩ := hq.exists_plain hparser hg
    exact hsame ▸ hcycle.length_le hparser hg hplain
  cases hpaths : p.parserPaths g collapsed with
  | ok paths =>
    refine ⟨paths, rfl, finds_parserPaths hparser hlength hpaths,
      (mem_parserPaths hparser hlength hpaths).1, fun q hq => (hlength q hq).trans ?_⟩
    exact Nat.add_le_add_right (Nat.mul_le_mul_right _ (length_nodes_le hparser hg hwell)) 2
  | error f =>
    obtain ⟨q, hq, -, hfail⟩ := parserPaths_error hparser (Dict.mem_keys_iff.mp hinit) hpaths
    obtain ⟨plain, hplain, -, hsame⟩ := hq.exists_plain hparser hg
    obtain ⟨counts, hcounts, hknown⟩ := hplain.counts_known hstocked hparser hg hwell
    obtain ⟨full, hfull⟩ := overfull_known hknown
    rw [hsame] at hcounts
    simp only [onward, hcounts, hfull, bind, Except.bind, pure, Except.pure] at hfail
    cases full <;> cases collapsed <;> cases hfail

end Program

/-- A state that extracts into a stack of two elements and may be entered again. -/
def Small.looping : Json :=
  source [headerType "h_t" [("f", 8)]] [header "hs[0]" "h_t" false, header "hs[1]" "h_t" false]
    [.obj [("name", .str "hs"), ("id", .int 0), ("header_type", .str "h_t"), ("size", .int 2),
      ("header_ids", .arr [.int 1, .int 2])]] "start"
    [state "start" [overflowing.extraction] [] [transition (some "0x01") (some "start"), transition none none]] passing

theorem Program.consuming_of_states {parser : Parser}
    (h : ∀ v ∈ g.nodes, g.outEdges v = [] ∨ ((parser.states.get? v).any fun s => !s.stackExtracts.isEmpty) = true) :
    Consuming parser g := by
  intro v cycle hroute hback
  cases cycle with
  | nil => cases hback
  | cons e rest =>
    obtain ⟨last, hlast, rfl⟩ := Option.map_eq_some_iff.mp hback
    have hany := (h _ (Graph.mem_nodes_of_outEdges hroute.1)).resolve_left (ne_nil_of_mem hroute.1)
    cases hs : parser.states.get? last.dst with
    | none => simp [hs] at hany
    | some s => exact ⟨last, mem_of_getLast? hlast, s, hs, fun hnil => by simp [hs, hnil] at hany⟩

theorem Program.parserPaths_of_consuming_looping :
    ∃ p parser g paths, Program.ofJson false Small.looping = .ok p ∧ p.parser = .ok parser ∧ p.parserGraph = .ok g ∧
      p.parserPaths g true = .ok paths ∧
      ∀ q, Walkable p g parser.initState true q → q.length ≤ (parser.states.size + 1) * (p.capacity + 1) + 2 := by
  have hcomputed : (Small.parses false Small.looping fun p parser g => parser.initState ∈ g.nodes ∧
      (∀ v ∈ g.nodes, g.outEdges v = [] ∨ ((parser.states.get? v).any fun s => !s.stackExtracts.isEmpty) = true) ∧
      ∀ s ∈ parser.states.values, ∀ name ∈ s.stackExtracts,
        (name.key.toOption.any fun key => (p.headerStacks.get? key).isSome) = true) = true := by
    decide +kernel
  obtain ⟨p, parser, g, hload, hparser, hg, h⟩ := Small.of_parses hcomputed
  obtain ⟨hinit, hstates, hstocked⟩ := of_decide_eq_true h
  obtain ⟨paths, hpaths, -, -, hlength⟩ := Program.parserPaths_of_consuming hload hparser hg hinit
    (Program.consuming_of_states hstates) (fun s hs name hname => Small.ok_of_any (hstocked s hs name hname)) true
  exact ⟨p, parser, g, paths, hload, hparser, hg, hpaths, hlength⟩

end PacketSmith
