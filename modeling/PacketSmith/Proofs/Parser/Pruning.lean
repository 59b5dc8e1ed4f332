import PacketSmith.Proofs.Graph.Paths
import PacketSmith.Proofs.Parser.Extractions

/-!
# Paths that are left out

The walk over the paths of a parser does not go on by a transition once a stack has been extracted into more often
than it is high. No packet takes what it leaves out for this: a symbolic run counts the same extractions
(`tracks_of_states`) and stops at the one that does not fit. Paths end at `sink` and a run ends at `PacketTooShort`,
so if a state has one of these names, paths are left out that packets take (`start_pruned_sink`).
-/

namespace PacketSmith

open List Transition Edge ParserPath

namespace Symbolic

variable {parser : Parser} {counts : Dict Label Nat}

/-- A transition is not the end of a run that comes out well, unless the packet is too short there. -/
theorem arrive_ended (hlabel : e.label = .transition tr) (hshort : e.dst ≠ shortState) (hwell : parser.WellFormed)
    (h : (arrive env parser pos e).result t = (.ok (.ended r), u)) : r = .impossible := by
  rw [arrive] at h
  cases hs : parser.states.get? e.src with
  | none =>
    rw [hs] at h
    cases h
  | some s =>
    obtain ⟨parts, hparts, -⟩ := (hwell.states s (mem_map.mpr ⟨_, Dict.mem_entries_of_get? hs, rfl⟩)).extracts
    rw [hs] at h
    obtain ⟨r', v, hops, h⟩ := result_bind_inv h
    cases r' with
    | impossible =>
      cases h
      rfl
    | reached newPos fail added =>
      obtain ⟨rfl, -⟩ := counted_of_stateOps hlabel hparts hops
      rw [hlabel] at h
      dsimp only at h
      rw [if_neg hshort] at h
      obtain ⟨under, w, -, h⟩ := result_bind_inv h
      cases under with
      | true =>
        cases h
        rfl
      | false => cases h

/-- A run that comes out well keeps the numbers in step up to every state that it goes on from by
transitions. -/
theorem tracks_of_states (hparser : env.program.parser = .ok parser) (hwell : parser.WellFormed)
    (hplain : ∀ a ∈ front ++ [e], (∃ tr, a.label = .transition tr) ∧ a.dst ≠ shortState)
    (htracks : Tracks env.program counts t)
    (h : (states env parser pos (front ++ e :: rest)).result t = (.ok (.reached fail cs), u)) :
    ∃ counts' v, ((front ++ [e]).map src).foldlM env.program.countExtracts counts = .ok counts' ∧
      Tracks env.program counts' v := by
  induction front generalizing counts t u pos fail cs with
  | nil =>
    obtain ⟨⟨tr, hlabel⟩, hshort⟩ := hplain e (by simp)
    rw [nil_append, states_cons] at h
    obtain ⟨a, v, harrive, h⟩ := result_bind_inv h
    cases a with
    | ended r =>
      obtain rfl := arrive_ended hlabel hshort hwell harrive
      cases h
    | onward s pos' fail' added =>
      obtain ⟨counts', hcount, htracks'⟩ := tracks_of_arrive hlabel hparser hwell htracks harrive
      refine ⟨counts', v, ?_, htracks'⟩
      rw [nil_append, map_singleton, foldlM_cons, hcount]
      rfl
  | cons a front ih =>
    obtain ⟨⟨⟨tr, hlabel⟩, hshort⟩, hothers⟩ := forall_mem_cons.mp hplain
    rw [cons_append, states_cons] at h
    obtain ⟨arrival, v, harrive, h⟩ := result_bind_inv h
    cases arrival with
    | ended r =>
      obtain rfl := arrive_ended hlabel hshort hwell harrive
      cases h
    | onward s pos' fail' added =>
      obtain ⟨counts', hcount, htracks'⟩ := tracks_of_arrive hlabel hparser hwell htracks harrive
      obtain ⟨taken, w, htaken, h⟩ := result_bind_inv h
      obtain ⟨r, w', hrest, h⟩ := result_bind_inv h
      have hsame := stackCounts_eq env.options (onwardConstraints_regular (σ := RelEmbedding.refl _) env s a).does htaken
      have htracks'' : Tracks env.program counts' w :=
        ⟨fun key => by rw [hsame]; exact htracks'.le key, htracks'.fits⟩
      rw [follow, if_neg (by simp)] at hrest
      cases r with
      | impossible => cases h
      | reached fail'' more =>
        obtain ⟨counts'', v', hfold, hend⟩ := ih hothers htracks'' hrest
        refine ⟨counts'', v', ?_, hend⟩
        rw [cons_append, map_cons, foldlM_cons, hcount]
        exact hfold

theorem Tracks.not_overfull (h : Tracks p counts t) : p.overfull counts.entries ≠ .ok true := by
  obtain ⟨-, hfits⟩ := h
  generalize counts.entries = es at hfits
  intro hfull
  induction es with
  | nil => cases hfull
  | cons x es ih =>
    obtain ⟨⟨s, hs, hle⟩, hrest⟩ := forall_mem_cons.mp hfits
    rw [Program.overfull, hs] at hfull
    have hnot : ¬ s.size < (x.2 : Int) := by omega
    simp only [bind, Except.bind, hnot, if_false] at hfull
    exact ih hrest hfull

end Symbolic

namespace Program

open Symbolic

variable {p : Program} {g : Graph String ParserStep} {parser : Parser} {path front rest : ParserPath}
  {e : ParserEdge}

theorem mem_leaving_of_route (h : g.Route init (front ++ e :: rest)) : e ∈ front.leaving g init := by
  induction front generalizing init with
  | nil => exact h.1
  | cons a front ih =>
    have hmem := ih h.2
    rw [leaving] at hmem ⊢
    cases front with
    | nil => exact hmem
    | cons b front =>
      rw [List.getLast?_eq_some_getLast (by simp)] at hmem
      rw [List.getLast?_cons_cons, List.getLast?_eq_some_getLast (by simp)]
      exact hmem

section

variable (hparser : p.parser = .ok parser) (hg : p.parserGraph = .ok g) (h : g.Route init (front ++ e :: rest))

include hparser hg h

theorem sources_of_route : (front ++ [e]).map src = init :: front.map dst := by
  induction front generalizing init with
  | nil => simp [(mem_outEdges_parserGraph hparser hg h.1).1]
  | cons a front ih =>
    rw [cons_append, map_cons, ih h.2, (mem_outEdges_parserGraph hparser hg h.1).1, map_cons]

theorem stackCounts_of_route (hne : front ≠ []) :
    p.stackCounts front = ((front ++ [e]).map src).foldlM p.countExtracts {} := by
  obtain ⟨a, front, rfl⟩ := exists_cons_of_ne_nil hne
  rw [sources_of_route hparser hg h, stackCounts, (mem_outEdges_parserGraph hparser hg h.1).1, foldlM_cons]
  simp only [foldlM_map]

end

theorem exists_turn (h : ¬ Walkable p g init false path) :
    ∃ front e rest, path = front ++ e :: rest ∧ Walkable p g init false front ∧
      ¬ Walkable p g init false (front ++ [e]) := by
  induction path using List.reverseRecOn with
  | nil => exact absurd .start h
  | append_singleton path e ih =>
    by_cases hpath : Walkable p g init false path
    · exact ⟨path, e, [], rfl, hpath, h⟩
    · obtain ⟨front, e', rest, rfl, hfront, hturn⟩ := ih hpath
      exact ⟨front, e', rest ++ [e], by simp, hfront, hturn⟩

theorem transition_of_mem_outEdges (hparser : p.parser = .ok parser) (hg : p.parserGraph = .ok g)
    (he : e ∈ g.outEdges v) (hplain : e.dst ≠ sink ∨ e.label.isError = false) :
    ∃ tr, e.label = .transition tr := by
  obtain ⟨-, -, s, -, -, hs⟩ := mem_outEdges_parserGraph hparser hg he
  rcases mem_append.mp hs with hs | hs
  · obtain ⟨tr, -, rfl⟩ := mem_map.mp hs
    exact ⟨tr, rfl⟩
  · obtain ⟨err, -, rfl⟩ := mem_map.mp hs
    rcases hplain with hdst | hlabel
    · exact absurd rfl hdst
    · cases hlabel

theorem exists_overfull (hparser : p.parser = .ok parser) (hg : p.parserGraph = .ok g)
    (hbounded : Bounded p g parser.initState false) (hpaths : p.parserPaths g false = .ok paths)
    (hroute : g.Route parser.initState path) (hend : path.AtEnd)
    (hnames : ∀ e ∈ path.dropLast, e.dst ≠ sink ∧ e.dst ≠ shortState) (hpruned : path ∉ paths) :
    ∃ front e rest counts, path = front ++ e :: rest ∧
      front ≠ [] ∧ p.stackCounts front = .ok counts ∧ p.overfull counts.entries = .ok true ∧
      ∀ a ∈ front ++ [e], (∃ tr, a.label = .transition tr) ∧ a.dst ≠ shortState := by
  have hlength (path : ParserPath) (h : Walkable p g parser.initState false path) := hbounded.length_le hparser hg h
  obtain ⟨hfound, hopen⟩ := mem_parserPaths hparser hlength hpaths
  have hwalk : ¬ Walkable p g parser.initState false path := fun h => hpruned ((hfound path).mpr ⟨h, hend⟩)
  obtain ⟨front, e, rest, rfl, hfront, hturn⟩ := exists_turn hwalk
  have hbefore : ∀ a ∈ front, a.dst ≠ sink ∧ a.dst ≠ shortState := by
    intro a ha
    refine hnames a ?_
    rw [dropLast_append_of_ne_nil (by simp)]
    exact mem_append_left _ ha
  have hnotEnd : ¬ front.AtEnd := by
    intro hfrontEnd
    obtain ⟨a, ha, hdst⟩ := Option.map_eq_some_iff.mp hfrontEnd
    exact (hbefore a (mem_of_getLast? ha)).1 hdst
  obtain ⟨next, hnext⟩ := hopen front hfront hnotEnd
  have hleft : e ∉ next := fun he => hturn (.onward hfront hnotEnd hnext he)
  have hleaving := mem_leaving_of_route hroute
  obtain ⟨counts, full, hcounts, hfull, rfl⟩ := onward_ok hnext
  cases full with
  | false => exact absurd hleaving hleft
  | true =>
    have hne : front ≠ [] := by
      rintro rfl
      cases hcounts
      cases hfull
    have hnoError : e.label.isError = false := by
      cases herror : e.label.isError with
      | false => rfl
      | true => exact absurd (mem_filter.mpr ⟨hleaving, herror⟩) hleft
    have hlast : e.dst ≠ shortState := by
      cases rest with
      | nil =>
        rw [atEnd_concat.mp hend]
        decide
      | cons b rest =>
        refine (hnames e ?_).2
        simp
    refine ⟨front, e, rest, counts, rfl, hne, hcounts, hfull, forall_mem_append.mpr
      ⟨fun a ha => ?_, forall_mem_singleton.mpr ⟨?_, hlast⟩⟩⟩
    · obtain ⟨v, hv⟩ := hroute.exists_outEdges a (mem_append_left _ ha)
      exact ⟨transition_of_mem_outEdges hparser hg hv (.inl (hbefore a ha).1), (hbefore a ha).2⟩
    · exact transition_of_mem_outEdges hparser hg hleaving (.inr hnoError)

/-- No packet takes a path that the walk leaves out, if the names `sink` and `PacketTooShort` are not
met before its end. -/
theorem start_pruned {env : Setting} {lengthErrors : Bool} {source : Json} {paths : List ParserPath}
    (hload : Program.ofJson lengthErrors source = .ok env.program) (hparser : env.program.parser = .ok parser)
    (hg : env.program.parserGraph = .ok g) (hbounded : Bounded env.program g parser.initState false)
    (hpaths : env.program.parserPaths g false = .ok paths) (hroute : g.Route parser.initState path) (hend : path.AtEnd)
    (hnames : ∀ e ∈ path.dropLast, e.dst ≠ Transition.sink ∧ e.dst ≠ shortState) (hpruned : path ∉ paths)
    {s s' : PathSolver} {possible : Bool} (hstart : s.start env path = .ok (possible, s')) : possible = false := by
  have hwell := parser_wellFormed hload hparser
  obtain ⟨front, e, rest, counts, rfl, hne, hcounts, hfull, hplain⟩ :=
    exists_overfull hparser hg hbounded hpaths hroute hend hnames hpruned
  obtain ⟨-, ctx, t, -, ⟨hfalse, -⟩ | ⟨fs, -, -, hresult⟩⟩ := PathSolver.start_ok hstart
  · exact hfalse
  · rw [parserPath_eq hparser (by simp)] at hresult
    obtain ⟨r, u, hstates, hresult⟩ := result_bind_inv hresult
    cases r with
    | impossible => cases hresult
    | reached fail cs =>
      obtain ⟨counts', v, hfold, htracks⟩ :=
        tracks_of_states hparser hwell hplain (Tracks.empty env.program _) hstates
      rw [← stackCounts_of_route hparser hg hroute hne, hcounts] at hfold
      cases hfold
      exact absurd hfull htracks.not_overfull

end Program

namespace Small

def step (src dst : String) (target : Label) : ParserEdge := ⟨src, dst, .transition ⟨.null, target, none, none⟩⟩

/-- A header is extracted twice into a stack of one element. -/
def overflowing : Json :=
  source [headerType "h_t" [("f", 8)]] [header "hs[0]" "h_t" false]
    [.obj [("name", .str "hs"), ("id", .int 0), ("header_type", .str "h_t"), ("size", .int 1),
      ("header_ids", .arr [.int 1])]] "start"
    [state "start" [extraction] [] [transition none (some "again")],
      state "again" [extraction] [] [transition none (some "last")], state "last" [] [] [transition none none]] passing
where
  extraction : Json :=
    operation "extract" [tagged "stack" (.str "hs")]

def twice : ParserPath :=
  [step "start" "again" (.text "again"), step "again" "last" (.text "last"), step "last" "sink" .null]

def ending : Json :=
  source [] [] [] "start" [state "start" [] [] [transition none (some "sink")],
    state "sink" [] [] [transition none none]] passing

def beyond : ParserPath := [step "start" "sink" (.text "sink"), step "sink" "sink" .null]

def leftOut (p : Program) (parser : Parser) (g : Graph String ParserStep) (paths : List ParserPath) (path : ParserPath)
    (possible : Bool) : Bool :=
  p.endsWithin g parser.initState false 3 [] && g.Route parser.initState path && path.AtEnd && path ∉ paths &&
    (({} : PathSolver).start ⟨{}, p, default, {}⟩ path).toOption.any fun r =>
      r.1 == possible && r.2.formulas.all fun f => f.eval fun _ _ => 1

end Small

theorem Program.start_overflowing :
    ∃ p parser g paths s', Program.ofJson true Small.overflowing = .ok p ∧ p.parser = .ok parser ∧
      p.parserGraph = .ok g ∧ Bounded p g parser.initState false ∧ p.parserPaths g false = .ok paths ∧
      g.Route parser.initState Small.twice ∧ ParserPath.AtEnd Small.twice ∧
      (∀ e ∈ Small.twice.dropLast, e.dst ≠ Transition.sink ∧ e.dst ≠ Symbolic.shortState) ∧ Small.twice ∉ paths ∧
      ({} : PathSolver).start ⟨{}, p, default, {}⟩ Small.twice = .ok (false, s') := by
  have hcomputed : (Small.parses true Small.overflowing fun p parser g => (p.parserPaths g false).toOption.any fun paths =>
      Small.leftOut p parser g paths Small.twice false) = true := by
    decide +kernel
  obtain ⟨p, parser, g, hload, hparser, hg, h⟩ := Small.of_parses hcomputed
  obtain ⟨paths, hpaths, h⟩ := Small.ok_of_any h
  simp only [Small.leftOut, Bool.and_eq_true, decide_eq_true_eq] at h
  obtain ⟨⟨⟨⟨hends, hroute⟩, hend⟩, hpruned⟩, hstart⟩ := h
  obtain ⟨⟨possible, s'⟩, hstart, -⟩ := Small.ok_of_any hstart
  have hnames : ∀ e ∈ Small.twice.dropLast, e.dst ≠ Transition.sink ∧ e.dst ≠ Symbolic.shortState := by decide
  have hbounded := bounded_of_endsWithin hends
  obtain rfl := Program.start_pruned
    (show Program.ofJson true Small.overflowing = .ok (⟨{}, p, default, {}⟩ : Setting).program from hload) hparser hg
    hbounded hpaths hroute hend hnames hpruned hstart
  exact ⟨p, parser, g, paths, s', hload, hparser, hg, hbounded, hpaths, hroute, hend, hnames, hpruned, hstart⟩

/-- A path through a state that has the name of the end is left out, and a packet takes it. -/
theorem Program.start_pruned_sink :
    ∃ p parser g paths s', Program.ofJson false Small.ending = .ok p ∧ p.parser = .ok parser ∧
      p.parserGraph = .ok g ∧ Bounded p g parser.initState false ∧ p.parserPaths g false = .ok paths ∧
      g.Route parser.initState Small.beyond ∧ ParserPath.AtEnd Small.beyond ∧ Small.beyond ∉ paths ∧
      ({} : PathSolver).start ⟨{}, p, default, {}⟩ Small.beyond = .ok (true, s') ∧
      ∃ ρ : Assignment, ρ.Satisfies s'.formulas := by
  have hcomputed : (Small.parses false Small.ending fun p parser g => (p.parserPaths g false).toOption.any fun paths =>
      Small.leftOut p parser g paths Small.beyond true) = true := by
    decide +kernel
  obtain ⟨p, parser, g, hload, hparser, hg, h⟩ := Small.of_parses hcomputed
  obtain ⟨paths, hpaths, h⟩ := Small.ok_of_any h
  simp only [Small.leftOut, Bool.and_eq_true, decide_eq_true_eq] at h
  obtain ⟨⟨⟨⟨hends, hroute⟩, hend⟩, hpruned⟩, hstart⟩ := h
  obtain ⟨⟨possible, s'⟩, hstart, hsat⟩ := Small.ok_of_any hstart
  simp only [Bool.and_eq_true, beq_iff_eq, all_eq_true] at hsat
  obtain ⟨rfl, hsat⟩ := hsat
  exact ⟨p, parser, g, paths, s', hload, hparser, hg, bounded_of_endsWithin hends, hpaths, hroute, hend, hpruned,
    hstart, _, hsat⟩

end PacketSmith
