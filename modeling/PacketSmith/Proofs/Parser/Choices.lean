import Mathlib.Data.List.Forall2
import PacketSmith.Proofs.Parser.PathLength

/-!
# Paths with transitions taken as one

A path in which transitions are taken as one stands for the paths in which each edge is one of its components
(`Chosen`). Such a choice extracts into the same stacks, so it is walkable if the path is (`Chosen.walkable`), and
each path that is walkable without is a choice of exactly one (`exists_chosen`, `chosen_unique`).
-/

namespace PacketSmith

open List Except ParserPath
open ParserEdge

/-- A path is got from another one by choosing a component for each edge. -/
def ParserPath.Chosen (whole path : ParserPath) : Prop := List.Forall₂ (fun e' e => e ∈ components e') whole path

theorem ParserEdge.ends_of_mem_components (h : e ∈ components e') : e.src = e'.src ∧ e.dst = e'.dst := by
  unfold components at h
  split at h
  · obtain ⟨t, -, rfl⟩ := mem_map.mp h
    exact ⟨rfl, rfl⟩
  · obtain rfl := mem_singleton.mp h
    exact ⟨rfl, rfl⟩

namespace ParserPath

variable {whole path : ParserPath}

theorem chosen_concat : Chosen (whole ++ [e']) path ↔
    ∃ front e, path = front ++ [e] ∧ Chosen whole front ∧ e ∈ components e' := by
  constructor
  · intro h
    have hlength : path.length = whole.length + 1 := by simpa using h.length_eq.symm
    have hne : path ≠ [] := length_pos_iff.mp (by omega)
    obtain ⟨front, e, rfl⟩ := eq_nil_or_concat' path |>.resolve_left hne
    have hfront : front.length = whole.length := by simpa using hlength
    have htake := forall₂_take_append (whole ++ [e']) front [e] h
    have hdrop := forall₂_drop_append (whole ++ [e']) front [e] h
    rw [hfront, take_left] at htake
    rw [hfront] at hdrop
    exact ⟨front, e, rfl, htake, by simpa using hdrop⟩
  · rintro ⟨front, e, rfl, hfront, he⟩
    exact rel_append hfront (.cons he .nil)

section

variable (h : Chosen whole path)

include h

theorem Chosen.ends : path.map (fun e => (e.src, e.dst)) = whole.map fun e => (e.src, e.dst) := by
  induction h with
  | nil => rfl
  | cons he _ ih =>
    obtain ⟨hsrc, hdst⟩ := ends_of_mem_components he
    rw [map_cons, map_cons, ih, hsrc, hdst]

theorem Chosen.last : path.getLast?.map Edge.dst = whole.getLast?.map Edge.dst := by
  have hends := congrArg (fun l : List (String × String) => l.getLast?.map Prod.snd) h.ends
  simpa [Function.comp_def] using hends

theorem Chosen.atEnd : path.AtEnd ↔ whole.AtEnd := by
  rw [AtEnd, AtEnd, h.last]

theorem Chosen.leaving (g : Graph String ParserStep) (init : String) : path.leaving g init = whole.leaving g init := by
  rw [ParserPath.leaving, ParserPath.leaving, h.last]

theorem Chosen.stackCounts (p : Program) : p.stackCounts path = p.stackCounts whole := by
  have hfold (as : ParserPath) (counts : Dict Label Nat) :
      as.foldlM (fun counts (e : ParserEdge) => p.countExtracts counts e.dst) counts =
        (as.map fun e => (e.src, e.dst)).foldlM (fun counts x => p.countExtracts counts x.2) counts := by
    rw [foldlM_map]
  have hends := h.ends
  cases h with
  | nil => rfl
  | cons he hrest =>
    simp only [Program.stackCounts, hfold, hends, (ends_of_mem_components he).1]

end

end ParserPath

open ParserPath (Chosen)

namespace Program

variable {p : Program} {parser : Parser} {whole whole' path : ParserPath}

theorem oneState_leaving (hparser : p.parser = .ok parser) (hg : p.parserGraph = .ok g) (path : ParserPath) :
    OneState (path.leaving g init) := by
  apply oneState_of_states
  intro e he
  obtain ⟨hsrc, -, s, -, -, hs⟩ := mem_outEdges_parserGraph hparser hg he
  exact ⟨hsrc, s, hs⟩

variable {edges : List ParserEdge}

theorem components_ne_nil (h : OneState edges) (he : e ∈ collapse edges) : components e ≠ [] := by
  rcases components_of_mem_collapse h he with ⟨-, -, hself⟩ | ⟨target, hmerge, hgroup⟩
  · simp [hself]
  · rw [hgroup]
    rintro hnil
    rw [hnil] at hmerge
    cases hmerge

/-! ## Ways to go on -/

structure Refines (merged edges : List ParserEdge) : Prop where
  mem : ∀ e' ∈ merged, ∀ e ∈ components e', e ∈ edges
  covers : ∀ e ∈ edges, ∃ e' ∈ merged, e ∈ components e'
  unique : ∀ a ∈ merged, ∀ b ∈ merged, ∀ e, e ∈ components a → e ∈ components b → a = b
  nonempty : ∀ e' ∈ merged, components e' ≠ []

theorem OneState.refines_collapse (h : OneState edges) : Refines (collapse edges) edges :=
  ⟨fun _ he' _ he => mem_of_mem_collapse h he' he, fun _ he => exists_mem_collapse h he,
    fun _ ha _ hb _ he he' => collapse_unique h ha hb he he', fun _ he' => components_ne_nil h he'⟩

theorem OneState.refines_self (h : OneState edges) : Refines edges edges := by
  refine ⟨fun e' he' e he => ?_, fun e he => ⟨e, he, ?_⟩, fun a ha b hb e hea heb => ?_, fun e' he' => ?_⟩
  · rw [h.plain e' he'] at he
    exact mem_singleton.mp he ▸ he'
  · simp [h.plain e he]
  · rw [h.plain a ha] at hea
    rw [h.plain b hb] at heb
    exact (mem_singleton.mp hea).symm.trans (mem_singleton.mp heb)
  · simp [h.plain e' he']

theorem OneState.filter (h : OneState edges) (f : ParserEdge → Bool) : OneState (edges.filter f) :=
  ⟨fun e he => h.plain e (mem_of_mem_filter he),
    fun e he e' he' => h.ends e (mem_of_mem_filter he) e' (mem_of_mem_filter he')⟩

theorem onward_refines (h : OneState edges) (p : Program) (path : ParserPath) :
    (∃ f, p.onward true path edges = .error f ∧ p.onward false path edges = .error f) ∨
      ∃ merged plain, p.onward true path edges = .ok merged ∧
      p.onward false path edges = .ok plain ∧ Refines merged plain := by
  unfold onward
  cases p.stackCounts path with
  | error f => exact .inl ⟨f, rfl, rfl⟩
  | ok counts =>
    cases hfull : p.overfull counts.entries with
    | error f =>
      simp [hfull, bind, Except.bind]
    | ok full =>
      right
      cases full with
      | true =>
        refine ⟨_, _, ?_, ?_, (h.filter fun e => e.label.isError).refines_self⟩ <;>
          simp [hfull, bind, Except.bind, pure, Except.pure]
      | false =>
        refine ⟨_, _, ?_, ?_, h.refines_collapse⟩ <;> simp [hfull, bind, Except.bind, pure, Except.pure]

theorem onward_of_chosen (h : Chosen whole path) (collapsed : Bool) :
    p.onward collapsed path (path.leaving g init) = p.onward collapsed whole (whole.leaving g init) := by
  rw [h.leaving, onward, onward, h.stackCounts]

/-! ## Paths -/

variable (hparser : p.parser = .ok parser) (hg : p.parserGraph = .ok g)

include hparser hg

theorem Chosen.walkable (hwhole : Walkable p g init true whole) (h : Chosen whole path) : Walkable p g init false path := by
  induction hwhole generalizing path with
  | start =>
    cases h
    exact .start
  | @onward whole merged e' before opens ways mem ih =>
    obtain ⟨front, e, rfl, hfront, he⟩ := chosen_concat.mp h
    rcases onward_refines (oneState_leaving hparser hg whole) p whole with ⟨f, hfail, -⟩ | ⟨_, plain, hmerged, hplain, hrefines⟩
    · rw [ways] at hfail
      cases hfail
    · obtain rfl := ok.inj (ways.symm.trans hmerged)
      rw [← onward_of_chosen hfront] at hplain
      exact .onward (ih hfront) (mt hfront.atEnd.mp opens) hplain (hrefines.mem e' mem e he)

theorem exists_chosen (hpath : Walkable p g init false path) :
    ∃ whole, Walkable p g init true whole ∧ Chosen whole path := by
  induction hpath with
  | start => exact ⟨[], .start, .nil⟩
  | @onward path plain e before opens ways mem ih =>
    obtain ⟨whole, hwhole, hfront⟩ := ih
    rw [onward_of_chosen hfront] at ways
    rcases onward_refines (oneState_leaving hparser hg whole) p whole with ⟨f, -, hfail⟩ | ⟨merged, _, hmerged, hplain, hrefines⟩
    · rw [ways] at hfail
      cases hfail
    · obtain rfl := ok.inj (ways.symm.trans hplain)
      obtain ⟨e', he', hmem⟩ := hrefines.covers e mem
      refine ⟨whole ++ [e'], .onward hwhole (mt hfront.atEnd.mpr opens) hmerged he', ?_⟩
      exact chosen_concat.mpr ⟨path, e, rfl, hfront, hmem⟩

theorem chosen_unique (hwhole : Walkable p g init true whole) (hwhole' : Walkable p g init true whole')
    (h : Chosen whole path) (h' : Chosen whole' path) : whole = whole' := by
  induction hwhole generalizing whole' path with
  | start =>
    cases h
    cases h'
    rfl
  | @onward whole merged a before opens ways mem ih =>
    obtain ⟨front, e, rfl, hfront, he⟩ := chosen_concat.mp h
    have hne : whole' ≠ [] := by
      rintro rfl
      simpa using h'.length_eq
    obtain ⟨whole', b, rfl⟩ := eq_nil_or_concat' whole' |>.resolve_left hne
    obtain ⟨front', e', heq, hfront', he'⟩ := chosen_concat.mp h'
    obtain ⟨rfl, hlast⟩ := append_inj' heq rfl
    obtain rfl := singleton_inj.mp hlast
    obtain ⟨hbefore, -, merged', hways, hmem⟩ := hwhole'.concat
    obtain rfl := ih hbefore hfront hfront'
    obtain rfl := ok.inj (ways.symm.trans hways)
    rcases onward_refines (oneState_leaving hparser hg whole) p whole with ⟨f, hfail, -⟩ | ⟨_, plain, hmerged, -, hrefines⟩
    · rw [ways] at hfail
      cases hfail
    · obtain rfl := ok.inj (ways.symm.trans hmerged)
      rw [hrefines.unique a mem b hmem e he he']

theorem exists_choice (hwhole : Walkable p g init true whole) : ∃ path, Chosen whole path := by
  induction hwhole with
  | start => exact ⟨[], .nil⟩
  | @onward whole merged e' before opens ways mem ih =>
    obtain ⟨front, hfront⟩ := ih
    rcases onward_refines (oneState_leaving hparser hg whole) p whole with ⟨f, hfail, -⟩ | ⟨_, plain, hmerged, -, hrefines⟩
    · rw [ways] at hfail
      cases hfail
    · obtain rfl := ok.inj (ways.symm.trans hmerged)
      obtain ⟨e, he⟩ := exists_mem_of_ne_nil _ (hrefines.nonempty e' mem)
      exact ⟨front ++ [e], chosen_concat.mpr ⟨front, e, rfl, hfront, he⟩⟩

/-! ## The paths that are found -/

theorem parserPaths_collapsed
    (hbounded : Bounded p g parser.initState false) (hplain : p.parserPaths g false = .ok plain) :
    ∃ merged, p.parserPaths g true = .ok merged ∧
      (∀ path, path ∈ plain ↔ Walkable p g parser.initState false path ∧ path.AtEnd) ∧
      ∀ whole, whole ∈ merged ↔ Walkable p g parser.initState true whole ∧ whole.AtEnd := by
  have hlength (path : ParserPath) (h : Walkable p g parser.initState false path) := hbounded.length_le hparser hg h
  have hlength' (whole : ParserPath) (h : Walkable p g parser.initState true whole) :
      whole.length ≤ g.nodes.length * (p.capacity + 1) + 2 := by
    obtain ⟨path, hpath⟩ := exists_choice hparser hg h
    rw [hpath.length_eq]
    exact hlength path (Chosen.walkable hparser hg h hpath)
  obtain ⟨hfound, hopen⟩ := mem_parserPaths hparser hlength hplain
  cases hmerged : p.parserPaths g true with
  | ok merged => exact ⟨merged, rfl, hfound, (mem_parserPaths hparser hlength' hmerged).1⟩
  | error f =>
    have hinit : (g.outEdges? parser.initState).isSome = true := by
      cases hout : g.outEdges? parser.initState with
      | some leaving => rfl
      | none =>
        rw [parserPaths, hparser] at hplain
        simp [hout, bind, Except.bind] at hplain
    -- where the walk fails with transitions taken as one, it would fail without
    obtain ⟨whole, hwhole, hend, hfail⟩ := parserPaths_error hparser hinit hmerged
    obtain ⟨path, hpath⟩ := exists_choice hparser hg hwhole
    obtain ⟨next, hnext⟩ := hopen path (Chosen.walkable hparser hg hwhole hpath) (mt hpath.atEnd.mp hend)
    rw [onward_of_chosen hpath] at hnext
    rcases onward_refines (oneState_leaving hparser hg whole) p whole with ⟨f', -, hfail'⟩ | ⟨merged, _, hok, -⟩
    · rw [hnext] at hfail'
      cases hfail'
    · rw [hfail] at hok
      cases hok

end Program

end PacketSmith
