import PacketSmith.Proofs.IdealSolver

/-!
# Edge coverage

Edge coverage passes over a path that leads to an edge which is finished, if every edge of the path was taken before.
This leaves out no edge that a packet can take, as long as edges with one key lead to one node. If an edge is finished
then so are all edges after it (`Closed`), and a path which a packet takes has its edges covered, or a beginning of it
waits to be visited (`Covering`).
-/

namespace PacketSmith

open List (mem_cons mem_cons_of_mem mem_cons_self mem_map mem_append)

/-! ## Paths of a graph -/

/-- A list of edges, each of which leaves the node that the one before enters. -/
def Graph.IsPath {V L : Type} [DecidableEq V] (g : Graph V L) : V → List (Edge V L) → Prop
  | _, [] => True
  | v, e :: rest => e ∈ g.outEdges v ∧ g.IsPath e.dst rest

instance Graph.decidableIsPath {V L : Type} [DecidableEq V] [DecidableEq L] (g : Graph V L) :
    (v : V) → (path : List (Edge V L)) → Decidable (g.IsPath v path)
  | _, [] => .isTrue trivial
  | v, e :: rest =>
    have := decidableIsPath g e.dst rest
    inferInstanceAs (Decidable (e ∈ g.outEdges v ∧ g.IsPath e.dst rest))

theorem Graph.isPath_append [DecidableEq V] (g : Graph V L) (v : V) (e : Edge V L) (path rest : List (Edge V L)) :
    g.IsPath v (path ++ e :: rest) ↔ g.IsPath v (path ++ [e]) ∧ g.IsPath e.dst rest := by
  induction path generalizing v with
  | nil => simp [IsPath]
  | cons a path ih => simp only [List.cons_append, IsPath, ih, and_assoc]

theorem Graph.IsPath.mem_outEdges [DecidableEq V] {g : Graph V L}
    (h : g.IsPath v path) (he : e ∈ path) : ∃ u, e ∈ g.outEdges u := by
  induction path generalizing v with
  | nil => cases he
  | cons a path ih =>
    rcases mem_cons.mp he with rfl | he
    · exact ⟨v, h.1⟩
    · exact ih h.2 he

theorem Graph.mem_edges [DecidableEq V] {g : Graph V L} (h : e ∈ g.outEdges v) : e ∈ g.edges := by
  rw [outEdges, Dict.getD] at h
  cases hout : g.out.get? v with
  | none => simp [hout] at h
  | some es =>
    rw [hout] at h
    refine List.mem_flatten.mpr ⟨es, ?_, h⟩
    exact mem_map.mpr ⟨_, Dict.mem_entries_of_get? hout, rfl⟩

@[simp] theorem Explore.isComplete_concat (front : ControlPath) (l : ControlEdge) :
    isComplete (front ++ [l]) = decide (l.dst = .null) := by
  simp [isComplete]

namespace Engine

/-- A path from the start of the pipeline to its end. -/
structure Complete (engine : Engine) (path : ControlPath) : Prop where
  isPath : engine.graph.IsPath engine.start path
  ends : Explore.isComplete path = true
  inner : ∀ e ∈ path.dropLast, e.dst ≠ .null

variable {engine : Engine}

theorem Complete.eq_of_begins (h : engine.Complete path) (hwhole : engine.Complete whole)
    (hbegins : path <+: whole) : whole = path := by
  obtain ⟨tail, rfl⟩ := hbegins
  rcases List.eq_nil_or_concat' path with rfl | ⟨front, l, rfl⟩
  · exact absurd h.ends (by simp [Explore.isComplete])
  · cases tail with
    | nil => exact List.append_nil _
    | cons a tail =>
      have hnull : l.dst = .null := by simpa using h.ends
      exact absurd hnull (hwhole.inner l (by simp))

/-- Edges with one key lead to one node. -/
def KeysLead (engine : Engine) : Prop :=
  ∀ u v, ∀ a ∈ engine.graph.outEdges u, ∀ b ∈ engine.graph.outEdges v,
    a.controlKey = b.controlKey → a.dst = b.dst

/-- No other edge has the key of an edge. -/
def OwnKey (engine : Engine) (e : ControlEdge) : Prop :=
  ∀ v, ∀ a ∈ engine.graph.outEdges v, a.controlKey = e.controlKey → a = e

theorem keysLead_of_edges (h : ∀ a ∈ engine.graph.edges, ∀ b ∈ engine.graph.edges,
    a.controlKey = b.controlKey → a.dst = b.dst) : engine.KeysLead :=
  fun _ _ a ha b hb => h a (Graph.mem_edges ha) b (Graph.mem_edges hb)

theorem ownKey_of_edges (h : ∀ a ∈ engine.graph.edges, a.controlKey = e.controlKey → a = e) : engine.OwnKey e :=
  fun _ a ha => h a (Graph.mem_edges ha)

end Engine

namespace Explore

/-! ## Marks -/

/-- An edge with the key was taken by a path with a packet. -/
def Seen (x : Exploration) (k : EdgeKey) : Prop := 0 < x.visits.getD k 0

theorem mem_leastVisited : e ∈ leastVisited x edges ↔ e ∈ edges :=
  (leastVisited_perm x edges).mem_iff

theorem seen_countVisits : Seen (countVisits path x) k ↔ Seen x k ∨ ∃ e ∈ path, e.controlKey = k := by
  have hcount (d : Dict EdgeKey Nat) : 0 < (path.foldl (fun d e => d.alter e.controlKey 0 (· + 1)) d).getD k 0 ↔
        0 < d.getD k 0 ∨ ∃ e ∈ path, e.controlKey = k := by
    induction path generalizing d with
    | nil => simp
    | cons a path ih =>
      have hone : 0 < (d.alter a.controlKey 0 (· + 1)).getD k 0 ↔ 0 < d.getD k 0 ∨ a.controlKey = k := by
        rw [Dict.alter, Dict.getD, Dict.get?_insert]
        split
        · simp [*]
        · simp [*, Dict.getD]
      rw [List.foldl_cons, ih, hone, or_assoc, List.exists_mem_cons_iff]
  exact hcount x.visits

theorem nothingNew_eq_true (h : nothingNew x path = true) :
    ∃ front l, path = front ++ [l] ∧ l.controlKey ∈ x.finished ∧ ∀ e ∈ path, Seen x e.controlKey := by
  rw [nothingNew, Bool.and_eq_true] at h
  obtain ⟨hlast, hall⟩ := h
  rcases List.eq_nil_or_concat' path with rfl | ⟨front, l, rfl⟩
  · simp at hlast
  · exact ⟨front, l, rfl, by simpa using hlast, fun e he => by simpa [Seen] using List.all_eq_true.mp hall e he⟩

def Closed (engine : Engine) (done : List EdgeKey) : Prop :=
  ∀ v, ∀ e ∈ engine.graph.outEdges v, e.controlKey ∈ done → e.dst ≠ .null →
    ∀ e' ∈ engine.graph.outEdges e.dst, e'.controlKey ∈ done

section Finish

variable {engine : Engine}

theorem Closed.cons (hkeys : engine.KeysLead) (h : Closed engine done) (ha : a ∈ engine.graph.outEdges u)
    (hdone : a.dst = .null ∨ ∀ e ∈ engine.graph.outEdges a.dst, e.controlKey ∈ done) :
    Closed engine (a.controlKey :: done) := by
  intro v e he hmem hend e' he'
  refine mem_cons_of_mem _ ?_
  rcases mem_cons.mp hmem with hkey | hmem
  · -- another edge with this key leads to the same node
    have hdst : e.dst = a.dst := hkeys v u e he a ha hkey
    rcases hdone with hnull | hdone
    · exact absurd (hdst.trans hnull) hend
    · exact hdone e' (hdst ▸ he')
  · exact h v e he hmem hend e' he'

/-- Marks go back along a path as far as all edges after an edge are finished. -/
theorem Closed.foldl (hkeys : engine.KeysLead) (h : Closed engine done) {edges : List ControlEdge}
    (hedges : ∀ e ∈ edges, ∃ u, e ∈ engine.graph.outEdges u) :
    Closed engine (edges.foldl (finishEdge engine.graph) done) := by
  induction edges generalizing done with
  | nil => exact h
  | cons a edges ih =>
    obtain ⟨u, ha⟩ := hedges a mem_cons_self
    refine ih ?_ fun e he => hedges e (mem_cons_of_mem _ he)
    unfold finishEdge
    split
    · rename_i hall
      exact h.cons hkeys ha (.inr (by simpa using hall))
    · exact h

theorem Closed.finish (hkeys : engine.KeysLead) (hpath : engine.graph.IsPath engine.start path)
    (hends : isComplete path = true) (h : Closed engine x.finished) :
    Closed engine (finish engine.graph path x).finished := by
  unfold Explore.finish
  refine Closed.foldl hkeys ?_ fun e he => ?_
  · cases hlast : path.getLast? with
    | none => exact h
    | some l =>
      obtain ⟨u, hl⟩ := hpath.mem_outEdges (List.mem_of_getLast? hlast)
      have hnull : l.dst = .null := by simpa [isComplete, hlast] using hends
      exact h.cons hkeys hl (.inl hnull)
  · exact hpath.mem_outEdges (List.dropLast_subset _ (List.mem_reverse.mp he))

theorem mem_finish (h : k ∈ (finish engine.graph path x).finished) : k ∈ x.finished ∨ ∃ e ∈ path, e.controlKey = k := by
  have hfold (edges : List ControlEdge) (done : List EdgeKey)
      (hk : k ∈ edges.foldl (finishEdge engine.graph) done) : k ∈ done ∨ ∃ e ∈ edges, e.controlKey = k := by
    induction edges generalizing done with
    | nil => exact .inl hk
    | cons a edges ih =>
      rcases ih _ hk with hk | ⟨e, he, hk⟩
      · unfold finishEdge at hk
        split at hk
        · rcases mem_cons.mp hk with rfl | hk
          · exact .inr ⟨a, mem_cons_self, rfl⟩
          · exact .inl hk
        · exact .inl hk
      · exact .inr ⟨e, mem_cons_of_mem _ he, hk⟩
  rcases hfold _ _ h with hk | ⟨e, he, hk⟩
  · rcases mem_append.mp hk with hk | hk
    · obtain ⟨l, hl, rfl⟩ := mem_map.mp hk
      exact .inr ⟨l, List.mem_of_getLast? (Option.mem_toList.mp hl), rfl⟩
    · exact .inl hk
  · exact .inr ⟨e, List.dropLast_subset _ (List.mem_reverse.mp he), hk⟩

theorem Closed.rest (h : Closed engine done) {rest : ControlPath}
    (hl : l ∈ engine.graph.outEdges u) (hdone : l.controlKey ∈ done) (hrest : engine.graph.IsPath l.dst rest)
    (hinner : ∀ e ∈ (l :: rest).dropLast, e.dst ≠ .null) : ∀ e ∈ rest, e.controlKey ∈ done := by
  induction rest generalizing l u with
  | nil => simp
  | cons a rest ih =>
    have ha : a.controlKey ∈ done := h u l hl hdone (hinner l mem_cons_self) a hrest.1
    intro e he
    rcases mem_cons.mp he with rfl | he
    · exact ha
    · exact ih hrest.1 ha hrest.2 (fun e he => hinner e (mem_cons_of_mem _ he)) e he

end Finish

end Explore

/-! ## What is covered -/

open Explore

/-- The marks are right, and every path that a packet takes is covered or waits. -/
structure Covering (engine : Engine) (parser : ParserPath) (x : Exploration) (found : List Finding)
    (pending : List ControlPath) : Prop where
  seen : ∀ k, Seen x k → ∃ path, engine.Complete path ∧ .control ⟨parser, path, .success⟩ ∈ found ∧
    ∃ e ∈ path, e.controlKey = k
  done : ∀ k ∈ x.finished, Seen x k
  closed : Closed engine x.finished
  paths : ∀ path ∈ pending, engine.graph.IsPath engine.start path ∧ ∀ e ∈ path.dropLast, e.dst ≠ .null
  waits : ∀ path, engine.Complete path → Feasible engine.setting parser path →
    (∀ e ∈ path, Seen x e.controlKey) ∨ ∃ front ∈ pending, front <+: path

namespace Covering

variable {engine : Engine} {parser : ParserPath}
  {rest pending : List ControlPath}

theorem later (h : Covering engine parser x found pending) (hvisits : x'.visits = x.visits)
    (hfinished : x'.finished = x.finished) (new : List Finding) : Covering engine parser x' (new ++ found) pending := by
  have hseen (k : EdgeKey) : Seen x' k ↔ Seen x k := by rw [Seen, hvisits, Seen]
  refine ⟨fun k hk => ?_, fun k hk => ?_, hfinished ▸ h.closed, h.paths, fun path hpath hfeasible => ?_⟩
  · obtain ⟨path, hpath, hfound, hedge⟩ := h.seen k ((hseen k).mp hk)
    exact ⟨path, hpath, List.mem_append_right _ hfound, hedge⟩
  · exact (hseen k).mpr (h.done k (hfinished ▸ hk))
  · simp only [hseen]
    exact h.waits path hpath hfeasible

theorem withSolver (h : Covering engine parser x found pending) (s : PathSolver) (new : List Finding) :
    Covering engine parser { x with solver := s } (new ++ found) pending := by
  refine h.later ?_ ?_ new <;> rfl

theorem start (hvisits : x.visits = {}) (hfinished : x.finished = []) (hcoverage : engine.options.edgeCoverage = true)
    (found : List Finding) : Covering engine parser x found ((firstEdges engine x).map fun e => [e]).reverse := by
  have hseen (k : EdgeKey) : ¬ Seen x k := by
    rw [Seen, hvisits]
    exact Nat.lt_irrefl 0
  have hpending (path : ControlPath) : path ∈ ((firstEdges engine x).map fun e => [e]).reverse ↔
        ∃ e ∈ engine.graph.outEdges engine.start, [e] = path := by
    simp [firstEdges, hcoverage, mem_leastVisited]
  refine ⟨fun k hk => absurd hk (hseen k), ?_, ?_, fun path hpath => ?_, fun path hpath _ => .inr ?_⟩
  · simp [hfinished]
  · intro v e he hmem
    simp [hfinished] at hmem
  · obtain ⟨e, he, rfl⟩ := (hpending path).mp hpath
    exact ⟨⟨he, trivial⟩, by simp⟩
  · cases path with
    | nil => exact absurd hpath.ends (by simp [isComplete])
    | cons e path => exact ⟨[e], (hpending [e]).mpr ⟨e, hpath.isPath.1, rfl⟩, ⟨path, rfl⟩⟩

theorem nothing (hvisits : x.visits = {}) (hfinished : x.finished = [])
    (hnone : ∀ path, ¬ Feasible engine.setting parser path) (found : List Finding) :
    Covering engine parser x found [] := by
  refine ⟨fun k hk => ?_, by simp [hfinished], fun v e he hmem => ?_, by simp, fun path _ hpath => ?_⟩
  · rw [Seen, hvisits] at hk
    exact absurd hk (Nat.lt_irrefl 0)
  · simp [hfinished] at hmem
  · exact absurd hpath (hnone path)

theorem leave (h : Covering engine parser x found (path :: rest))
    (hpath : ∀ whole, engine.Complete whole → Feasible engine.setting parser whole → path <+: whole →
      ∀ e ∈ whole, Seen x e.controlKey) : Covering engine parser x found rest := by
  refine ⟨h.seen, h.done, h.closed, fun q hq => h.paths q (mem_cons_of_mem _ hq), ?_⟩
  intro whole hwhole hfeasible
  rcases h.waits whole hwhole hfeasible with hseen | ⟨front, hfront, hbegins⟩
  · exact .inl hseen
  · rcases mem_cons.mp hfront with rfl | hfront
    · exact .inl (hpath whole hwhole hfeasible hbegins)
    · exact .inr ⟨front, hfront, hbegins⟩

theorem passed (h : Covering engine parser x found (path :: rest)) (hnothing : nothingNew x path = true) :
    Covering engine parser x found rest := by
  refine h.leave fun whole hwhole _ hbegins => ?_
  obtain ⟨tail, rfl⟩ := hbegins
  obtain ⟨front, l, rfl, hdone, hseen⟩ := nothingNew_eq_true hnothing
  obtain ⟨hisPath, -, hinner⟩ := hwhole
  rw [List.append_assoc, List.singleton_append] at hisPath hinner
  rw [Graph.isPath_append] at hisPath
  rw [List.dropLast_append_of_ne_nil (List.cons_ne_nil _ _)] at hinner
  obtain ⟨u, hl⟩ := hisPath.1.mem_outEdges (List.mem_append_right front mem_cons_self)
  have htail := h.closed.rest hl hdone hisPath.2 fun e he => hinner e (List.mem_append_right _ he)
  intro e he
  rcases mem_append.mp he with he | he
  · exact hseen e he
  · exact h.done _ (htail e he)

theorem dropped (henv : engine.setting.Uniform) (h : Covering engine parser x found (path :: rest))
    (hpath : ¬ Feasible engine.setting parser path) : Covering engine parser x found rest := by
  refine h.leave fun whole _ hfeasible hbegins => ?_
  obtain ⟨tail, rfl⟩ := hbegins
  exact absurd (hfeasible.of_append henv) hpath

theorem covered (h : Covering engine parser x found (path :: rest)) (hkeys : engine.KeysLead)
    (hends : isComplete path = true) : Covering engine parser (finish engine.graph path (countVisits path x))
    (.control ⟨parser, path, .success⟩ :: found) rest := by
  have hseen (k : EdgeKey) : Seen (finish engine.graph path (countVisits path x)) k ↔
      Seen x k ∨ ∃ e ∈ path, e.controlKey = k := seen_countVisits
  obtain ⟨hisPath, hinner⟩ := h.paths path mem_cons_self
  have hcomplete : engine.Complete path := ⟨hisPath, hends, hinner⟩
  refine ⟨fun k hk => ?_, fun k hk => (hseen k).mpr ?_, h.closed.finish hkeys hisPath hends,
    fun q hq => h.paths q (mem_cons_of_mem _ hq), fun whole hwhole hfeasible => ?_⟩
  · rcases (hseen k).mp hk with hk | hk
    · obtain ⟨q, hq, hfound, hedge⟩ := h.seen k hk
      exact ⟨q, hq, mem_cons_of_mem _ hfound, hedge⟩
    · exact ⟨path, hcomplete, mem_cons_self, hk⟩
  · rcases mem_finish hk with hk | hk
    · exact .inl (h.done k hk)
    · exact .inr hk
  · simp only [hseen]
    rcases h.waits whole hwhole hfeasible with hold | ⟨front, hfront, hbegins⟩
    · exact .inl fun e he => .inl (hold e he)
    · rcases mem_cons.mp hfront with rfl | hfront
      · rw [hcomplete.eq_of_begins hwhole hbegins]
        exact .inl fun e he => .inr ⟨e, he, rfl⟩
      · exact .inr ⟨front, hfront, hbegins⟩

theorem extended (h : Covering engine parser x found (path :: rest))
    (hcoverage : engine.options.edgeCoverage = true)
    (hne : path ≠ []) (hends : isComplete path = false) :
    Covering engine parser x found
      (((nextEdges engine x path).map fun e => path ++ [e]).reverse ++ rest) := by
  obtain ⟨front, l, rfl⟩ := List.eq_nil_or_concat' path |>.resolve_left hne
  have hend : l.dst ≠ .null := by simpa using hends
  obtain ⟨hisPath, hinner⟩ := h.paths _ mem_cons_self
  rw [List.dropLast_concat] at hinner
  have hnext (e : ControlEdge) : e ∈ nextEdges engine x (front ++ [l]) ↔ e ∈ engine.graph.outEdges l.dst := by
    simp [nextEdges, hcoverage, mem_leastVisited]
  refine ⟨h.seen, h.done, h.closed, fun q hq => ?_, fun whole hwhole hfeasible => ?_⟩
  · rcases mem_append.mp hq with hq | hq
    · obtain ⟨e, he, rfl⟩ := mem_map.mp (List.mem_reverse.mp hq)
      rw [List.dropLast_concat, List.append_assoc, List.singleton_append, Graph.isPath_append]
      refine ⟨⟨hisPath, (hnext e).mp he, trivial⟩, fun a ha => ?_⟩
      rcases mem_append.mp ha with ha | ha
      · exact hinner a ha
      · rwa [List.mem_singleton.mp ha]
    · exact h.paths q (mem_cons_of_mem _ hq)
  · rcases h.waits whole hwhole hfeasible with hseen | ⟨q, hq, hbegins⟩
    · exact .inl hseen
    · refine .inr ?_
      rcases mem_cons.mp hq with rfl | hq
      · obtain ⟨tail, rfl⟩ := hbegins
        cases tail with
        | nil =>
          exact absurd hwhole.ends (by simp [hend])
        | cons e tail =>
          have he : e ∈ engine.graph.outEdges l.dst := by
            have hcut := hwhole.isPath
            rw [List.append_assoc, List.singleton_append, Graph.isPath_append] at hcut
            exact hcut.2.1
          refine ⟨front ++ [l] ++ [e], List.mem_append_left _ ?_, tail, by simp⟩
          exact List.mem_reverse.mpr (mem_map.mpr ⟨e, (hnext e).mpr he, rfl⟩)
      · exact ⟨q, List.mem_append_right _ hq, hbegins⟩

end Covering

section Streams

variable {engine : Engine} {x x' : Exploration} {found new : List Finding}

def Covered (engine : Engine) (x : Exploration) (found : List Finding) : StreamStage → Prop
  | .waiting => x.visits = {} ∧ x.finished = [] ∧ (x.solver.renew engine.options).formulas = []
  | .walking w => Covering engine x.parserPath x found w.pending
  | .yielded w _ _ => Covering engine x.parserPath x found w.pending
  | .ended => Covering engine x.parserPath x found []

variable (henv : engine.setting.Uniform) (hsolver : engine.solver.Decides)
  (hcoverage : engine.options.edgeCoverage = true)

include henv hsolver hcoverage

theorem Begins.covered (h : Begins engine x p stage x' p')
    (hidle : x.solver.Idle engine.options) (hx : Covered engine x found .waiting) (found' : List Finding) :
    Covered engine x' found' stage := by
  obtain ⟨hvisits, hfinished, hclean⟩ := hx
  by_cases hfeasible : ∃ path, Feasible engine.setting x.parserPath path
  · obtain ⟨path, hpath⟩ := hfeasible
    obtain ⟨s, rfl, rfl, -⟩ := h.started_of_feasible henv hsolver hidle hclean hpath
    exact (Covering.start hvisits hfinished hcoverage found').withSolver s []
  · have hnone := not_exists.mp hfeasible
    cases h with
    | impossible | refuted => exact (Covering.nothing hvisits hfinished hnone found').withSolver _ []
    | started => exact (Covering.start hvisits hfinished hcoverage found').withSolver _ []

variable (hkeys : engine.KeysLead) (hmost : engine.options.maxPathsPerParserPath = none)

include hkeys hmost

theorem Explore.Visits.covering (hne : path ≠ [])
    (h : Visits engine path (isComplete path) { x with solver := s } p v model x' p')
    (hs : PathSolver.Solid engine.setting x.parserPath path.dropLast s)
    (hx : Covering engine x.parserPath x found (path :: rest)) (hnew : p'.findings = new ++ p.findings) :
    Covering engine x.parserPath x' (new ++ found) (walked engine path rest v x').pending := by
  cases h with
  | passed coverage nothing =>
    exact (hx.passed nothing).withSolver _ new
  | @examined outcome v model y p' _ visited answered =>
    obtain ⟨front, e, rfl⟩ := List.eq_nil_or_concat' path |>.resolve_left hne
    rw [List.dropLast_concat] at hs
    have hsuccess := visited.success henv hsolver hs
    obtain rfl : new = [.control ⟨x.parserPath, front ++ [e], outcome⟩] := by
      have := hnew.symm.trans visited.found
      rwa [← List.singleton_append, List.append_left_inj] at this
    have hvisits : y.visits = x.visits := by rw [visited.rest]
    have hfinished : y.finished = x.finished := by rw [visited.rest]
    have hy := hx.later hvisits hfinished [.control ⟨x.parserPath, front ++ [e], outcome⟩]
    rw [if_pos hcoverage]
    by_cases hcover : outcome = .success ∧ isComplete (front ++ [e]) = true
    · obtain ⟨rfl, hends⟩ := hcover
      have hcovered := (hx.later hvisits hfinished []).covered hkeys hends
      simpa [cover, walked, hends] using hcovered
    · have hsame : cover engine.graph (front ++ [e]) (isComplete (front ++ [e])) outcome y = y := by
        rw [cover, if_neg]
        simpa using hcover
      rw [hsame]
      by_cases hgoes : v = .proceed ∧ isComplete (front ++ [e]) = false
      · rw [walked, if_pos hgoes]
        exact hy.extended hcoverage (by simp) hgoes.2
      · rw [walked, if_neg hgoes]
        refine hy.dropped henv fun hfeasible => ?_
        have houtcome := hsuccess hfeasible
        have hends : isComplete (front ++ [e]) = true := by
          simpa [answered.unlimited hmost houtcome] using hgoes
        exact hcover ⟨houtcome, hends⟩

theorem Explore.Moves.covering (h : Moves engine w x p model w' x' p') (hended : w.ended = false)
    (hready : Ready engine.setting x.parserPath w x.solver) (hx : Covering engine x.parserPath x found w.pending)
    (hnew : p'.findings = new ++ p.findings) : Covering engine x.parserPath x' (new ++ found) w'.pending := by
  cases h with
  | stayed pending ended => simp [hended] at ended
  | finished pending ended =>
    rw [pending] at hx
    exact hx.withSolver _ new
  | visited pending visits =>
    have hsolid := hready.next pending
    obtain ⟨last, hstacked, -⟩ := hready
    have hne := hstacked.top_ne pending
    rw [pending] at hx
    exact visits.covering henv hsolver hcoverage hkeys hmost hne hsolid hx hnew

/-- A step leaves every path that a packet takes covered or waiting. -/
theorem Steps.covered {solution : Option Solution} (h : Steps engine x p stage solution stage' x' p')
    (hsettled : Settled engine x stage) (hx : Covered engine x found stage) (hnew : p'.findings = new ++ p.findings) :
    Covered engine x' (new ++ found) stage' := by
  cases h with
  | begins begins => exact begins.covered henv hsolver hcoverage hsettled hx _
  | @moves w w' model _ _ moves nothing =>
    have hparser := (moves.ready hsettled.2 hsettled.1).1
    have hcovering := moves.covering henv hsolver hcoverage hkeys hmost hsettled.1 hsettled.2 hx hnew
    rw [← hparser] at hcovering
    cases hended : w'.ended with
    | true =>
      have hpending := moves.pending_of_ended hended
      rw [hpending] at hcovering
      exact hcovering
    | false => exact hcovering
  | solves moves gives solution =>
    obtain ⟨hy, hq, -⟩ := solution_ok solution
    have hparser := (moves.ready hsettled.2 hsettled.1).1
    rw [hq.findings] at hnew
    have hcovering := moves.covering henv hsolver hcoverage hkeys hmost hsettled.1 hsettled.2 hx hnew
    rw [hy]
    rw [← hparser] at hcovering
    exact hcovering.withSolver _ []
  | leaves limit => exact hx.withSolver _ new
  | continues limit another =>
    obtain ⟨hy, -, -⟩ := another_ok another
    rw [hy]
    cases solution with
    | none | some _ => exact hx.withSolver _ new
  | rests => exact hx.withSolver _ new

theorem Reaches.covered {parser : ParserPath} (hs : s.Idle engine.options)
    (hclean : (s.renew engine.options).formulas = []) (h : Reaches engine parser s stage x found) :
    Covered engine x found stage := by
  induction h with
  | start => exact ⟨rfl, rfl, hclean⟩
  | step before run finds ih =>
    exact (step_ok run).covered henv hsolver hcoverage hkeys hmost (before.settled hs).2 ih finds
  | @counts stage _ _ _ before begun later ih =>
    cases stage with
    | waiting => exact absurd rfl begun
    | walking w | yielded w m n | ended => exact ih.withSolver _ []

end Streams

/-- Edge coverage is complete. Once a stream has ended, every edge on a path to the end that a packet
takes was taken by some path to the end that was visited with success, provided that edges with one
key lead to one node and no other edge has the key of this one. -/
theorem edge_covered {engine : Engine} {parser : ParserPath} {s : PathSolver} {x : Exploration}
    {found : List Finding} {path : ControlPath} {e : ControlEdge}
    (hcoverage : engine.options.edgeCoverage = true)
    (hmost : engine.options.maxPathsPerParserPath = none)
    (henv : engine.setting.Uniform) (hsolver : engine.solver.Decides)
    (hkeys : engine.KeysLead) (hown : engine.OwnKey e)
    (hs : HandedOn engine s) (hclean : engine.options.incremental = true ∨ s = {})
    (hended : Reaches engine parser s .ended x found)
    (hpath : engine.Complete path) (hfeasible : Feasible engine.setting parser path) (he : e ∈ path) :
    ∃ path', engine.Complete path' ∧ .control ⟨parser, path', .success⟩ ∈ found ∧ e ∈ path' := by
  obtain ⟨rfl, -⟩ := hended.settled (hs.idle)
  have hcovering : Covering engine x.parserPath x found [] :=
    hended.covered henv hsolver hcoverage hkeys hmost (hs.idle) (hs.formulas_renew hclean)
  have hseen : Seen x e.controlKey := by
    rcases hcovering.waits path hpath hfeasible with hseen | ⟨front, hfront, -⟩
    · exact hseen e he
    · cases hfront
  obtain ⟨path', hpath', hfound, e', he', hkey⟩ := hcovering.seen _ hseen
  obtain ⟨v, hv⟩ := hpath'.isPath.mem_outEdges he'
  obtain rfl : e' = e := hown v e' hv hkey
  exact ⟨path', hpath', hfound, he'⟩

/-! ## Four tables

A pipeline with four tables, whose actions do nothing. The action `a` of `t1`, of `t2`
and of `t3` is one and the same, unless its name tells the table. -/

namespace FourTables

variable (apart : Bool)

/-- An action of a table that leads to a node. Its name tells the table if names are kept
`apart`. -/
def edge (table action : String) (dst : Label) : ControlEdge :=
  Small.edge table (if apart then table ++ "." ++ action else action) dst

def edges : List (Label × List ControlEdge) :=
  [(.text "t1", [edge apart "t1" "a" (.text "t2"), edge apart "t1" "c" (.text "t3")]),
   (.text "t2", [edge apart "t2" "a" .null]),
   (.text "t3", [edge apart "t3" "x" .null, edge apart "t3" "a" (.text "t4")]),
   (.text "t4", [edge apart "t4" "d" .null, edge apart "t4" "e" .null])]

def action? (e : ControlEdge) : Option Action :=
  match e.label with
  | .action name id _ => some ⟨name, id, [], []⟩
  | _ => none

def setting : Setting where
  options := { edgeCoverage := true }
  program := Small.program [] ((edges apart).flatMap fun node => node.2.filterMap action?)
  pipeline := Small.pipeline ["t1", "t2", "t3", "t4"] []

noncomputable def engine : Engine := Small.engine (setting apart) "t1" (edges apart)

def last : ControlEdge := edge apart "t4" "e" .null

def path : ControlPath :=
  [edge apart "t1" "c" (.text "t3"), edge apart "t3" "a" (.text "t4"), last apart]

theorem uniform : (setting apart).Uniform := Small.uniform rfl

theorem feasible : Feasible (setting apart) Small.parserPath (path apart) := by
  refine feasible_of_eval Small.ones ?_
  cases apart <;> decide +kernel

theorem complete : (engine apart).Complete (path apart) := by
  refine ⟨?_, ?_, ?_⟩ <;> cases apart <;> decide +kernel

def reachesLast : Finding → Bool
  | .control r => r.control.contains (last apart)
  | .parser _ _ => false

end FourTables

open FourTables in
/-- The last edge is covered if names are kept apart. -/
theorem edge_covered_last :
    ∃ x found path', (engine true).options.edgeCoverage = true ∧
      (engine true).options.maxPathsPerParserPath = none ∧ (engine true).setting.Uniform ∧
      (engine true).solver.Decides ∧ (engine true).KeysLead ∧ (engine true).OwnKey (last true) ∧
      HandedOn (engine true) {} ∧ (engine true).options.incremental = true ∧
      Reaches (engine true) Small.parserPath {} .ended x found ∧ (engine true).Complete (path true) ∧
      Feasible (engine true).setting Small.parserPath (path true) ∧ last true ∈ path true ∧
      (engine true).Complete path' ∧ .control ⟨Small.parserPath, path', .success⟩ ∈ found ∧
      last true ∈ path' := by
  have hrun : ((engine true).findings? Small.parserPath {} 16).isSome = true := by decide +kernel
  obtain ⟨found, hfound⟩ := Option.isSome_iff_exists.mp hrun
  obtain ⟨x, hreaches⟩ := reaches_of_findings hfound
  have hkeys : (engine true).KeysLead := Engine.keysLead_of_edges (by decide +kernel)
  have hown : (engine true).OwnKey (last true) := Engine.ownKey_of_edges (by decide +kernel)
  have hlast : last true ∈ path true := by simp [path]
  obtain ⟨path', hpath', hmem, he⟩ := edge_covered rfl rfl (uniform true) (Solver.ideal_decides _) hkeys
    hown .new (.inl rfl) hreaches (complete true) (feasible true) hlast
  exact ⟨x, found, path', rfl, rfl, uniform true, Solver.ideal_decides _, hkeys, hown, .new, rfl, hreaches,
    complete true, feasible true, hlast, hpath', hmem, he⟩

open FourTables in
/-- The last edge is left out if three tables share an action: the edge before it is taken for one
that was finished in another table. -/
theorem edge_left_out_of_shared_key :
    ∃ x found, (engine false).options.edgeCoverage = true ∧
      (engine false).options.maxPathsPerParserPath = none ∧ (engine false).setting.Uniform ∧
      (engine false).solver.Decides ∧ HandedOn (engine false) {} ∧
      Reaches (engine false) Small.parserPath {} .ended x found ∧ (engine false).Complete (path false) ∧
      Feasible (engine false).setting Small.parserPath (path false) ∧ last false ∈ path false ∧
      ¬ ∃ path', (engine false).Complete path' ∧ .control ⟨Small.parserPath, path', .success⟩ ∈ found ∧
        last false ∈ path' := by
  have hrun : (((engine false).findings? Small.parserPath {} 16).map fun found =>
      found.any (reachesLast false)) = some false := by decide +kernel
  obtain ⟨found, hfound, hnone⟩ := Option.map_eq_some_iff.mp hrun
  obtain ⟨x, hreaches⟩ := reaches_of_findings hfound
  refine ⟨x, found, rfl, rfl, uniform false, Solver.ideal_decides _, .new, hreaches, complete false,
    feasible false, by simp [path], ?_⟩
  rintro ⟨path', -, hmem, he⟩
  have hany : found.any (reachesLast false) = true :=
    List.any_eq_true.mpr ⟨_, hmem, List.contains_iff_mem.mpr he⟩
  rw [hnone] at hany
  cases hany

end PacketSmith
