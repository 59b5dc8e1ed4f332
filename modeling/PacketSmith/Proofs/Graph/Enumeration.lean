import Mathlib.Algebra.BigOperators.Group.List.Lemmas
import Mathlib.Algebra.Group.Action.Defs
import Mathlib.Algebra.Order.BigOperators.Group.List
import Mathlib.Algebra.Order.Ring.Nat
import PacketSmith.Proofs.Graph.Dominators
import PacketSmith.Workload.Layers

/-!
# Listing and counting paths

A walk over an acyclic graph and the count of the paths from a node are both read off one recursion
(`Graph.allPaths`). The walk lists what can still come of the paths that wait in their order (`pathsBeyond`), and each
visit uses up part of a bound (`visitsBeyond`). What the count adds for a node are the nodes reached from there that
were not counted before (`Counting.Adds`).
-/

namespace PacketSmith

open List Walk Dict Edge

/-- A visitor that takes the edges as they are, and wants the paths that are complete. -/
structure Visitor.Lists {m : Type → Type} [Monad m] {V L : Type} (visitor : Visitor m V L (List (Edge V L))) : Prop where
  order : ∀ path es, visitor.order path es = pure es
  visit : ∀ path complete, visitor.visit path complete = pure (.proceed, if complete then some path else none)
  backtrack : visitor.backtrack = pure ()

namespace Graph

variable {V L : Type} [DecidableEq V] {g : Graph V L} {goal u v : V} {height : V → Nat} {path : List (Edge V L)}

def pathsWithin (g : Graph V L) (goal : V) : Nat → V → List (List (Edge V L))
  | 0, _ => []
  | n + 1, v =>
    if v = goal then [[]]
    else (g.outEdges v).reverse.flatMap fun e => (g.pathsWithin goal n e.dst).map (e :: ·)

def allPaths (g : Graph V L) (goal v : V) : List (List (Edge V L)) := g.pathsWithin goal (g.nodes.length + 1) v

/-! ## All paths -/

section

variable (h : g.Falling height)

include h

theorem Falling.pathsWithin_eq
    (hn : height u < n) (hk : height u < k) : g.pathsWithin goal n u = g.pathsWithin goal k u := by
  induction n generalizing u k with
  | zero => exact absurd hn (Nat.not_lt_zero _)
  | succ n ih =>
    cases k with
    | zero => exact absurd hk (Nat.not_lt_zero _)
    | succ k =>
      refine if_congr Iff.rfl rfl (flatMap_congr fun e he => ?_)
      have hfalls := h.falls (mem_reverse.mp he)
      rw [ih (by omega) (by omega : height e.dst < k)]

theorem Falling.allPaths_eq (u : V) :
    g.allPaths goal u = if u = goal then [[]]
      else (g.outEdges u).reverse.flatMap fun e => (g.allPaths goal e.dst).map (e :: ·) := by
  refine if_congr Iff.rfl rfl (flatMap_congr fun e he => ?_)
  have hfalls := h.falls (mem_reverse.mp he)
  have hle := h.le u
  rw [allPaths, h.pathsWithin_eq (by omega) (by omega : height e.dst < g.nodes.length + 1)]

theorem Falling.allPaths_goal : g.allPaths goal goal = [[]] := by
  rw [h.allPaths_eq, if_pos rfl]

theorem Falling.length_allPaths (hu : u ≠ goal) :
    (g.allPaths goal u).length = ((g.outEdges u).map fun e => (g.allPaths goal e.dst).length).sum := by
  rw [h.allPaths_eq, if_neg hu, length_flatMap, map_reverse]
  simp

theorem Falling.mem_allPaths (hgoal : g.outEdges goal = []) : path ∈ g.allPaths goal u ↔ g.Route u path ∧
    (path.getLast?.map dst).getD u = goal := by
  induction path generalizing u with
  | nil =>
    rw [h.allPaths_eq]
    split <;> simp [Route, *]
  | cons e path ih =>
    have hlast : ((e :: path).getLast?.map dst).getD u = (path.getLast?.map dst).getD e.dst := by
      cases path <;> simp [List.getLast?_cons]
    rw [h.allPaths_eq, hlast, Route, and_assoc, ← ih]
    split
    · next heq => simp [heq, hgoal]
    · simp only [mem_flatMap, mem_reverse, mem_map, List.cons.injEq]
      exact ⟨fun ⟨_, he, _, hmem, heq, hrest⟩ => heq ▸ hrest ▸ ⟨he, hmem⟩, fun ⟨he, hmem⟩ => ⟨e, he, path, hmem, rfl, rfl⟩⟩

end

theorem count_map_cons [DecidableEq L] (e e' : Edge V L) (paths : List (List (Edge V L))) :
    (paths.map (e' :: ·)).count (e :: path) = if e' = e then paths.count path else 0 := by
  split
  · next heq => rw [heq, count_map_of_injective _ _ (cons_injective (a := e))]
  · next hne =>
    refine count_eq_zero_of_not_mem fun hmem => ?_
    obtain ⟨_, -, heq⟩ := mem_map.mp hmem
    exact hne (List.cons.inj heq).1

theorem Falling.count_allPaths [DecidableEq L] (h : g.Falling height) (hg : g.Coherent)
    (hpath : path ∈ g.allPaths goal u) :
    (g.allPaths goal u).count path = (path.map fun e => (g.outEdges e.src).count e).prod := by
  induction path generalizing u with
  | nil =>
    rw [h.allPaths_eq] at hpath ⊢
    split
    · rfl
    · next hu => simp [hu] at hpath
  | cons e path ih =>
    rw [h.allPaths_eq] at hpath ⊢
    split
    · next hu => simp [hu] at hpath
    · next hu =>
      simp only [hu, if_false, mem_flatMap, mem_reverse, mem_map, List.cons.injEq] at hpath
      obtain ⟨e', leaves, path', hmem, heq, hrest⟩ := hpath
      rw [heq] at leaves hmem
      rw [hrest] at hmem
      have hsum (es : List (Edge V L)) (n : Nat) : (es.map fun e' => if e' = e then n else 0).sum = es.count e * n := by
        induction es with
        | nil => simp
        | cons e' es ih =>
          rw [map_cons, sum_cons, ih]
          by_cases heq : e' = e <;> simp [heq, Nat.add_mul, Nat.add_comm]
      rw [count_flatMap, map_congr_left (g := fun e' => if e' = e then (g.allPaths goal e.dst).count path else 0),
        hsum, count_reverse, ih hmem, map_cons, prod_cons, hg.src u e leaves]
      intro e' _
      rw [Function.comp_apply, count_map_cons]
      exact if_ctx_congr Iff.rfl (fun heq => heq ▸ rfl) fun _ => rfl

/-! ## The walk -/

abbrev Waiting (V L : Type) := List (Edge V L) × Edge V L

def stacked (todo : List (Waiting V L)) : List (List (Edge V L)) := todo.map fun q => q.1 ++ [q.2]

def pathsBeyond (g : Graph V L) (goal : V) (todo : List (Waiting V L)) : List (List (Edge V L)) :=
  todo.flatMap fun q => (g.allPaths goal q.2.dst).map (q.1 ++ q.2 :: ·)

/-- A bound on the visits that come of the paths that wait. -/
def visitsBeyond (g : Graph V L) (height : V → Nat) (todo : List (Waiting V L)) : Nat :=
  (todo.map fun q => (g.numEdges + 1) ^ height q.2.dst).sum

def ways (g : Graph V L) (path : List (Edge V L)) (u : V) : List (Waiting V L) :=
  ((g.outEdges u).map fun e => (path, e)).reverse

theorem stacked_ways (g : Graph V L) (path : List (Edge V L)) (u : V) (todo : List (Waiting V L)) :
    stacked (g.ways path u ++ todo) = ((g.outEdges u).map fun e => path ++ [e]).reverse ++ stacked todo := by
  simp [stacked, ways, Function.comp_def]

theorem Falling.pathsBeyond_ways (h : g.Falling height) (hu : u ≠ goal) (path : List (Edge V L)) :
    g.pathsBeyond goal (g.ways path u) = (g.allPaths goal u).map (path ++ ·) := by
  rw [h.allPaths_eq, if_neg hu, pathsBeyond, ways, ← map_reverse, flatMap_map, map_flatMap]
  simp [Function.comp_def]

theorem Falling.visitsBeyond_ways (h : g.Falling height) (path : List (Edge V L)) (u : V) :
    g.visitsBeyond height (g.ways path u) < (g.numEdges + 1) ^ height u := by
  have hsum : g.visitsBeyond height (g.ways path u) =
      ((g.outEdges u).map fun e => (g.numEdges + 1) ^ height e.dst).sum := by
    rw [visitsBeyond, ways, map_reverse, sum_reverse, map_map]
    rfl
  cases hheight : height u with
  | zero =>
    have hnone : g.outEdges u = [] := eq_nil_iff_forall_not_mem.mpr fun e he => by
      have hfalls := h.falls he
      omega
    simp [hsum, hnone]
  | succ n =>
    have hle := sum_le_card_nsmul ((g.outEdges u).map fun e => (g.numEdges + 1) ^ height e.dst)
      ((g.numEdges + 1) ^ n) fun k hk => by
        obtain ⟨e, he, rfl⟩ := mem_map.mp hk
        have hfalls := h.falls he
        exact Nat.pow_le_pow_right (Nat.succ_pos _) (by omega)
    rw [length_map, ← hsum] at hle
    calc g.visitsBeyond height (g.ways path u)
        ≤ g.numEdges * (g.numEdges + 1) ^ n := hle.trans (Nat.mul_le_mul_right _ (g.length_outEdges_le u))
      _ < (g.numEdges + 1) ^ (n + 1) := by
        have hpos : 0 < (g.numEdges + 1) ^ n := Nat.pow_pos (Nat.succ_pos _)
        rw [Nat.pow_succ, Nat.mul_succ, Nat.mul_comm]
        omega

section Walks

variable {m : Type → Type} [Monad m] [LawfulMonad m] {visitor : Visitor m V L (List (Edge V L))}

omit [DecidableEq V] in
theorem undo_lists (hvisitor : visitor.Lists) (n : Nat) : undo visitor n = pure () := by
  induction n with
  | zero => rfl
  | succ n ih => rw [undo, hvisitor.backtrack, pure_bind, ih]

theorem move_lists
    (hvisitor : visitor.Lists) (q : Waiting V L) (todo : List (Waiting V L)) (depth : Nat) :
    move g goal visitor ⟨stacked (q :: todo), depth, false⟩ = if q.2.dst = goal
      then pure (some (q.1 ++ [q.2]), ⟨stacked todo, (q.1 ++ [q.2]).length, false⟩) else pure (none,
      ⟨stacked (g.ways (q.1 ++ [q.2]) q.2.dst ++ todo), (q.1 ++ [q.2]).length, false⟩) := by
  have hpending : stacked (q :: todo) = (q.1 ++ [q.2]) :: stacked todo := rfl
  rw [hpending, stacked_ways]
  by_cases hgoal : q.2.dst = goal
  · simp [move, step, undo_lists hvisitor, hvisitor.visit, hgoal]
  · simp [move, step, undo_lists hvisitor, hvisitor.visit, hvisitor.order, hgoal]

section

variable (h : g.Falling height) (hvisitor : visitor.Lists)

include h hvisitor

theorem Falling.advance_lists (fuel depth : Nat) (hfuel : g.visitsBeyond height todo < fuel) :
    (g.pathsBeyond goal todo = [] ∧
      ∃ w, advance g goal visitor fuel ⟨stacked todo, depth, false⟩ = pure (none, w)) ∨
      ∃ path todo' depth', g.pathsBeyond goal todo = path :: g.pathsBeyond goal todo' ∧
      g.visitsBeyond height todo' < g.visitsBeyond height todo ∧
      advance g goal visitor fuel ⟨stacked todo,
      depth, false⟩ = pure (some path, ⟨stacked todo', depth', false⟩) := by
  induction fuel generalizing todo depth with
  | zero => exact absurd hfuel (Nat.not_lt_zero _)
  | succ fuel ih =>
    cases todo with
    | nil =>
      left
      refine ⟨rfl, ⟨[], 0, true⟩, ?_⟩
      simp [advance, move, finish, stacked, undo_lists hvisitor]
    | cons q todo =>
      have hsum : g.visitsBeyond height (q :: todo) =
          (g.numEdges + 1) ^ height q.2.dst + g.visitsBeyond height todo := by
        simp [visitsBeyond]
      have hpaths : g.pathsBeyond goal (q :: todo) =
          (g.allPaths goal q.2.dst).map (q.1 ++ q.2 :: ·) ++ g.pathsBeyond goal todo := by
        simp [pathsBeyond]
      rw [advance, move_lists hvisitor]
      by_cases hgoal : q.2.dst = goal
      · right
        have hpos : 0 < (g.numEdges + 1) ^ height q.2.dst := Nat.pow_pos (Nat.succ_pos _)
        refine ⟨q.1 ++ [q.2], todo, (q.1 ++ [q.2]).length, ?_, by omega, ?_⟩
        · rw [hpaths, hgoal, h.allPaths_goal]
          rfl
        · rw [if_pos hgoal, pure_bind]
      · have hless := h.visitsBeyond_ways (q.1 ++ [q.2]) q.2.dst
        have hnext : g.visitsBeyond height (g.ways (q.1 ++ [q.2]) q.2.dst ++ todo) =
            g.visitsBeyond height (g.ways (q.1 ++ [q.2]) q.2.dst) + g.visitsBeyond height todo := by
          simp [visitsBeyond]
        have hsame : g.pathsBeyond goal (g.ways (q.1 ++ [q.2]) q.2.dst ++ todo) = g.pathsBeyond goal (q :: todo) := by
          rw [hpaths, pathsBeyond, flatMap_append]
          refine congrArg (· ++ _) ((h.pathsBeyond_ways hgoal _).trans ?_)
          simp
        rw [if_neg hgoal, pure_bind, ← hsame]
        refine (ih (q.1 ++ [q.2]).length (by omega)).imp id ?_
        rintro ⟨path, todo', depth', hfirst, hbound, hadvance⟩
        exact ⟨path, todo', depth', hfirst, by omega, hadvance⟩

theorem Falling.collect_lists (n depth : Nat)
    (hfuel : g.visitsBeyond height todo < fuel) (hn : g.visitsBeyond height todo < n) :
    collect g goal visitor fuel n ⟨stacked todo, depth, false⟩ = pure (g.pathsBeyond goal todo) := by
  induction n generalizing todo depth with
  | zero => exact absurd hn (Nat.not_lt_zero _)
  | succ n ih =>
    rw [collect]
    rcases h.advance_lists hvisitor fuel depth hfuel with
      ⟨hnone, w, hadvance⟩ | ⟨path, todo', depth', hpaths, hless, hadvance⟩
    · rw [hadvance, pure_bind, hnone]
    · rw [hadvance, pure_bind, hpaths]
      simp only
      rw [ih depth' (by omega) (by omega), pure_bind]

theorem Falling.walk_lists (hv : v ≠ goal) (hbound : g.walkBound ≤ bound) :
    (start visitor (g.outEdges v) >>= collect g goal visitor bound bound) = pure (g.allPaths goal v) := by
  have hstart : start visitor (g.outEdges v) = pure ⟨stacked (g.ways [] v), 0, false⟩ := by
    simp [start, hvisitor.order, stacked, ways, Function.comp_def]
  have hless : g.visitsBeyond height (g.ways [] v) < bound := calc
    g.visitsBeyond height (g.ways [] v) < (g.numEdges + 1) ^ height v := h.visitsBeyond_ways [] v
    _ ≤ (g.numEdges + 1) ^ (g.nodes.length + 1) := Nat.pow_le_pow_right (Nat.succ_pos _) ((h.le v).trans (Nat.le_succ _))
    _ ≤ bound := hbound
  rw [hstart, pure_bind, h.collect_lists hvisitor bound 0 hless hless, h.pathsBeyond_ways hv]
  simp

end

end Walks

/-! ## The count -/

/-- The nodes that have been counted have the number of their paths, and lead to such nodes only. -/
structure Tallied (g : Graph V L) (goal : V) (found : Dict V Nat) : Prop where
  nodup : found.keys.Nodup
  counts : ∀ {u n}, found.get? u = some n → n = (g.allPaths goal u).length
  closed : ∀ {u e}, u ∈ found.keys → e ∈ g.outEdges u → e.dst = goal ∨ e.dst ∈ found.keys
  ends : goal ∉ found.keys

/-- What a count from some nodes adds to an earlier one. -/
structure Counting.Adds (g : Graph V L) (goal : V) (roots : List V) (c c' : Counting V) : Prop where
  tallied : g.Tallied goal c'.found
  covers : ∀ r ∈ roots, r = goal ∨ r ∈ c'.found.keys
  grows : ∃ new, c'.found.keys = c.found.keys ++ new ∧ c'.edges = c.edges + (new.flatMap g.outEdges).length ∧
    ∀ u ∈ new, ∃ r ∈ roots, Reaches (g.neighbours false) r u

variable {c c' c'' : Counting V} {isEnd : V → Bool} {depth : Nat}

theorem Counting.Adds.nothing (hc : g.Tallied goal c.found) (hroots : ∀ r ∈ roots, r = goal ∨ r ∈ c.found.keys) :
    Counting.Adds g goal roots c c :=
  ⟨hc, hroots, [], by simp, by simp, by simp⟩

theorem Counting.Adds.cons (h : Counting.Adds g goal [u] c c') (h' : Counting.Adds g goal roots c' c'') :
    Counting.Adds g goal (u :: roots) c c'' := by
  obtain ⟨new, hnew, hedges, hreached⟩ := h.grows
  obtain ⟨new', hnew', hedges', hreached'⟩ := h'.grows
  refine ⟨h'.tallied, forall_mem_cons.mpr ⟨?_, h'.covers⟩, new ++ new', ?_, ?_, fun w hw => ?_⟩
  · exact (h.covers u mem_cons_self).imp_right fun hu => hnew' ▸ mem_append_left _ hu
  · rw [hnew', hnew, append_assoc]
  · rw [hedges', hedges, flatMap_append, length_append, Nat.add_assoc]
  · rcases mem_append.mp hw with hw | hw
    · obtain ⟨r, hr, hreaches⟩ := hreached w hw
      exact ⟨u, mem_cons_self, mem_singleton.mp hr ▸ hreaches⟩
    · obtain ⟨r, hr, hreaches⟩ := hreached' w hw
      exact ⟨r, mem_cons_of_mem _ hr, hreaches⟩

/-- A count from a node comes to the number of its paths. -/
def Counts (g : Graph V L) (goal : V) (isEnd : V → Bool) (depth : Nat) (v : V) : Prop :=
  ∀ c, g.Tallied goal c.found →
    ∃ c', countFrom g isEnd depth v c = .ok ((g.allPaths goal v).length, c') ∧ Counting.Adds g goal [v] c c'

theorem countAlong_adds (hes : ∀ e ∈ es, g.Counts goal isEnd depth e.dst) (hc : g.Tallied goal c.found) (total : Nat) :
    ∃ c', countAlong g isEnd depth es c total = .ok (total + (es.map fun e => (g.allPaths goal e.dst).length).sum, c') ∧
      Counting.Adds g goal (es.map dst) c c' := by
  induction es generalizing c total with
  | nil => exact ⟨c, by simp [countAlong], .nothing hc (by simp)⟩
  | cons e es ih =>
    obtain ⟨hfirst, hrest⟩ := forall_mem_cons.mp hes
    obtain ⟨c', hcount, hadds⟩ := hfirst c hc
    obtain ⟨c'', hcounts, hadds'⟩ := ih hrest hadds.tallied (total + (g.allPaths goal e.dst).length)
    refine ⟨c'', ?_, hadds.cons hadds'⟩
    rw [countAlong, hcount, map_cons, sum_cons, ← Nat.add_assoc]
    exact hcounts

theorem Falling.countFrom_adds (h : g.Falling height) (hg : g.Coherent) (hend : ∀ u, isEnd u = true ↔ u = goal)
    (hdepth : height v < depth) (hv : v = goal ∨ v ∈ g.nodes) : g.Counts goal isEnd depth v := by
  induction depth generalizing v with
  | zero => exact absurd hdepth (Nat.not_lt_zero _)
  | succ depth ih =>
    intro c hc
    rw [countFrom]
    by_cases hgoal : v = goal
    · rw [if_pos ((hend v).mpr hgoal), hgoal, h.allPaths_goal]
      exact ⟨c, rfl, .nothing hc (by simp)⟩
    rw [if_neg (mt (hend v).mp hgoal)]
    cases hfound : c.found.get? v with
    | some n =>
      have hmem : v ∈ c.found.keys := Dict.mem_keys_iff.mpr (by rw [Dict.contains, hfound]; rfl)
      exact ⟨c, by rw [hc.counts hfound], .nothing hc (by simp [hmem])⟩
    | none =>
      have hbelow (e : Edge V L) (he : e ∈ g.outEdges v) : g.Counts goal isEnd depth e.dst :=
        ih ((h.falls he).trans_le (Nat.le_of_lt_succ hdepth)) (.inr (hg.dst_mem_nodes he))
      obtain ⟨c', hcount, hadds⟩ := countAlong_adds (c := { c with edges := c.edges + (g.outEdges v).length }) hbelow hc 0
      obtain ⟨new, hnew, hedges, hreached⟩ := hadds.grows
      rw [Nat.zero_add, ← h.length_allPaths hgoal] at hcount
      -- the node itself is not reached from where its edges lead
      have hfresh : v ∉ c'.found.keys := by
        rw [hnew, mem_append]
        rintro (hold | hlater)
        · rw [Dict.mem_keys_iff, Dict.contains, hfound] at hold
          cases hold
        · obtain ⟨_, hr, hreaches⟩ := hreached v hlater
          obtain ⟨e, he, rfl⟩ := mem_map.mp hr
          exact absurd (h.falls he) (Nat.not_lt.mpr (h.reaches_le hreaches))
      have hkeys (n : Nat) : (c'.found.insert v n).keys = c'.found.keys ++ [v] := by
        rw [keys_insert, if_neg hfresh]
      refine ⟨{ c' with found := c'.found.insert v (g.allPaths goal v).length }, ?_, ?_⟩
      · rw [edgesFrom_eq (hv.resolve_left hgoal)]
        simp only [bind, Except.bind, hcount, pure, Except.pure]
      · refine ⟨⟨nodup_keys_insert hadds.tallied.nodup _ _, ?_, ?_, ?_⟩, ?_, new ++ [v], ?_, ?_, ?_⟩
        · intro u n hget
          rw [get?_insert] at hget
          split at hget
          · next heq => exact heq ▸ (Option.some.inj hget).symm
          · exact hadds.tallied.counts hget
        · intro u e hu he
          rw [hkeys, mem_append, mem_singleton] at hu ⊢
          rw [← or_assoc]
          refine .inl (hu.elim (fun hu => hadds.tallied.closed hu he) fun hu => ?_)
          exact hadds.covers e.dst (mem_map_of_mem (hu ▸ he))
        · rw [hkeys, mem_append, mem_singleton]
          exact fun hmem => hmem.elim hadds.tallied.ends (Ne.symm hgoal)
        · simp [hkeys]
        · rw [hkeys, hnew, append_assoc]
        · simp only [hedges, flatMap_append, length_append, flatMap_singleton]
          omega
        · intro w hw
          refine ⟨v, mem_cons_self, ?_⟩
          rcases mem_append.mp hw with hw | hw
          · obtain ⟨_, hr, hreaches⟩ := hreached w hw
            exact hreaches.head hr
          · rw [mem_singleton.mp hw]
            exact .refl

theorem Falling.countPaths_eq (h : g.Falling height) (hg : g.Coherent) (hgoal : g.outEdges goal = [])
    (hend : ∀ u, isEnd u = true ↔ u = goal) (hv : v ∈ g.nodes) (hne : v ≠ goal) :
    ∃ reached : List V, reached.Nodup ∧
      (∀ u, u ∈ reached ↔ u ≠ goal ∧ Reaches (g.neighbours false) v u) ∧ g.countPaths isEnd v =
      .ok ((g.allPaths goal v).length, reached.length + 1, (reached.flatMap g.outEdges).length) := by
  have hnone : g.Tallied goal (Dict.empty : Dict V Nat) :=
    ⟨nodup_nil, fun hget => by simp at hget, fun hu => absurd hu not_mem_nil, not_mem_nil⟩
  have hle := h.le v
  obtain ⟨c, hcount, hadds⟩ :=
    h.countFrom_adds hg hend (by omega : height v < g.nodes.length + 2) (.inr hv) { found := {}, edges := 0 } hnone
  obtain ⟨new, hnew, hedges, hreached⟩ := hadds.grows
  have hnew : c.found.keys = new := hnew
  have hall (u : V) (hreaches : Reaches (g.neighbours false) v u) : u = goal ∨ u ∈ c.found.keys := by
    induction hreaches with
    | refl => exact hadds.covers v mem_cons_self
    | tail _ hstep ih =>
      obtain ⟨e, he, rfl⟩ := mem_map.mp hstep
      rcases ih with rfl | hmem
      · exact absurd he (hgoal ▸ not_mem_nil)
      · exact hadds.tallied.closed hmem he
  refine ⟨c.found.keys, hadds.tallied.nodup, fun u => ⟨fun hu => ⟨?_, ?_⟩, fun hu => (hall u hu.2).resolve_left hu.1⟩, ?_⟩
  · exact fun heq => hadds.tallied.ends (heq ▸ hu)
  · obtain ⟨r, hr, hreaches⟩ := hreached u (hnew ▸ hu)
    exact mem_singleton.mp hr ▸ hreaches
  · rw [countPaths, hcount]
    simp only [bind, Except.bind, pure, Except.pure, hedges, hnew, Nat.zero_add]
    rw [← hnew, Dict.keys, length_map, Dict.size]

/-- The walk over an acyclic graph lists the paths to a node that no edge leaves, and nothing else, as
often as they can be made of edges of the graph, and the count agrees with the list. -/
theorem walk_countPaths {m : Type → Type} [Monad m] [LawfulMonad m] [DecidableEq L]
    {visitor : Visitor m V L (List (Edge V L))} (hvisitor : visitor.Lists) (hbuilt : g.Built) (hacyclic : g.Acyclic)
    (hgoal : g.outEdges goal = []) (hend : ∀ u, isEnd u = true ↔ u = goal) (hv : v ∈ g.nodes) (hne : v ≠ goal)
    {bound : Nat} (hbound : g.walkBound ≤ bound) :
    ∃ (paths : List (List (Edge V L))) (reached : List V),
      (Walk.start visitor (g.outEdges v) >>= Walk.collect g goal visitor bound bound) = pure paths ∧
      (∀ path, path ∈ paths ↔ g.Route v path ∧ path.getLast?.map Edge.dst = some goal) ∧
      (∀ path ∈ paths, paths.count path = (path.map fun e => (g.outEdges e.src).count e).prod) ∧
      ((∀ u, (g.outEdges u).Nodup) → paths.Nodup) ∧
      reached.Nodup ∧ (∀ u, u ∈ reached ↔ u ≠ goal ∧ Reaches (g.neighbours false) v u) ∧
      g.countPaths isEnd v = .ok (paths.length, reached.length + 1, (reached.flatMap g.outEdges).length) := by
  obtain ⟨height, h⟩ := hacyclic.exists_falling
  obtain ⟨reached, hnodup, hreached, hcount⟩ := h.countPaths_eq hbuilt.coherent hgoal hend hv hne
  have hmem (path : List (Edge V L)) :
      path ∈ g.allPaths goal v ↔ g.Route v path ∧ path.getLast?.map Edge.dst = some goal := by
    rw [h.mem_allPaths hgoal]
    cases path.getLast? <;> simp [hne]
  have hcopies (path : List (Edge V L)) (hpath : path ∈ g.allPaths goal v) :=
    h.count_allPaths hbuilt.coherent hpath
  refine ⟨g.allPaths goal v, reached, h.walk_lists hvisitor hne hbound, hmem, hcopies, fun hdistinct => ?_, hnodup,
    hreached, hcount⟩
  rw [nodup_iff_count_eq_one]
  intro path hpath
  rw [hcopies path hpath]
  refine prod_eq_one fun n hn => ?_
  obtain ⟨e, he, rfl⟩ := mem_map.mp hn
  obtain ⟨u, leaves⟩ := ((hmem path).mp hpath).1.exists_outEdges e he
  exact count_eq_one_of_mem (hdistinct _) (hbuilt.coherent.src u e leaves ▸ leaves)

theorem walk_countPaths_hourglass :
    LayeredGraph.visitor.Lists ∧ hourglass.Built ∧ hourglass.Acyclic ∧
    ∃ (paths : List (List (Edge Label Unit))) (reached : List Label),
      (Walk.start LayeredGraph.visitor (hourglass.outEdges (.text "a")) >>=
        Walk.collect hourglass .null LayeredGraph.visitor hourglass.walkBound hourglass.walkBound) = pure paths ∧
      (∀ path ∈ paths, paths.count path = (path.map fun e => (hourglass.outEdges e.src).count e).prod) ∧
      hourglass.countPaths (· == .null) (.text "a") =
        .ok (paths.length, reached.length + 1, (reached.flatMap hourglass.outEdges).length) := by
  have hvisitor : LayeredGraph.visitor.Lists := ⟨fun _ _ => rfl, fun _ _ => rfl, rfl⟩
  have hbuilt : hourglass.Built := .addEdge (.addEdge (.addEdge (.addEdge (.addEdge (.addEdge .empty _) _) _) _) _) _
  have hend : ∀ u : Label, (u == Label.null) = true ↔ u = Label.null := fun u => beq_iff_eq
  have hnode : Label.text "a" ∈ hourglass.nodes := by decide
  obtain ⟨paths, reached, hwalk, -, hcopies, -, -, -, hcount⟩ :=
    walk_countPaths hvisitor hbuilt hourglass_acyclic rfl hend hnode (by decide) (Nat.le_refl hourglass.walkBound)
  exact ⟨hvisitor, hbuilt, hourglass_acyclic, paths, reached, hwalk, hcopies, hcount⟩

end Graph

end PacketSmith
