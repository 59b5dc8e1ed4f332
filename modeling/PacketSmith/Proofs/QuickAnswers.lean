import Mathlib.Data.List.Count
import Mathlib.Data.List.Nodup
import PacketSmith.Proofs.BranchPairs
import PacketSmith.Proofs.IncrementalReplay
import PacketSmith.Proofs.InferredOutcomes
import PacketSmith.Proofs.TakenEdges

/-!
# Answers without the solver

A path that only leads on is taken to be possible without asking the solver, if its last edge is an action of a table,
or a branch of a condition whose other branch was refuted. These answers are right at every visit of every stream, if
the path is unhindered (`quick_answer_sound`). `Consistent` is what every step of a stream keeps: if the first outcome
at a level is that no packet was found, a branch that leaves it is impossible and does not wait, and the constraints
before the last edge of a path that waits can be satisfied.
-/

namespace PacketSmith

open List PacketSmith.Small Engine
open Explore

/-! ## The outcomes of a level -/

namespace PathSolver

/-- The outcomes of the edges that leave a level. The parser path is level zero. -/
def mark (s : PathSolver) (k : Nat) : List Outcome :=
  (((s.base :: s.levels.reverse)[k]?).map Level.outcomes).getD []

variable {s s' : PathSolver}

theorem mark_followed (frames : List (List Formula)) (added : List Formula) (t : SymbolicState)
    (h : k ≤ s.levels.length + 1) :
    (s.followed frames added t).mark k = if k = s.levels.length + 1 then [] else s.mark k := by
  have hlevels : (s.followed frames added t).levels.reverse =
      s.levels.reverse ++ [{ context := t.context, constraints := added }] := by simp [followed]
  rw [mark, hlevels, ← cons_append]
  split
  · subst k
    simp
  · rw [getElem?_append_left (by simp; omega)]
    rfl

theorem mark_push (h : k ≤ s.levels.length) : s.push.mark k = s.mark k := by
  rw [mark, push, reverse_cons, ← cons_append, getElem?_append_left (by simp; omega)]
  rfl

theorem mark_pop (h : k < s.levels.length) : (s.pop o).mark k = s.mark k := by
  obtain ⟨frames, answer, base, levels, pathId, tally, fresh, packet⟩ := s
  cases levels with
  | nil => simp at h
  | cons l levels =>
    simp only [length_cons] at h
    simp only [mark, pop, tail_cons, reverse_cons]
    rw [← cons_append, getElem?_append_left (by simp; omega)]

theorem length_pops (n : Nat) : ((pop o)^[n] s).levels.length = s.levels.length - n := by
  induction n generalizing s with
  | zero => rfl
  | succ n ih =>
    rw [Function.iterate_succ_apply, ih]
    simp [pop]
    omega

theorem mark_pops (n : Nat) (h : k + n ≤ s.levels.length) : ((pop o)^[n] s).mark k = s.mark k := by
  induction n generalizing s with
  | zero => rfl
  | succ n ih =>
    rw [Function.iterate_succ_apply, ih (by simp [pop]; omega), mark_pop (by omega)]

theorem mark_of_levels (h : s.levels = l :: l' :: rest) :
    s.mark k = ((((s.base :: rest.reverse) ++ [l', l])[k]?).map Level.outcomes).getD [] := by
  simp [mark, h]

theorem mark_record (outcome : Outcome) (h : s.levels.length = n + 1) :
    (s.record outcome).mark k = if k = n then s.mark k ++ [outcome] else s.mark k := by
  rcases hlevels : s.levels with _ | ⟨l, _ | ⟨l', rest⟩⟩
  · simp [hlevels] at h
  · obtain rfl : n = 0 := by simpa [hlevels] using h.symm
    cases k <;> simp [mark, record, hlevels]
  · obtain rfl : n = rest.length + 1 := by simpa [hlevels] using h.symm
    have hrecord : (s.record outcome).levels =
        l :: { l' with outcomes := l'.outcomes ++ [outcome] } :: rest := by simp [record, hlevels]
    have hbase : (s.record outcome).base = s.base := by simp [record, hlevels]
    rw [mark_of_levels hrecord, mark_of_levels hlevels, hbase]
    rcases lt_trichotomy k (rest.length + 1) with hk | rfl | hk
    · rw [getElem?_append_left (by simpa using hk), getElem?_append_left (by simpa using hk), if_neg (by omega)]
    · simp
    · obtain ⟨d, rfl⟩ := Nat.exists_eq_add_of_lt hk
      have hd : rest.length + 1 + d + 1 - (s.base :: rest.reverse).length = d + 1 := by simp; omega
      rw [getElem?_append_right (by omega), getElem?_append_right (by omega),
        if_neg (by omega), hd]
      rfl

theorem length_record (outcome : Outcome) : (s.record outcome).levels.length = s.levels.length := by
  rcases hlevels : s.levels with _ | ⟨l, _ | ⟨l', rest⟩⟩ <;> simp [record, hlevels]

theorem parent_outcomes (h : s.levels.length = n + 1) : s.parent.outcomes = s.mark n := by
  rcases hlevels : s.levels with _ | ⟨l, _ | ⟨l', rest⟩⟩
  · simp [hlevels] at h
  · obtain rfl : n = 0 := by simpa [hlevels] using h.symm
    simp [mark, parent, hlevels]
  · obtain rfl : n = rest.length + 1 := by simpa [hlevels] using h.symm
    simp [mark, parent, hlevels]

theorem infers_cases {complete : Bool} (h : s.infers env (front ++ [e]) complete = .ok true) :
    (∃ name id byDefault, e.label = .action name id byDefault) ∨ ∃ value source, e.label = .branch value source ∧
    s.parent.outcomes.head? = some .noPacketFound := by
  unfold infers at h
  rw [getLast?_concat] at h
  dsimp only at h
  split at h
  · cases h
  · split at h
    · rename_i hlabel
      exact .inl ⟨_, _, _, hlabel⟩
    · rename_i hlabel
      split at h
      · cases h
      · split at h
        · rename_i houtcomes
          exact .inr ⟨_, _, hlabel, by rw [houtcomes]; rfl⟩
        · cases h
    · cases h

end PathSolver

/-! ## Visits -/

section

variable {path : ControlPath} {engine : Engine} {complete : Bool} {outcome : Outcome}
  {parser : ParserPath} {s s' : PathSolver}

theorem Explore.nextEdges_perm (engine : Engine) (x : Exploration) (hne : path ≠ []) :
    (nextEdges engine x path).Perm (engine.leaving path) := by
  obtain ⟨front, e, rfl⟩ := eq_nil_or_concat' path |>.resolve_left hne
  have hleaving : (((front ++ [e]).getLast?.map fun e => engine.graph.outEdges e.dst).getD []) =
      engine.leaving (front ++ [e]) := by simp [leaving]
  unfold nextEdges
  rw [hleaving]
  split
  · exact leastVisited_perm x _
  · exact .refl _

theorem Explore.reach_ok (h : (reach engine w path).exec x p = .ok ((u, x'), p')) :
    ∃ s, (((PathSolver.pop engine.options)^[w.depth + 1 - path.length] x.solver).push.refresh
      engine.options).extend engine.setting path = .ok s ∧ x' = { x with solver := s } := by
  rw [exec_reach] at h
  cases hextend : PathSolver.extend engine.setting path
      (((PathSolver.pop engine.options)^[w.depth + 1 - path.length] x.solver).push.refresh
        engine.options) with
  | error f =>
    rw [hextend] at h
    cases h
  | ok s =>
    rw [hextend] at h
    cases h
    exact ⟨s, rfl, rfl⟩

/-! ## What waits -/

/-- What the outcomes of the levels say about the paths that wait, and what is known of these. -/
structure Consistent (engine : Engine) (parser : ParserPath) (w : Walk Label ControlStep) (s : PathSolver) : Prop where
  levels : s.levels.length = w.depth
  leaves : ∀ front e, front ++ [e] ∈ w.pending → e ∈ engine.leaving front
  once : ∀ front e, front ++ [e] ∈ w.pending → e.label.isBranch = true →
    w.pending.count (front ++ [e]) ≤ 1
  refuted : ∀ front e, front ++ [e] ∈ w.pending → e.label.isBranch = true →
    (s.mark front.length).head? = some .noPacketFound →
    ∃ e' ∈ engine.leaving front, ¬ Possible engine.setting parser (front ++ [e']) ∧
      front ++ [e'] ∉ w.pending
  possible : ∀ front e, front ++ [e] ∈ w.pending → Unhindered engine.setting parser (front ++ [e]) →
    Possible engine.setting parser front

section Visit

open PathSolver (Solid)

variable {s₀ s₁ : PathSolver}
  {front : ControlPath}

theorem PathSolver.Solid.extend_run (h : Solid env parser front s)
    (hextend : (s.push.refresh env.options).extend env (front ++ [e]) = .ok s₁) :
    ∃ frames added t,
      (lastConstraints env (front ++ [e])).result (s.standing.state s.fresh) = (.ok added, t) ∧
      s₁ = s.followed frames added t := by
  obtain ⟨added, t, hrun, hs⟩ := extend_refresh_ok h.length_levels hextend
  exact ⟨_, added, t, hrun, hs⟩

/-- A path solver that goes back to where the next path branches off, with the outcomes that it keeps. -/
structure Backed (parser : ParserPath) (env : Setting) (front : ControlPath) (s s₀ : PathSolver) : Prop where
  solid : Solid env parser front s₀
  marks : ∀ k ≤ front.length, s₀.mark k = s.mark k

theorem Consistent.counted (h : Consistent engine parser w s) (n : Nat) :
    Consistent engine parser w { s with fresh := n } :=
  ⟨h.levels, h.leaves, h.once, h.refuted, h.possible⟩

theorem Consistent.backed (hready : Ready engine.setting parser w s)
    (h : Consistent engine parser w s) (hp : w.pending = (front ++ [e]) :: rest) :
    Backed parser engine.setting front s
      ((PathSolver.pop engine.options)^[w.depth + 1 - (front ++ [e]).length] s) := by
  have hsolid := hready.next hp
  rw [dropLast_concat] at hsolid
  refine ⟨hsolid, fun k hk => ?_⟩
  obtain ⟨last, hstacked, -⟩ := hready
  have hbranch := (hstacked.branches _ (hp ▸ mem_cons_self)).2
  rw [dropLast_concat] at hbranch
  have hle := hbranch.length_le
  have hdepth := hstacked.depth
  refine PathSolver.mark_pops _ ?_
  rw [h.levels]
  simp only [length_append, length_singleton]
  omega

theorem Backed.mark_followed (h : Backed parser engine.setting front s s₀) (frames : List (List Formula))
    (added : List Formula) (t : SymbolicState) (hk : k ≤ front.length) :
    (s₀.followed frames added t).mark k = s.mark k := by
  have hlength := h.solid.length_levels
  rw [PathSolver.mark_followed frames added t (by omega), if_neg (by omega), h.marks k hk]

theorem Consistent.possible_of_quick (henv : engine.setting.Uniform) (hpaired : engine.Paired)
    (hcompares : engine.setting.Compares) (h : Consistent engine parser w s)
    (hwaits : front ++ [e] ∈ w.pending) (hback : Backed parser engine.setting front s s₀)
    (hextend : (s₀.push.refresh engine.options).extend engine.setting (front ++ [e]) = .ok s₁)
    {complete : Bool}
    (hquick : s₁.quick engine.setting (front ++ [e]) complete = .ok (some r))
    (hunhindered : Unhindered engine.setting parser (front ++ [e])) :
    Possible engine.setting parser (front ++ [e]) := by
  have hfront := h.possible front e hwaits hunhindered
  obtain ⟨frames, added, t, hrun, rfl⟩ := hback.solid.extend_run hextend
  rcases PathSolver.infers_cases (PathSolver.quick_ok hquick).1 with ⟨name, id, byDefault, hlabel⟩ | ⟨value, source, hlabel, hmark⟩
  · obtain ⟨v, dst, label⟩ := e
    obtain rfl : label = .action name id byDefault := hlabel
    exact hfront.action henv hunhindered hback.solid.trail hrun
  · have hbranch : e.label.isBranch = true := by rw [hlabel]; rfl
    have hlength : (s₀.followed frames added t).levels.length = front.length + 1 := by
      simp [PathSolver.followed, hback.solid.length_levels]
    rw [PathSolver.parent_outcomes hlength, hback.mark_followed _ _ _ le_rfl] at hmark
    obtain ⟨e', he', himpossible, hgone⟩ := h.refuted front e hwaits hbranch hmark
    -- the branch that was refuted is the other one, since this one waits
    have hne : e' ≠ e := by
      rintro rfl
      exact hgone hwaits
    obtain ⟨v, dst, dst', value', value'', source', rfl, rfl, hvalue⟩ :=
      (hpaired.other (h.leaves front e hwaits) he' hbranch).2 hne
    exact hfront.branch henv hcompares hunhindered hback.solid.trail hrun hvalue himpossible

end Visit

/-! ## Steps -/

theorem Explore.Judged.marks (h : Judged engine parser path complete s outcome model s')
    (hlength : s.levels.length = n + 1) :
    s'.levels.length = n + 1 ∧ ∀ k, s'.mark k = if k = n then s.mark k ++ [outcome] else s.mark k := by
  cases h with
  | quick known =>
    obtain ⟨-, rfl, rfl⟩ := PathSolver.quick_ok known
    exact ⟨(PathSolver.length_record _).trans hlength, fun k => PathSolver.mark_record _ hlength⟩
  | solved =>
    exact ⟨(PathSolver.length_record (s := s.check engine.solver) _).trans hlength,
      fun k => PathSolver.mark_record (s := s.check engine.solver) _ hlength⟩

theorem Explore.Judged.of_success (h : Judged engine parser path complete s outcome model s')
    (houtcome : outcome = .success) :
    (∃ r, s.quick engine.setting path complete = .ok (some r)) ∨ (s.solve engine.solver).1 = .success := by
  cases h with
  | quick known => exact .inl ⟨_, known⟩
  | solved => exact .inr houtcome

def stackOn (path : ControlPath) (edges : List ControlEdge) (rest : List ControlPath) : List ControlPath :=
  (edges.map fun e => path ++ [e]).reverse ++ rest

section Stack

variable {edges : List ControlEdge}

theorem concat_mem_stackOn : front ++ [e] ∈ stackOn path edges rest ↔
    (front = path ∧ e ∈ edges) ∨ front ++ [e] ∈ rest := by
  rw [stackOn, mem_append, mem_reverse, mem_map]
  refine or_congr_left ⟨?_, ?_⟩
  · rintro ⟨e', he', heq⟩
    obtain ⟨rfl, hedge⟩ := append_inj' heq rfl
    exact ⟨rfl, singleton_inj.mp hedge ▸ he'⟩
  · rintro ⟨rfl, he⟩
    exact ⟨e, he, rfl⟩

theorem not_mem_extensions (hq : q.length ≤ path.length) : q ∉ (edges.map fun e => path ++ [e]).reverse := by
  rw [mem_reverse, mem_map]
  rintro ⟨e, -, rfl⟩
  simp only [length_append, length_singleton] at hq
  omega

theorem mem_stackOn_of_le (hq : q.length ≤ path.length) : q ∈ stackOn path edges rest ↔ q ∈ rest := by
  rw [stackOn, mem_append, or_iff_right (not_mem_extensions hq)]

theorem count_stackOn_of_le (hq : q.length ≤ path.length) : (stackOn path edges rest).count q = rest.count q := by
  rw [stackOn, count_append, count_eq_zero.mpr (not_mem_extensions hq), Nat.zero_add]

theorem count_stackOn_concat (hrest : ∀ q ∈ rest, q.length ≤ path.length) :
    (stackOn path edges rest).count (path ++ [e]) = edges.count e := by
  have hzero : rest.count (path ++ [e]) = 0 := by
    refine count_eq_zero.mpr fun hmem => ?_
    have hle := hrest _ hmem
    simp only [length_append, length_singleton] at hle
    omega
  have hinjective : Function.Injective fun e : ControlEdge => path ++ [e] := fun a b hab => by simpa using hab
  rw [stackOn, count_append, hzero, count_reverse]
  exact count_map_of_injective edges _ hinjective e

theorem Explore.walked_pending_eq (engine : Engine) (hne : path ≠ []) (rest : List ControlPath) (v : Verdict)
    (x : Exploration) : ∃ edges, (walked engine path rest v x).pending = stackOn path edges rest ∧
    (edges = [] ∨ v = .proceed ∧ edges.Perm (engine.leaving path)) := by
  unfold walked
  split
  · rename_i hproceeds
    exact ⟨_, rfl, .inr ⟨hproceeds.1, nextEdges_perm engine x hne⟩⟩
  · exact ⟨[], rfl, .inl rfl⟩

theorem Engine.Paired.count_le_one {engine : Engine} (h : engine.Paired) (hedges : edges.Perm (engine.leaving path))
    (he : e ∈ engine.leaving path) (hbranch : e.label.isBranch = true) : edges.count e ≤ 1 :=
  nodup_iff_count_le_one.mp (hedges.nodup_iff.mpr (h.nodup he hbranch)) e

end Stack

namespace Consistent

section

variable (hpaired : engine.Paired) (h : Consistent engine parser w s) (hstacked : w.Stacked last)
  (hp : w.pending = (front ++ [e]) :: rest)

include hpaired h hstacked hp

theorem refuted_visited
    (hrefuted : outcome = .noPacketFound → ¬ Possible engine.setting parser (front ++ [e]))
    (hq : front' ++ [e'] ∈ rest) (hbranch : e'.label.isBranch = true)
    (hhead : (if front'.length = front.length then s.mark front'.length ++ [outcome]
      else s.mark front'.length).head? = some .noPacketFound) :
    ∃ e' ∈ engine.leaving front', ¬ Possible engine.setting parser (front' ++ [e']) ∧
      front' ++ [e'] ∉ rest := by
  have hwaits : front ++ [e] ∈ w.pending := hp ▸ mem_cons_self
  have hq' : front' ++ [e'] ∈ w.pending := hp ▸ mem_cons_of_mem _ hq
  have hbefore (hhead : (s.mark front'.length).head? = some .noPacketFound) :
      ∃ e' ∈ engine.leaving front', ¬ Possible engine.setting parser (front' ++ [e']) ∧
        front' ++ [e'] ∉ rest := by
    obtain ⟨e'', he'', himpossible, hgone⟩ := h.refuted front' e' hq' hbranch hhead
    exact ⟨e'', he'', himpossible, fun hmem => hgone (hp ▸ mem_cons_of_mem _ hmem)⟩
  split at hhead
  · rename_i hsame
    cases hmark : s.mark front'.length with
    | cons o os => exact hbefore (by simpa [hmark] using hhead)
    | nil =>
      -- the edge that was looked at is the first one of its level
      obtain rfl : outcome = .noPacketFound := by simpa [hmark] using hhead
      obtain rfl : front' = front := by
        have hcut := (hstacked.rest_branches hp _ hq).2
        rw [dropLast_concat] at hcut
        exact (prefix_of_prefix_length_le hcut (prefix_append front [e]) hsame.le).eq_of_length hsame
      have hleaves := h.leaves front' e hwaits
      refine ⟨e, hleaves, hrefuted rfl, fun hagain => ?_⟩
      have honce := h.once front' e hwaits (hpaired.other (h.leaves front' e' hq') hleaves hbranch).1
      rw [hp, count_cons_self] at honce
      have hcount := count_pos_iff.mpr hagain
      omega
  · exact hbefore hhead

theorem visited (hlength : s'.levels.length = front.length + 1) (hnew : s'.mark (front.length + 1) = [])
    (hmarks : ∀ k ≤ front.length, s'.mark k = if k = front.length then s.mark k ++ [outcome] else s.mark k)
    (hrefuted : outcome = .noPacketFound → ¬ Possible engine.setting parser (front ++ [e]))
    (hpossible : v = .proceed → Unhindered engine.setting parser (front ++ [e]) →
      Possible engine.setting parser (front ++ [e])) :
    Consistent engine parser (walked engine (front ++ [e]) rest v x) s' := by
  have hbelow {q : ControlPath} (hq : q ∈ rest) : q ∈ w.pending := hp ▸ mem_cons_of_mem _ hq
  have hshort : ∀ q ∈ rest, q.length ≤ (front ++ [e]).length :=
    (pairwise_cons.mp (hp ▸ hstacked.descends)).1
  obtain ⟨edges, hpending, hedges⟩ := walked_pending_eq engine (concat_ne_nil e front) rest v x
  have hleaving : ∀ e' ∈ edges, e' ∈ engine.leaving (front ++ [e]) := by
    rcases hedges with rfl | ⟨-, hperm⟩
    · simp
    · exact fun e' he' => hperm.mem_iff.mp he'
  refine ⟨by simp [walked, hlength], ?_, ?_, ?_, ?_⟩ <;> rw [hpending] <;> intro front' e' hq
  · rcases concat_mem_stackOn.mp hq with ⟨rfl, he'⟩ | hq
    · exact hleaving e' he'
    · exact h.leaves front' e' (hbelow hq)
  · intro hbranch
    rcases concat_mem_stackOn.mp hq with ⟨rfl, he'⟩ | hq
    · rw [count_stackOn_concat hshort]
      rcases hedges with rfl | ⟨-, hperm⟩
      · simp
      · exact hpaired.count_le_one hperm (hleaving e' he') hbranch
    · rw [count_stackOn_of_le (hshort _ hq)]
      have honce := h.once front' e' (hbelow hq) hbranch
      rw [hp, count_cons] at honce
      omega
  · intro hbranch hhead
    rcases concat_mem_stackOn.mp hq with ⟨rfl, -⟩ | hq
    · rw [length_append, length_singleton, hnew] at hhead
      cases hhead
    · have hle := hshort _ hq
      rw [hmarks _ (by simpa using hle)] at hhead
      obtain ⟨e'', he'', himpossible, hgone⟩ :=
        h.refuted_visited hpaired hstacked hp hrefuted hq hbranch hhead
      refine ⟨e'', he'', himpossible, fun hwaits => hgone ?_⟩
      rwa [mem_stackOn_of_le (by simpa using hle)] at hwaits
  · intro hunhindered
    rcases concat_mem_stackOn.mp hq with ⟨rfl, he'⟩ | hq
    · rcases hedges with rfl | ⟨hv, -⟩
      · simp at he'
      · exact hpossible hv (hunhindered.of_prefix (prefix_append _ _))
    · exact h.possible front' e' (hbelow hq) hunhindered

end

theorem passed (h : Consistent engine parser w s) (hstacked : w.Stacked last)
    (hp : w.pending = (front ++ [e]) :: rest) (hlength : s'.levels.length = front.length + 1)
    (hmarks : ∀ k ≤ front.length, s'.mark k = s.mark k) :
    Consistent engine parser (walked engine (front ++ [e]) rest .retreat x) s' := by
  have hpending : (walked engine (front ++ [e]) rest .retreat x).pending = rest := by simp [walked]
  have hbelow {q : ControlPath} (hq : q ∈ rest) : q ∈ w.pending := hp ▸ mem_cons_of_mem _ hq
  refine ⟨by simp [walked, hlength], ?_, ?_, ?_, ?_⟩ <;> rw [hpending] <;> intro front' e' hq
  · exact h.leaves front' e' (hbelow hq)
  · intro hbranch
    have honce := h.once front' e' (hbelow hq) hbranch
    rw [hp, count_cons] at honce
    omega
  · intro hbranch hhead
    have hle := (pairwise_cons.mp (hp ▸ hstacked.descends)).1 _ hq
    rw [hmarks _ (by simpa using hle)] at hhead
    obtain ⟨e'', he'', himpossible, hgone⟩ := h.refuted front' e' (hbelow hq) hbranch hhead
    exact ⟨e'', he'', himpossible, fun hmem => hgone (hbelow hmem)⟩
  · exact h.possible front' e' (hbelow hq)

end Consistent

section Streams

open PathSolver (Solid)

variable {x x' : Exploration}
  {rest : List ControlPath}

section

variable (henv : engine.setting.Uniform) (hsolver : engine.solver.Decides) (hpaired : engine.Paired)
  (hcompares : engine.setting.Compares)

include henv hsolver hpaired hcompares

theorem Explore.Visited.consistent {outcome : Outcome} (h : Visited engine
      (front ++ [e]) (isComplete (front ++ [e])) { x with solver := s₀.push } p outcome model x' p')
    (hw : Consistent engine x.parserPath w x.solver)
    (hstacked : w.Stacked last) (hp : w.pending = (front ++ [e]) :: rest)
    (hback : Backed x.parserPath engine.setting front x.solver s₀)
    (hv : v = .proceed → outcome = .success) :
    Consistent engine x.parserPath (walked engine (front ++ [e]) rest v z) x'.solver ∧
      x'.solver.mark front.length ≠ [] := by
  have hwaits : front ++ [e] ∈ w.pending := hp ▸ mem_cons_self
  have hlevels := hback.solid.length_levels
  obtain ⟨o, hcomes, hrecorded⟩ := h.recorded hsolver hback.solid
  obtain ⟨s₁, hextend, hjudged⟩ := h.judged
  obtain ⟨hsolid, hformulas⟩ := hback.solid.extend hextend
  obtain ⟨frames, added, t, hrun, rfl⟩ := hback.solid.extend_run hextend
  obtain ⟨hlength, hmarks⟩ := hjudged.marks (hsolid.length_levels.trans length_append)
  have hmark : x'.solver.mark front.length = x.solver.mark front.length ++ [outcome] := by
    rw [hmarks, if_pos (by simp), hback.mark_followed _ _ _ le_rfl]
  have hbelow (k : Nat) (hk : k ≤ front.length) : x'.solver.mark k =
      if k = front.length then x.solver.mark k ++ [outcome] else x.solver.mark k := by
    rw [hmarks, hback.mark_followed _ _ _ hk]
  refine ⟨hw.visited hpaired hstacked hp hlength ?_ hbelow ?_ ?_, by simp [hmark]⟩
  · rw [hmarks, if_neg (by simp), PathSolver.mark_followed _ _ _ (by omega), if_pos (by omega)]
  · rintro rfl hpossible
    rcases hrecorded with rfl | ⟨hsuccess, -⟩
    · exact (hcomes.possible_iff henv).mp hpossible rfl
    · cases hsuccess
  · intro hproceeds hunhindered
    rcases hjudged.of_success (hv hproceeds) with ⟨r, hquick⟩ | hsuccess
    · exact hw.possible_of_quick henv hpaired hcompares hwaits hback hextend hquick hunhindered
    · refine ((hsolid.comes hformulas hsolver).possible_iff henv).mpr ?_
      simp [hsuccess]

theorem Explore.Visits.consistent
    (h : Visits engine (front ++ [e]) (isComplete (front ++ [e])) { x with solver := s₀ } p v model x' p')
    (hw : Consistent engine x.parserPath w x.solver) (hstacked : w.Stacked last)
    (hp : w.pending = (front ++ [e]) :: rest) (hback : Backed x.parserPath engine.setting front x.solver s₀) :
    Consistent engine x.parserPath (walked engine (front ++ [e]) rest v x') x'.solver ∧
      (model.isSome = true → x'.solver.mark front.length ≠ []) := by
  have hlength := hback.solid.length_levels
  cases h with
  | passed =>
    refine ⟨hw.passed hstacked hp (by simp [PathSolver.push, hlength]) fun k hk => ?_, by simp⟩
    rw [← hback.marks k hk]
    exact PathSolver.mark_push (hk.trans_eq hlength.symm)
  | @examined outcome _ _ y _ _ visited answered =>
    have hcover : (if engine.options.edgeCoverage then
        cover engine.graph (front ++ [e]) (isComplete (front ++ [e])) outcome y else y).solver =
        y.solver := by
      split
      · exact (cover_solver ..).1
      · rfl
    rw [hcover]
    obtain ⟨hconsistent, hmark⟩ :=
      visited.consistent (x := x) henv hsolver hpaired hcompares hw hstacked hp hback answered.success
    exact ⟨hconsistent, fun _ => hmark⟩

theorem Explore.Moves.consistent (h : Moves engine w x p model w' x' p')
    (hready : Ready engine.setting x.parserPath w x.solver) (hw : Consistent engine x.parserPath w x.solver) :
    Consistent engine x.parserPath w' x'.solver ∧
    (model.isSome = true → ∃ n, w'.depth = n + 1 ∧ x'.solver.mark n ≠ []) := by
  cases h with
  | stayed => exact ⟨hw, by simp⟩
  | finished =>
    refine ⟨⟨?_, by simp, by simp, by simp, by simp⟩, by simp⟩
    simp [PathSolver.length_pops, hw.levels]
  | @visited path rest v _ _ _ pending visits =>
    have hready' := hready
    obtain ⟨last, hstacked, -⟩ := hready
    obtain ⟨front, e, rfl⟩ := (eq_nil_or_concat' path).resolve_left (hstacked.top_ne pending)
    obtain ⟨hconsistent, hmark⟩ := visits.consistent henv hsolver hpaired hcompares hw hstacked pending
      (hw.backed hready' pending)
    exact ⟨hconsistent, fun hsome => ⟨front.length, by simp [walked], hmark hsome⟩⟩

end

end Streams

/-! ## Solutions -/

/-- The first outcomes of the levels below a number are the same. -/
structure PathSolver.Heads (n : Nat) (s s' : PathSolver) : Prop where
  length : s'.levels.length = s.levels.length
  heads : ∀ k < n, (s'.mark k).head? = (s.mark k).head?

namespace PathSolver

theorem Heads.refl (n : Nat) (s : PathSolver) : Heads n s s := ⟨rfl, fun _ _ => rfl⟩

theorem Heads.trans (h : Heads n s s') (h' : Heads n s' s'') : Heads n s s'' :=
  ⟨h'.length.trans h.length, fun k hk => (h'.heads k hk).trans (h.heads k hk)⟩

theorem Heads.mark_ne_nil (h : Heads n s s') (hk : k < n) (hs : s.mark k ≠ []) : s'.mark k ≠ [] := by
  rw [ne_eq, ← head?_eq_none_iff, h.heads k hk, head?_eq_none_iff]
  exact hs

theorem heads_record (outcome : Outcome) (h : s.levels.length = n + 1) (hs : s.mark n ≠ []) :
    Heads (n + 1) s (s.record outcome) := by
  refine ⟨length_record outcome, fun k hk => ?_⟩
  rw [mark_record outcome h]
  split
  · subst k
    obtain ⟨o, os, ho⟩ := exists_cons_of_ne_nil hs
    simp [ho]
  · rfl

end PathSolver

section Solutions

open PathSolver

theorem Explore.Solves.heads (h : Solves engine m s ρ fs s') (hs : s.levels.length = n) :
    Heads n s (released engine m s') := by
  unfold released
  cases h with
  | short short =>
    rw [if_neg (by simp [short])]
    exact .refl n s
  | drawn complete draw =>
    have hlength : ((s.push.assert (s.randomConstraints draw)).check engine.solver).levels.length = n + 1 := by
      simp [check, assert, push, hs]
    rw [if_pos complete]
    refine ⟨?_, fun k hk => ?_⟩
    · change (((s.push.assert _).check engine.solver).record _).levels.tail.length = _
      rw [length_tail, length_record, hlength, hs, Nat.add_sub_cancel]
    · change (((((s.push.assert _).check engine.solver).record _).pop engine.options).mark k).head? = _
      rw [mark_pop (by rw [length_record]; omega), mark_record _ hlength, if_neg (by omega)]
      exact congrArg head? (show s.push.mark k = s.mark k from mark_push (by omega))

theorem PathSolver.heads_varyLengths {condition : Option String} {varied : Bool}
    (h : s.varyLengths condition = .ok (varied, s')) : Heads n s s' := by
  rcases varyLengths_ok h with rfl | ⟨f, rfl⟩
  · exact .refl n s'
  · exact ⟨rfl, fun _ _ => rfl⟩

theorem PathSolver.heads_solve (solver : Solver) (hs : s.levels.length = n + 1) (hmark : s.mark n ≠ []) :
    Heads (n + 1) s (s.solve solver).2 :=
  have h := heads_record (s := s.check solver) (s.check solver).outcome hs hmark
  ⟨h.length, h.heads⟩

theorem Explore.Furthers.heads (h : Furthers engine m s again s') (hs : s.levels.length = n + 1) (hmark : s.mark n ≠ []) :
    Heads (n + 1) s (if again then released engine m s' else s') := by
  have hsolve {t : PathSolver} {varied : Bool} (vary : s.varyLengths engine.options.variation = .ok (varied, t)) :
      Heads (n + 1) s (t.solve engine.solver).2 := by
    have hvary : Heads (n + 1) s t := heads_varyLengths vary
    exact hvary.trans (heads_solve _ (hvary.length.trans hs) (hvary.mark_ne_nil (by omega) hmark))
  cases h with
  | unwanted vary => exact heads_varyLengths vary
  | refuted vary => exact hsolve vary
  | solves vary _ _ solves =>
    have hsolved := hsolve vary
    exact hsolved.trans (solves.heads (hsolved.length.trans hs))

theorem Consistent.heads {parser : ParserPath} (h : Consistent engine parser w s) (hheads : Heads w.depth s s')
    (hshort : ∀ path ∈ w.pending, path.length ≤ w.depth) : Consistent engine parser w s' := by
  refine ⟨hheads.length.trans h.levels, h.leaves, h.once, fun front e hq hbranch hhead => ?_, h.possible⟩
  have hle := hshort _ hq
  rw [length_append, length_singleton] at hle
  rw [hheads.heads _ (by omega)] at hhead
  exact h.refuted front e hq hbranch hhead

end Solutions

/-! ## Streams -/

def Waits (engine : Engine) (x : Exploration) : StreamStage → Prop
  | .walking w => Consistent engine x.parserPath w x.solver
  | .yielded w m _ => Consistent engine x.parserPath w (released engine m x.solver) ∧
      ∃ n, w.depth = n + 1 ∧ (released engine m x.solver).mark n ≠ []
  | _ => True

section Streams

theorem Begins.waits (hsolver : engine.solver.Decides) (hpaired : engine.Paired) (h : Begins engine x p stage x' p')
    (hidle : x.solver.Idle engine.options) : Waits engine x' stage := by
  cases h with
  | impossible | refuted => trivial
  | @started s p' start sat found =>
    have hpossible := hidle.possible start ((hsolver.isSat_check _).mp sat)
    have hedges : (firstEdges engine x).Perm (engine.leaving []) := by
      unfold firstEdges
      split
      · exact leastVisited_perm x _
      · exact .refl _
    have hpending : ((firstEdges engine x).map fun e => [e]).reverse = stackOn [] (firstEdges engine x) [] := by
      simp [stackOn]
    have hbase : ((s.check engine.solver).refresh engine.options).base.outcomes = [] ∧
        ((s.check engine.solver).refresh engine.options).levels = [] := by
      obtain ⟨hlevels, ctx, t, -, ⟨hfalse, -⟩ | ⟨fs, -, rfl, -⟩⟩ := PathSolver.start_ok start
      · cases hfalse
      · unfold PathSolver.refresh
        split <;> exact ⟨rfl, hlevels⟩
    refine ⟨by simp [hbase.2], ?_, ?_, ?_, ?_⟩ <;> rw [hpending] <;> intro front e hq
      <;> obtain ⟨rfl, he⟩ : front = [] ∧ e ∈ firstEdges engine x := by
        simpa using concat_mem_stackOn.mp hq
    · exact hedges.mem_iff.mp he
    · intro hbranch
      rw [count_stackOn_concat (by simp)]
      exact hpaired.count_le_one hedges (hedges.mem_iff.mp he) hbranch
    · intro hbranch hhead
      simp [PathSolver.mark, hbase.1] at hhead
    · exact fun _ => hpossible

section

variable (henv : engine.setting.Uniform) (hsolver : engine.solver.Decides) (hpaired : engine.Paired)
  (hcompares : engine.setting.Compares)

include henv hsolver hpaired hcompares

theorem Steps.waits {solution : Option Solution} (h : Steps engine x p stage solution stage' x' p')
    (hsettled : Settled engine x stage) (hx : Waits engine x stage) : Waits engine x' stage' := by
  cases h with
  | begins begins => exact begins.waits hsolver hpaired hsettled
  | @moves w w' model x' p' moves nothing =>
    cases hended : w'.ended with
    | true => trivial
    | false =>
      have hparser := (moves.ready hsettled.2 hsettled.1).1
      change Consistent engine x'.parserPath w' x'.solver
      rw [hparser]
      exact (moves.consistent henv hsolver hpaired hcompares hsettled.2 hx).1
  | @solves w w' m y x' q p' found moves gives solution =>
    obtain ⟨hparser, -, -, hgives⟩ := moves.ready hsettled.2 hsettled.1
    obtain ⟨-, last, hstacked, hloose⟩ := hgives m rfl gives
    obtain ⟨hconsistent, hmark⟩ := moves.consistent henv hsolver hpaired hcompares hsettled.2 hx
    obtain ⟨n, hdepth, hmark⟩ := hmark rfl
    obtain ⟨hy, -, ρ, fs, hsolves⟩ := solution_ok solution
    have hheads := hsolves.heads hconsistent.levels
    have hparser' : x'.parserPath = x.parserPath := by rw [hy, hparser]
    refine ⟨?_, n, hdepth, hheads.mark_ne_nil (by omega) hmark⟩
    rw [hparser']
    exact hconsistent.heads hheads fun path hpath => (hloose.short path hpath).trans_eq hstacked.depth.symm
  | leaves limit => exact hx.1
  | @continues w m n found x' p' limit another =>
    obtain ⟨hconsistent, k, hdepth, hmark⟩ := hx
    obtain ⟨-, last, hstacked, hloose⟩ := hsettled
    obtain ⟨hy, -, hfurthers⟩ := another_ok another
    have hheads := hfurthers.heads (hconsistent.levels.trans hdepth) hmark
    have hparser : x'.parserPath = x.parserPath := by rw [hy]
    have hnext := hconsistent.heads (hdepth ▸ hheads) fun path hpath =>
      (hloose.short path hpath).trans_eq hstacked.depth.symm
    cases solution with
    | none =>
      change Consistent engine x'.parserPath w x'.solver
      rw [hparser]
      exact hnext
    | some found =>
      refine ⟨?_, k, hdepth, hheads.mark_ne_nil (by omega) hmark⟩
      rw [hparser]
      exact hnext
  | rests => trivial

theorem Reaches.waits {parser : ParserPath} (hs : s.Idle engine.options) (h : Reaches engine parser s stage x found) :
    Waits engine x stage := by
  induction h with
  | start => trivial
  | step before run finds ih =>
    exact (step_ok run).waits henv hsolver hpaired hcompares (before.settled hs).2 ih
  | @counts stage _ _ _ before begun later ih =>
    cases stage with
    | waiting => trivial
    | walking w => exact ih.counted _
    | yielded w m k =>
      obtain ⟨hconsistent, depth, hdepth, hmark⟩ := ih
      refine ⟨?_, depth, hdepth, ?_⟩
      · rw [released_counted]
        exact hconsistent.counted _
      · rw [released_counted]
        exact hmark
    | ended => trivial

end

end Streams

/-- A stream visits a path, and the outcome is inferred from a path solver that has the constraints of
the path asserted. -/
inductive Infers (engine : Engine) (parser : ParserPath) (s : PathSolver) :
    ControlPath → PathSolver → Outcome → Prop where
  | visit {w : Walk Label ControlStep} {x x' : Exploration} {found : List Finding} {path : ControlPath}
    {rest : List ControlPath} {p p' : Progress} {r : Outcome × PathSolver}
    (reaches : Reaches engine parser s (.walking w) x found) (pending : w.pending = path :: rest)
    (asserted : (reach engine w path).exec x p = .ok (((), x'), p'))
    (known : x'.solver.quick engine.setting path (isComplete path) = .ok (some r)) :
    Infers engine parser s path x'.solver r.1

/-- An outcome is inferred rightly, at every visit and whatever was visited and solved before, if the
place where the packet leaves hinders no edge of the path: the formulas that are asserted then can be
satisfied, and the solver would have found out the same. -/
theorem quick_answer_sound {engine : Engine} {parser : ParserPath} (henv : engine.setting.Uniform)
    (hsolver : engine.solver.Decides) (hpaired : engine.Paired) (hcompares : engine.setting.Compares)
    {s t : PathSolver} (hs : HandedOn engine s) {path : ControlPath} {outcome : Outcome}
    (hinfers : Infers engine parser s path t outcome) (hunhindered : Unhindered engine.setting parser path) :
    Satisfiable t.formulas ∧ outcome = (t.solve engine.solver).1 := by
  cases hinfers with
  | @visit w x x' found _ rest p p' r reaches hp asserted known =>
    have hwaits := reaches.waits henv hsolver hpaired hcompares (hs.idle)
    obtain ⟨rfl, -, hready⟩ := reaches.settled (hs.idle)
    have hready' := hready
    obtain ⟨last, hstacked, -⟩ := hready
    obtain ⟨front, e, rfl⟩ := (eq_nil_or_concat' path).resolve_left (hstacked.top_ne hp)
    have hback := Consistent.backed hready' hwaits hp
    obtain ⟨s₁, hextend, rfl⟩ := reach_ok asserted
    have hpossible := Consistent.possible_of_quick henv hpaired hcompares hwaits
      (hp ▸ mem_cons_self) hback hextend known hunhindered
    obtain ⟨hsolid, hformulas⟩ := hback.solid.extend hextend
    refine ⟨?_, ?_⟩
    · rw [hformulas, ← PathSolver.standing_constraints]
      exact (hsolid.trail.possible_iff henv).mp hpossible
    · have hjudged : Judged engine x.parserPath (front ++ [e]) _ s₁ r.1 none r.2 := .quick known
      rcases hjudged.recorded with h | ⟨-, h, -⟩
      · exact h
      · exact absurd h (((hsolid.comes hformulas hsolver).possible_iff henv).mp hpossible)

/-! ## Computed visits -/

theorem Engine.paired_of_entries (h : ∀ entry ∈ engine.graph.out.entries, PairedAt entry.1 entry.2) :
    engine.Paired := by
  intro v
  rw [Graph.outEdges, Dict.getD]
  cases hout : engine.graph.out.get? v with
  | none => exact .inl (by simp)
  | some es => exact h (v, es) (Dict.mem_entries_of_get? hout)

/-- The path that a stream visits after a number of steps, with the outcome that is inferred and the
formulas that are asserted. -/
def Engine.inferred? (engine : Engine) (parser : ParserPath) (s : PathSolver) (steps : Nat) :
    Option (ControlPath × Outcome × List Formula) :=
  match StreamState.after engine steps { exploration := { solver := s, parserPath := parser } } with
  | .ok ⟨.walking w, x, p⟩ =>
    match w.pending with
    | [] => none
    | path :: _ =>
      match (reach engine w path).exec x p with
      | .error _ => none
      | .ok ((_, x'), _) =>
        match x'.solver.quick engine.setting path (isComplete path) with
        | .ok (some r) => some (path, r.1, x'.solver.formulas)
        | _ => none
  | _ => none

theorem infers_of_inferred (h : engine.inferred? parser s steps = some (path, outcome, fs)) :
    ∃ t, Infers engine parser s path t outcome ∧ t.formulas = fs := by
  unfold inferred? at h
  split at h
  · rename_i w x p hrun
    obtain ⟨found, hreaches, -⟩ := Reaches.start.after hrun
    split at h
    · cases h
    · rename_i hpending
      split at h
      · cases h
      · rename_i hreach
        split at h
        · rename_i hquick
          cases h
          exact ⟨_, .visit hreaches hpending hreach hquick, rfl⟩
        · cases h
  · cases h

end

/-! ## A condition that always holds

An action sets a field, and the condition after it asks for the value that was set. -/

namespace AlwaysTaken

def edges : List (Label × List ControlEdge) :=
  [(.text "t1", [edge "t1" "set" (.text "c")]),
   (.text "c", [⟨.text "c", .text "t2", .branch true none⟩, ⟨.text "c", .text "t2", .branch false none⟩]),
   (.text "t2", [edge "t2" "skip" .null])]

def conditional : Conditional :=
  { (default : Conditional) with
    expression := .expression (.str "==") none (some (.field (.str "m") (.str "x"))) (.hexstr 1) }

def setting : Setting where
  options := { conditionalOpt := true }
  program := program
    [metadata "standard_metadata" [("egress_spec", 9)], metadata "m" [("x", 8)]]
    [action "set" [assign "m" "x" 1], action "skip" []]
  pipeline := pipeline ["t1", "t2"] [(.text "c", conditional)]

noncomputable def engine : Engine := Small.engine setting "t1" edges

def holds : ControlPath := [edge "t1" "set" (.text "c"), ⟨.text "c", .text "t2", .branch true none⟩]

theorem paired : engine.Paired := by
  refine Engine.paired_of_entries fun entry hentry => ?_
  change entry ∈ edges at hentry
  simp only [edges, mem_cons, not_mem_nil, or_false] at hentry
  rcases hentry with rfl | rfl | rfl
  · exact .inl (by decide)
  · exact .inr ⟨_, _, _, rfl⟩
  · exact .inl (by decide)

theorem compares : setting.Compares := by
  intro v c hc
  change (if Label.text "c" = v then some conditional else none) = some c at hc
  split at hc
  · cases hc
    exact fun h f => ⟨nofun, nofun⟩
  · cases hc

end AlwaysTaken

open AlwaysTaken in
/-- The branch that is not taken is visited first and refuted, and the other one is inferred. -/
theorem quick_answer_sound_always_taken :
    ∃ t, engine.setting.Uniform ∧ engine.solver.Decides ∧ engine.Paired ∧ engine.setting.Compares ∧
      HandedOn engine {} ∧ Infers engine Small.parserPath {} holds t .success ∧
      Unhindered engine.setting Small.parserPath holds ∧
      Satisfiable t.formulas ∧ .success = (t.solve engine.solver).1 := by
  have hinferred : (engine.inferred? Small.parserPath {} 3).map (fun r => (r.1, r.2.1)) =
      some (holds, .success) := by decide +kernel
  obtain ⟨⟨path, outcome, fs⟩, hrun, heq⟩ := Option.map_eq_some_iff.mp hinferred
  cases heq
  obtain ⟨t, hinfers, -⟩ := infers_of_inferred hrun
  have huniform : engine.setting.Uniform := Small.uniform rfl
  have hunhindered : Unhindered engine.setting Small.parserPath holds :=
    .of_fold huniform (by decide +kernel)
  exact ⟨t, huniform, Solver.ideal_decides _, paired, compares, .new, hinfers, hunhindered,
    quick_answer_sound huniform (Solver.ideal_decides _) paired compares .new hinfers hunhindered⟩

open NoPort in
/-- An action that sends the packet to a port that does not exist is inferred to be possible. -/
theorem quick_answer_wrong_port :
    ∃ t, HandedOn (engine.solving true true true) {} ∧
      Infers (engine.solving true true true) Small.parserPath {} [Small.edge "t1" "send" (.text "t2")] t
        .success ∧
      ¬ Satisfiable t.formulas := by
  have hinferred : ((engine.solving true true true).inferred? Small.parserPath {} 4).map
      (fun r => (r.1, r.2.1, Solver.contradicts r.2.2)) =
      some ([Small.edge "t1" "send" (.text "t2")], .success, true) := by decide +kernel
  obtain ⟨⟨path, outcome, fs⟩, hrun, heq⟩ := Option.map_eq_some_iff.mp hinferred
  simp only [Prod.mk.injEq] at heq
  obtain ⟨rfl, rfl, hcontradicts⟩ := heq
  obtain ⟨t, hinfers, hformulas⟩ := infers_of_inferred hrun
  refine ⟨t, .new, hinfers, ?_⟩
  rw [hformulas]
  exact Solver.not_satisfiable_of_contradicts hcontradicts

end PacketSmith
