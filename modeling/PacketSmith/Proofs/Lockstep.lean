import PacketSmith.Proofs.SolvingOptions

/-!
# Explorations in step

The same exploration is run twice, once with constraints that are kept from a path to those that extend it and once
without. `Both` relates the results. `Akin` path solvers differ in frames and answers only, and where the solver is
asked the two are `InStep`: the same formulas are asserted, since the frames of the one that keeps constraints belong
to the levels of its path (`Layered`).
-/

namespace PacketSmith

open List PathSolver

variable {α β γ δ : Type}

/-! ## Results -/

/-- Two results: the same fault, or values that are related. -/
inductive Both (R : α → β → Prop) : Except Fault α → Except Fault β → Prop where
  | error (f : Fault) : Both R (.error f) (.error f)
  | ok {a : α} {b : β} (related : R a b) : Both R (.ok a) (.ok b)

namespace Both

theorem bind (h : Both R e e') (hf : ∀ a b, R a b → Both S (f a) (f' b)) : Both S (e >>= f) (e' >>= f') := by
  cases h with
  | error g => exact .error g
  | ok related => exact hf _ _ related

theorem mono (h : Both R e e') (hR : ∀ a b, R a b → R' a b) : Both R' e e' := by
  cases h with
  | error g => exact .error g
  | ok related => exact .ok (hR _ _ related)

theorem results (h : Both R e e') : Both (fun a b => e = .ok a ∧ e' = .ok b ∧ R a b) e e' := by
  cases h with
  | error g => exact .error g
  | ok related => exact .ok ⟨rfl, rfl, related⟩

theorem refl (hT : ∀ a, T a a) (e : Except Fault α) : Both T e e := by
  cases e with
  | error f => exact .error f
  | ok a => exact .ok (hT a)

theorem eq (h : Both Eq e e') : e = e' := by
  cases h with
  | error f => rfl
  | ok related => rw [related]

end Both

namespace Explore

/-- The same value and the same records, with explorations that are related. -/
inductive Abreast (Q : α → Exploration → Exploration → Prop) :
    (α × Exploration) × Progress → (α × Exploration) × Progress → Prop where
  | mk {a : α} {x x' : Exploration} {p : Progress} (related : Q a x x') : Abreast Q ((a, x), p) ((a, x'), p)

/-- Two runs of a step: the same fault, or the same value and the same records. -/
abbrev Matched (Q : α → Exploration → Exploration → Prop) :
    Except Fault ((α × Exploration) × Progress) → Except Fault ((α × Exploration) × Progress) → Prop :=
  Both (Abreast Q)

variable {Q : α → Exploration → Exploration → Prop}

theorem Matched.of_ok (h : Q a x x') : Matched Q (.ok ((a, x), p)) (.ok ((a, x'), p)) :=
  .ok (.mk h)

theorem Matched.bind {f f' : α → Explore β} (h : Matched Q (m.exec x p) (m'.exec x' p))
    (hf : ∀ a y y' q, Q a y y' → Matched T ((f a).exec y q) ((f' a).exec y' q)) : Matched T ((m >>= f).exec x p)
    ((m' >>= f').exec x' p) := by
  refine Both.bind h fun r r' hr => ?_
  cases hr with
  | mk related => exact hf _ _ _ _ related

theorem Matched.lift_bind (h : Both R e e') (hf : ∀ c d, R c d → Matched Q ((f c).exec x p) ((f' d).exec x' p)) :
    Matched Q (((liftM e : Explore γ) >>= f).exec x p) (((liftM e' : Explore δ) >>= f').exec x' p) := by
  rw [exec_lift_bind, exec_lift_bind]
  exact Both.bind h hf

theorem Matched.mono (h : Matched Q r r') (hQ : ∀ a y y', Q a y y' → Q' a y y') : Matched Q' r r' := by
  refine Both.mono h fun s s' hs => ?_
  cases hs with
  | mk related => exact .mk (hQ _ _ _ related)

theorem Matched.and_left {P : α → Exploration → Progress → Prop} (h : Matched Q r r')
    (hP : ∀ a y q, r = .ok ((a, y), q) → P a y q) : Matched (fun a y y' => (∃ q, P a y q) ∧ Q a y y') r r' := by
  cases h with
  | error f => exact .error f
  | ok related =>
    cases related with
    | mk related => exact .of_ok ⟨⟨_, hP _ _ _ rfl⟩, related⟩

theorem Matched.require {Q : Unit → Exploration → Exploration → Prop} (b : Bool) (f : Fault) (hQ : Q () x x') :
    Matched Q ((require b f : Explore Unit).exec x p) ((require b f : Explore Unit).exec x' p) := by
  cases b with
  | false => exact .error f
  | true => exact .of_ok hQ

end Explore

/-! ## Path solvers -/

namespace PathSolver

def Akin (s s' : PathSolver) : Prop :=
  ∃ frames answer, s' = { s with frames := frames, answer := answer }

namespace Akin

theorem refl (s : PathSolver) : Akin s s := ⟨_, _, rfl⟩

section

variable (h : Akin s s')

include h

theorem standing : s'.standing = s.standing := by
  obtain ⟨frames, answer, rfl⟩ := h
  rfl

theorem push : Akin s.push s'.push := by
  obtain ⟨frames, answer, rfl⟩ := h
  exact ⟨_, _, rfl⟩

theorem pop : Akin (s.pop o) (s'.pop o') := by
  obtain ⟨frames, answer, rfl⟩ := h
  exact ⟨_, _, rfl⟩

theorem pops (n : Nat) : Akin ((PathSolver.pop o)^[n] s) ((PathSolver.pop o')^[n] s') := by
  induction n generalizing s s' with
  | zero => exact h
  | succ n ih => exact ih h.pop

theorem assert (fs fs' : List Formula) : Akin (s.assert fs) (s'.assert fs') := by
  obtain ⟨frames, answer, rfl⟩ := h
  exact ⟨_, _, rfl⟩

theorem refresh : Akin (s.refresh o) (s'.refresh o') := by
  obtain ⟨frames, answer, rfl⟩ := h
  unfold refresh
  split <;> split <;> exact ⟨_, _, rfl⟩

theorem record (outcome : Outcome) : Akin (s.record outcome) (s'.record outcome) := by
  obtain ⟨frames, answer, rfl⟩ := h
  obtain ⟨frames', answer', base, levels, pathId, tally, fresh, packet⟩ := s
  rcases levels with _ | ⟨l, _ | ⟨l', rest⟩⟩ <;> exact ⟨_, _, rfl⟩

theorem quick (env : Setting) (path : ControlPath) (complete : Bool) :
    Both (fun known known' => known = none ∧
      known' = none ∨ ∃ outcome, known = some (outcome, s.record .success) ∧ known' = some (outcome,
      s'.record .success)) (s.quick env path complete) (s'.quick env path complete) := by
  obtain ⟨frames, answer, rfl⟩ := h
  refine Both.bind (.refl (T := Eq) (fun _ => rfl) (s.infers env path complete)) fun known _ hknown => ?_
  subst hknown
  cases known with
  | true => exact .ok (.inr ⟨_, rfl, rfl⟩)
  | false => exact .ok (.inl ⟨rfl, rfl⟩)

end

end Akin

structure InStep (s s' : PathSolver) : Prop where
  akin : Akin s s'
  formulas : s'.formulas = s.formulas
  answer : s'.answer = s.answer

namespace InStep

variable (h : InStep s s')

include h

theorem push : InStep s.push s'.push :=
  ⟨h.akin.push, by rw [formulas_push, formulas_push, h.formulas], h.answer⟩

theorem assert (fs : List Formula) : InStep (s.assert fs) (s'.assert fs) :=
  ⟨h.akin.assert fs fs, by rw [formulas_assert, formulas_assert, h.formulas], h.answer⟩

theorem record (outcome : Outcome) : InStep (s.record outcome) (s'.record outcome) := by
  refine ⟨h.akin.record outcome, ?_, ?_⟩
  · rw [PathSolver.formulas, PathSolver.formulas, (same_record outcome s).frames, (same_record outcome s').frames]
    exact h.formulas
  · have hanswer (s : PathSolver) : (s.record outcome).answer = s.answer := by
      unfold PathSolver.record
      split <;> rfl
    rw [hanswer, hanswer, h.answer]

theorem isSat : s'.isSat = s.isSat := by
  rw [PathSolver.isSat, h.answer, PathSolver.isSat]

theorem context : s'.context = s.context := by
  obtain ⟨⟨frames, answer, rfl⟩, -, -⟩ := h
  rfl

theorem check (solver : Solver) : InStep (s.check solver) (s'.check solver) := by
  obtain ⟨⟨frames, answer, rfl⟩, hformulas, -⟩ := h
  refine ⟨⟨_, _, rfl⟩, hformulas, ?_⟩
  rw [check, check, hformulas]

theorem outcome : s'.outcome = s.outcome := by
  rw [PathSolver.outcome, h.isSat, h.context, PathSolver.outcome]

theorem solve (solver : Solver) :
    (s'.solve solver).1 = (s.solve solver).1 ∧ InStep (s.solve solver).2 (s'.solve solver).2 := by
  have hcheck := h.check solver
  refine ⟨hcheck.outcome, ?_⟩
  rw [PathSolver.solve, PathSolver.solve, hcheck.outcome]
  exact hcheck.record _

theorem varyLengths (condition : Option String) : Both (fun r r' => r'.1 = r.1 ∧ InStep r.2 r'.2)
    (s.varyLengths condition) (s'.varyLengths condition) := by
  have htally : s'.tally = s.tally := by
    obtain ⟨⟨frames, answer, rfl⟩, -, -⟩ := h
    rfl
  have hmodel : s'.model? = s.model? := by rw [model?, h.answer, model?]
  have hsame (ρ : Assignment) : s'.sameLengths ρ = s.sameLengths ρ := by
    rw [sameLengths, htally, sameLengths]
  unfold PathSolver.varyLengths
  rw [h.answer]
  refine Both.bind (.refl (T := Eq) (fun _ => rfl) _) fun _ _ _ => ?_
  cases condition with
  | none => exact .ok ⟨rfl, h⟩
  | some condition =>
    dsimp only
    rw [htally, hmodel]
    split
    · exact .ok ⟨rfl, h⟩
    · cases s.model? with
      | none => exact .error _
      | some ρ =>
        dsimp only
        rw [hsame]
        split
        · exact .ok ⟨rfl, h.assert _⟩
        · refine Both.bind (.refl (T := Eq) (fun _ => rfl) _) fun _ _ _ => ?_
          exact .ok ⟨rfl, h.assert _⟩

end InStep

end PathSolver

/-! ## Displacements and layers -/

structure Standing.Undrawn (s : Standing) : Prop where
  levels : ∀ l ∈ s.base :: s.levels, l.1.displacements = []
  packet : s.packet.displacements = []

namespace Standing.Undrawn

variable {s : Standing}

theorem state (h : s.Undrawn) (n : Nat) : (s.state n).Undrawn := by
  refine ⟨h.levels (s.levels.headD s.base) ?_, h.packet⟩
  cases s.levels with
  | nil => exact mem_cons_self
  | cons l rest => exact mem_cons_of_mem _ mem_cons_self

theorem extended (h : s.Undrawn) (ht : t.Undrawn) (added : List Formula) : (s.extended added t).Undrawn := by
  refine ⟨fun l hl => ?_, ht.2⟩
  rcases mem_cons.mp hl with rfl | hl
  · exact h.levels _ mem_cons_self
  · rcases mem_cons.mp hl with rfl | hl
    · exact ht.1
    · exact h.levels l (mem_cons_of_mem _ hl)

theorem shortened (h : s.Undrawn) : s.shortened.Undrawn := by
  refine ⟨fun l hl => ?_, h.packet⟩
  rcases mem_cons.mp hl with rfl | hl
  · exact h.levels _ mem_cons_self
  · exact h.levels l (mem_cons_of_mem _ (mem_of_mem_tail hl))

end Standing.Undrawn

namespace PathSolver

/-- The path solver is on the levels of a path, and its frames belong to them. Without random draws
nothing has a displacement. -/
structure Layered (o : Options) (path : ControlPath) (s : PathSolver) : Prop where
  depth : s.levels.length = path.length
  layers : s.standing.Layers s.frames
  undrawn : o.randomize = false → s.standing.Undrawn

theorem Beside.length_levels (h : Beside o s s') : s'.levels.length = s.levels.length := by
  have hlevels := congrArg (fun r : Standing => r.levels.length) h.standing
  simpa [PathSolver.standing] using hlevels

namespace Layered

theorem formulas (h : Layered o path s) : s.formulas = s.constraints.flatten :=
  h.layers.flatten.trans (congrArg List.flatten (standing_constraints s))

theorem same (h : Layered o path s) (h' : Same s s') : Layered o path s' := by
  refine ⟨(h'.beside (o := o)).length_levels.trans h.depth, ?_, fun hdraw => ?_⟩
  · rw [h'.standing, h'.frames]
    exact h.layers
  · rw [h'.standing]
    exact h.undrawn hdraw

theorem recedes (hinc : o.incremental = true) : Recedes o (Layered o) := by
  intro path s hne h
  have hlevels : s.standing.levels ≠ [] := by
    have hpos := length_pos_iff.mpr hne
    rw [← length_pos_iff, standing, length_map, h.depth]
    exact hpos
  refine ⟨?_, ?_, fun hdraw => ?_⟩
  · rw [pop, length_tail, length_dropLast, h.depth]
  · rw [standing_pop, pop, if_pos hinc]
    exact h.layers.shortened hlevels
  · rw [standing_pop]
    exact (h.undrawn hdraw).shortened

theorem push (h : Layered o path s) (e : ControlEdge) : Layered o (path ++ [e]) s.push := by
  have hstanding : s.push.standing = s.standing.extended [] (s.standing.state 0) := by
    rw [Standing.state, standing_context]
    rfl
  refine ⟨?_, ?_, fun hdraw => ?_⟩
  · rw [length_append, ← h.depth]
    rfl
  · rw [hstanding]
    exact h.layers.extended [] _
  · rw [hstanding]
    exact (h.undrawn hdraw).extended ((h.undrawn hdraw).state 0) []

theorem extend (hinc : env.options.incremental = true) (h : Layered env.options front s)
    (hextend : (s.push.refresh env.options).extend env (front ++ [e]) = .ok s') :
    Layered env.options (front ++ [e]) s' := by
  obtain ⟨added, t, hrun, rfl⟩ := extend_refresh_ok h.depth hextend
  rw [if_pos hinc]
  refine ⟨?_, h.layers.extended added t, fun hdraw => ?_⟩
  · rw [length_append, ← h.depth]
    rfl
  · have hdoes := (lastConstraints_regular (c := false) env.uniformAt_refl (front ++ [e])).does
    have ht := hdoes.undrawn hdraw ((h.undrawn hdraw).state s.fresh)
    rw [hrun] at ht
    exact (h.undrawn hdraw).extended ht added

theorem pop_beside (hinc : o.incremental = true) (h : Layered o path (s.pop o)) (h' : Beside o s s') :
    Layered o path (s'.pop o) := by
  refine ⟨?_, ?_, fun hdraw => ?_⟩
  · rw [← h.depth, pop, pop, length_tail, length_tail, h'.length_levels]
  · have hlayers := h.layers
    rw [standing_pop, pop, if_pos hinc] at hlayers ⊢
    rw [h'.standing, h'.frames hinc]
    exact hlayers
  · have hundrawn := h.undrawn hdraw
    rw [standing_pop] at hundrawn ⊢
    rwa [h'.standing]

theorem idle (h : Layered o [] s) : s.Idle o := by
  have hlevels : s.levels = [] := length_eq_zero_iff.mp h.depth
  obtain ⟨low, hlow, hframes⟩ := h.layers
  refine ⟨hlevels, fun _ => ?_⟩
  rw [hframes, show s.standing.levels = [] from congrArg (List.map _) hlevels]
  exact hlow

end Layered

end PathSolver

end PacketSmith
