import PacketSmith.Proofs.SolvingOptions

/-!
# What comes of a path

The outcome of a path can be said without a solver (`Standing.Ends`, `Comes`). A path has at most one outcome
(`Comes.unique`), since two path solvers that have followed it differ by a renumbering. A solver that decides
satisfiability finds it out (`PathSolver.Solid.comes`), and the options of the search do not matter (`Comes.solving`).
-/

namespace PacketSmith

open Numbered (renum)

inductive Standing.Ends (s : Standing) : Outcome → Prop where
  | refuted (unsat : ¬ Satisfiable s.constraints.flatten) : s.Ends .noPacketFound
  | reads (sat : Satisfiable s.constraints.flatten) (amiss : s.context.uninitializedReads ≠ []) :
    s.Ends .uninitializedRead
  | writes (sat : Satisfiable s.constraints.flatten) (set : s.context.uninitializedReads = [])
    (amiss : s.context.invalidWrites ≠ []) : s.Ends .invalidHeaderWrite
  | success (passable : s.Passable) : s.Ends .success

namespace Standing.Ends

variable {s : Standing}

theorem unique (h : s.Ends o) (h' : s.Ends o') : o = o' := by
  cases h with
  | refuted unsat =>
    cases h' with
    | refuted => rfl
    | reads sat | writes sat => exact absurd sat unsat
    | success passable => exact absurd passable.satisfiable unsat
  | reads sat amiss =>
    cases h' with
    | refuted unsat => exact absurd sat unsat
    | reads => rfl
    | writes _ set => exact absurd set amiss
    | success passable => exact absurd passable.reads amiss
  | writes sat set amiss =>
    cases h' with
    | refuted unsat => exact absurd sat unsat
    | reads _ amiss => exact absurd set amiss
    | writes => rfl
    | success passable => exact absurd passable.writes amiss
  | success passable =>
    cases h' with
    | refuted unsat => exact absurd passable.satisfiable unsat
    | reads _ amiss => exact absurd passable.reads amiss
    | writes _ _ amiss => exact absurd passable.writes amiss
    | success => rfl

theorem satisfiable (h : s.Ends o) (ho : o ≠ .noPacketFound) : Satisfiable s.constraints.flatten := by
  cases h with
  | refuted => exact absurd rfl ho
  | reads sat | writes sat => exact sat
  | success passable => exact passable.satisfiable

end Standing.Ends

theorem Standing.satisfiable_renum (σ : ℕ ↪o ℕ) (s : Standing) :
    Satisfiable (renum σ s).constraints.flatten ↔ Satisfiable s.constraints.flatten := by
  rw [constraints_renum, flatten_renum]
  exact satisfiable_renumber σ _

theorem Standing.Ends.of_renum {s : Standing} (h : (renum σ s).Ends o) : s.Ends o := by
  have hcontext : (renum σ s).context = renum σ s.context := s.context_renum σ
  cases h with
  | refuted unsat => exact .refuted fun hsat => unsat ((s.satisfiable_renum σ).mpr hsat)
  | reads sat amiss =>
    rw [hcontext] at amiss
    exact .reads ((s.satisfiable_renum σ).mp sat) amiss
  | writes sat set amiss =>
    rw [hcontext] at set amiss
    exact .writes ((s.satisfiable_renum σ).mp sat) set amiss
  | success passable => exact .success ((s.passable_renum σ).mp passable)

def Comes (env : Setting) (parser : ParserPath) (path : ControlPath) (o : Outcome) : Prop :=
  ∃ s n, Trail env parser path s n ∧ s.Ends o

def Possible (env : Setting) (parser : ParserPath) (path : ControlPath) : Prop :=
  ∃ s n, Trail env parser path s n ∧ Satisfiable s.constraints.flatten

section Paths

variable {parser : ParserPath}

theorem Comes.solving (keep tables branches : Bool) :
    Comes (env.solving keep tables branches) parser path o ↔ Comes env parser path o := by
  simp only [Comes, Trail.solving]

theorem Possible.solving (keep tables branches : Bool) :
    Possible (env.solving keep tables branches) parser path ↔ Possible env parser path := by
  simp only [Possible, Trail.solving]

theorem Trail.images
    (henv : env.Uniform) (h : Trail env parser path s n) (h' : Trail env parser path s' n') :
    ∃ (r : Standing) (σ σ' : ℕ ↪o ℕ), s = renum σ r ∧ s' = renum σ' r := by
  obtain ⟨r, σ, hreplay, hreplayed⟩ := h.replay henv
  obtain ⟨r', σ', hreplay', hreplayed'⟩ := h'.replay henv
  obtain rfl := Except.ok.inj (hreplay.symm.trans hreplay')
  exact ⟨r.standing, σ, σ', hreplayed.reflects.image σ fun _ _ => rfl,
    hreplayed'.reflects.image σ' fun _ _ => rfl⟩

theorem Comes.unique (henv : env.Uniform) (h : Comes env parser path o) (h' : Comes env parser path o') : o = o' := by
  obtain ⟨s, n, htrail, hs⟩ := h
  obtain ⟨s', n', htrail', hs'⟩ := h'
  obtain ⟨r, σ, σ', rfl, rfl⟩ := htrail.images henv htrail'
  exact hs.of_renum.unique hs'.of_renum

theorem Trail.possible_iff (henv : env.Uniform) (h : Trail env parser path s n) :
    Possible env parser path ↔ Satisfiable s.constraints.flatten := by
  refine ⟨?_, fun hsat => ⟨s, n, h, hsat⟩⟩
  rintro ⟨s', n', htrail, hsat⟩
  obtain ⟨r, σ, σ', rfl, rfl⟩ := h.images henv htrail
  rw [Standing.satisfiable_renum] at hsat ⊢
  exact hsat

theorem Comes.possible_iff (henv : env.Uniform) (h : Comes env parser path o) :
    Possible env parser path ↔ o ≠ .noPacketFound := by
  obtain ⟨s, n, htrail, hs⟩ := h
  rw [htrail.possible_iff henv]
  refine ⟨?_, hs.satisfiable⟩
  rintro hsat rfl
  cases hs with
  | refuted unsat => exact unsat hsat

theorem Possible.dropLast (h : Possible env parser path) : Possible env parser path.dropLast := by
  obtain ⟨s, n, htrail, hsat⟩ := h
  refine ⟨_, _, htrail.pop, ?_⟩
  cases htrail with
  | start => exact hsat
  | @edge path s c _ e added t before run bound =>
    rw [Standing.constraints_extended, List.flatten_append] at hsat
    exact hsat.mono (List.subset_append_left _ _)

end Paths

theorem PathSolver.Solid.comes {parser : ParserPath}
    (h : Solid env parser path s) (hformulas : s.formulas = s.constraints.flatten)
    {solver : Solver} (hsolver : solver.Decides) : Comes env parser path (s.solve solver).1 := by
  refine ⟨s.standing, s.fresh, h.trail, ?_⟩
  have hsat : (s.check solver).isSat = true ↔ Satisfiable s.standing.constraints.flatten := by
    rw [hsolver.isSat_check, hformulas, standing_constraints]
  have hcontext : s.standing.context = (s.check solver).context := s.standing_context
  change s.standing.Ends (s.check solver).outcome
  unfold outcome
  cases hanswer : (s.check solver).isSat with
  | false =>
    refine .refuted fun h => ?_
    rw [← hsat, hanswer] at h
    cases h
  | true =>
    have hs := hsat.mp hanswer
    cases hreads : (s.check solver).context.uninitializedReads with
    | cons r reads => exact .reads hs (by simp [hcontext, hreads])
    | nil =>
      have hset : s.standing.context.uninitializedReads = [] := by rw [hcontext, hreads]
      cases hwrites : (s.check solver).context.invalidWrites with
      | cons r writes => exact .writes hs hset (by simp [hcontext, hwrites])
      | nil => exact .success ⟨hs, hset, by rw [hcontext, hwrites]⟩

end PacketSmith
