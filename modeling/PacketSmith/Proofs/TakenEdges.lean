import PacketSmith.Proofs.Verdicts

/-!
# Edges that can be taken

An action of a table adds no constraint of its own (`controlEdge_action`), and the two branches of a condition ask for
the two truth values of one formula (`controlEdge_branch`). But the packet has to leave at a port that exists or to be
dropped, and `Unhindered` says that no action along a path contradicts this.
-/

namespace PacketSmith

open List PathSolver
open Symbolic (lift)
open Numbered (renum)

/-! ## The constraints of an edge -/

namespace Symbolic

theorem result_bind_inv {f : α → Symbolic β}
    (h : (m >>= f).result t = (.ok b, u)) : ∃ a v, m.result t = (.ok a, v) ∧ (f a).result v = (.ok b, u) := by
  rcases hm : m.result t with ⟨e | a, v⟩
  · rw [result_bind_error hm] at h
    cases h
  · rw [result_bind_ok hm] at h
    exact ⟨a, v, rfl, h⟩

theorem result_lift_inv (h : (lift e).result t = (.ok a, u)) : e = .ok a ∧ u = t := by
  rw [result_lift] at h
  cases h
  exact ⟨rfl, rfl⟩

/-- What a run has as its value. -/
def Ensures (Q : α → Prop) (m : Symbolic α) : Prop := ∀ ⦃st a t⦄, m.result st = (.ok a, t) → Q a

theorem Ensures.bind {f : α → Symbolic β} (hf : ∀ a, Ensures Q (f a)) : Ensures Q (m >>= f) := by
  intro st b t h
  obtain ⟨a, u, -, h⟩ := result_bind_inv h
  exact hf a h

theorem Ensures.pure {Q : α → Prop} (h : Q a) : Ensures Q (pure a) := by
  rintro st _ t ⟨⟩
  exact h

theorem Ensures.throw : Ensures Q (throw f) := by
  rintro st _ t ⟨⟩

end Symbolic

open Symbolic

variable {e : ControlEdge} {env : Setting} {st t : SymbolicState} {fs : List Formula}
  {v : Value}

theorem PathSolver.lastConstraints_ok
    (h : (lastConstraints env (front ++ [e])).result st = (.ok added, t)) :
    ∃ fs f u, (controlEdge env e).result st = (.ok fs, u) ∧
      (egressConstraint env.options).result u = (.ok f, t) ∧ added = fs ++ [f] := by
  unfold lastConstraints at h
  rw [List.getLast?_concat] at h
  obtain ⟨fs, u, hedge, h⟩ := result_bind_inv h
  obtain ⟨f, t', hegress, h⟩ := result_bind_inv h
  cases h
  exact ⟨fs, f, u, hedge, hegress, rfl⟩

theorem PathSolver.lastConstraints_of
    (front : ControlPath) (hedge : (controlEdge env e).result st = (.ok fs, u))
    (hegress : (egressConstraint env.options).result u = (.ok f, t)) :
    (lastConstraints env (front ++ [e])).result st = (.ok (fs ++ [f]), t) := by
  unfold lastConstraints
  rw [List.getLast?_concat, result_bind_ok (show (edgeConstraints env (some e)).result st = _ from hedge),
    result_bind_ok hegress]
  rfl

theorem Symbolic.tableAction_ensures (v name : Label) (n : Int) : Ensures (· = []) (tableAction env v name n) := by
  unfold tableAction
  split
  · exact .bind fun _ => .bind fun _ => .bind fun _ => .bind fun _ => .bind fun _ => .bind fun _ => .pure rfl
  · exact .throw

theorem Symbolic.controlEdge_action {v name : Label} {id : Int} {byDefault : Bool}
    (h : (controlEdge env ⟨v, dst, .action name id byDefault⟩).result st = (.ok fs, t)) : fs = [] := by
  unfold controlEdge at h
  obtain ⟨fs', u, hstep, h⟩ := result_bind_inv h
  obtain ⟨_, u', -, h⟩ := result_bind_inv h
  cases h
  exact tableAction_ensures v name id hstep

theorem Operand.binary?_ne_absent (h : binary? name = some f) (a b : Bits) : f a b ≠ .absent := by
  unfold binary? at h
  split at h <;> cases h <;> simp

theorem Operand.unary?_ne_absent (h : unary? name = some f) (hv : f a = .ok v) : v ≠ .absent := by
  rintro rfl
  unfold unary? at h
  split at h
  · cases h
    cases ha : a.truth with
    | error e => simp [ha, bind, Except.bind] at hv
    | ok g => simp [ha, bind, Except.bind, pure, Except.pure] at hv
  · cases h
    cases a <;> simp at hv
  · cases h
    cases a <;> simp at hv
  · cases h
    cases ha : a.truth with
    | error e => simp [ha, bind, Except.bind] at hv
    | ok g => simp [ha, bind, Except.bind, pure, Except.pure] at hv
  · cases h

theorem Symbolic.isValid_ne_absent (header : Json) : Ensures (· ≠ .absent) (isValid o header) := by
  refine .bind fun r => ?_
  cases r with
  | bits b => exact .bind fun g => .pure (by simp)
  | formula g => exact .throw
  | absent => exact .pure (by simp)

theorem Symbolic.operator_ne_absent (operand : Operand) (cond left right : Symbolic Value) :
    Ensures (· ≠ .absent) (operator o op operand cond left right) := by
  unfold operator
  split
  · split
    · -- a connective
      exact .bind fun a => .bind fun b => .bind fun f => .bind fun g => .pure (by simp)
    · -- a unary operator
      rename_i hunary
      exact .bind fun a _ _ _ h => Operand.unary?_ne_absent hunary (result_lift_inv h).1
    · -- a binary operator
      rename_i hbinary
      exact .bind fun a => .bind fun b => .bind fun a' => .bind fun b' => .pure (Operand.binary?_ne_absent hbinary a' b')
    · split
      · split
        · exact isValid_ne_absent _
        · exact .throw
      · split
        · -- a choice
          refine .bind fun c => .bind fun a => .bind fun b => .bind fun a' => .bind fun b' => .bind fun g => ?_
          exact .bind fun w => .pure (by simp)
        · exact .throw
  · exact .throw

/-- No condition is a bare field, whose value is absent once the header is removed. -/
def Setting.Compares (env : Setting) : Prop :=
  ∀ v c, env.pipeline.conditionals.get? v = some c →
    ∀ h f, c.expression ≠ .field h f ∧ c.expression ≠ .stackField h f

theorem Symbolic.value_ne_absent (hp : ∀ h f, p ≠ .field h f ∧ p ≠ .stackField h f) :
    Ensures (· ≠ .absent) (value env inParser p) := by
  unfold value
  split
  · exact .bind fun _ => .pure (by simp)
  · exact .throw
  · exact .pure (by simp)
  · exact .bind fun _ => .bind fun b => .pure (by simp)
  · exact absurd rfl (hp _ _).1
  · exact absurd rfl (hp _ _).2
  · exact .bind fun c => .bind fun b => .pure (by simp)
  · exact operator_ne_absent _ _ _ _
  · exact .throw

theorem Symbolic.controlEdge_branch
    (hcompares : env.Compares) {v : Label} {value : Bool} {source : Option SourceInfo}
    (h : (controlEdge env ⟨v, dst, .branch value source⟩).result st = (.ok fs, t)) :
    ∃ f : Formula, fs = [.conn .iff f (.truth value)] ∧ ∀ dst' value' source', (controlEdge env ⟨v,
      dst', .branch value' source'⟩).result st = (.ok [.conn .iff f (.truth value')], t) := by
  unfold controlEdge at h
  obtain ⟨fs', u, hstep, h⟩ := result_bind_inv h
  obtain ⟨_, u', hsource, h⟩ := result_bind_inv h
  cases h
  change (branch env v value).result st = _ at hstep
  unfold branch at hstep
  split at hstep
  · rename_i c hc
    obtain ⟨_, w, hset, hstep⟩ := result_bind_inv hstep
    obtain ⟨r, w', hvalue, hstep⟩ := result_bind_inv hstep
    obtain ⟨g, w'', hlift, hstep⟩ := result_bind_inv hstep
    cases hstep
    obtain ⟨hg, rfl⟩ := result_lift_inv hlift
    cases r with
    | absent => exact absurd rfl (value_ne_absent (hcompares v c hc) hvalue)
    | bits b => cases hg
    | formula f =>
      cases hg
      refine ⟨f, rfl, fun dst' value' source' => ?_⟩
      have hbranch : (branch env v value').result st = (.ok [.conn .iff f (.truth value')], u) := by
        unfold branch
        rw [hc]
        rw [result_bind_ok hset, result_bind_ok hvalue]
        rfl
      unfold controlEdge
      rw [result_bind_ok (show (controlStep env v (.branch value' source')).result st = _ from hbranch),
        result_bind_ok hsource]
      rfl
  · cases hstep

/-! ## Edges that can be taken -/

/-- Along a path, the constraint on the place where the packet leaves contradicts none of the
constraints before the edge that it comes with. -/
def Unhindered (env : Setting) (parser : ParserPath) (path : ControlPath) : Prop :=
  ∀ front e, front ++ [e] <+: path → ∀ s n fs f u t, Trail env parser front s n →
    (controlEdge env e).result (s.state n) = (.ok fs, u) →
    (egressConstraint env.options).result u = (.ok f, t) →
    Satisfiable s.constraints.flatten → Satisfiable (s.constraints.flatten ++ [f])

section Edges

variable {parser : ParserPath}
  {dst v : Label}

theorem Unhindered.of_prefix {path longer : ControlPath} (h : Unhindered env parser longer)
    (hpath : path <+: longer) : Unhindered env parser path :=
  fun front e hfront => h front e (hfront.trans hpath)

theorem Possible.action
    (henv : env.Uniform) (hfront : Possible env parser front) {id : Int} {byDefault : Bool}
    (hunhindered : Unhindered env parser (front ++ [⟨v, dst, .action name id byDefault⟩]))
    (htrail : Trail env parser front s n)
    (hrun : (lastConstraints env (front ++ [⟨v, dst, .action name id byDefault⟩])).result (s.state n) =
      (.ok added, t)) : Possible env parser (front ++ [⟨v, dst, .action name id byDefault⟩]) := by
  refine ⟨_, _, .edge htrail hrun le_rfl, ?_⟩
  obtain ⟨fs, f, u, hedge, hegress, rfl⟩ := lastConstraints_ok hrun
  obtain rfl := controlEdge_action hedge
  have hsat := hunhindered front _ (prefix_refl _) s n _ f u t htrail hedge hegress
    ((htrail.possible_iff henv).mp hfront)
  simpa using hsat

theorem Possible.branch (henv : env.Uniform) (hcompares : env.Compares)
    (hfront : Possible env parser front) {value value' : Bool} {source source' : Option SourceInfo}
    (hunhindered : Unhindered env parser (front ++ [⟨v, dst, .branch value source⟩]))
    (htrail : Trail env parser front s n)
    (hrun : (lastConstraints env (front ++ [⟨v, dst, .branch value source⟩])).result (s.state n) =
      (.ok added, t)) (hvalue : value' ≠ value)
    (hother : ¬ Possible env parser (front ++ [⟨v, dst', .branch value' source'⟩])) :
    Possible env parser (front ++ [⟨v, dst, .branch value source⟩]) := by
  refine ⟨_, _, .edge htrail hrun le_rfl, ?_⟩
  obtain ⟨fs, f, u, hedge, hegress, rfl⟩ := lastConstraints_ok hrun
  obtain ⟨g, rfl, hbranch⟩ := controlEdge_branch hcompares hedge
  obtain ⟨ρ, hρ⟩ := hunhindered front _ (prefix_refl _) s n _ f u t htrail hedge hegress
    ((htrail.possible_iff henv).mp hfront)
  have hsat (b : Bool) (hb : g.eval ρ = b) :
      Satisfiable (s.extended ([.conn .iff g (.truth b)] ++ [f]) t).constraints.flatten := by
    refine ⟨ρ, fun h hmem => ?_⟩
    rw [Standing.constraints_extended, flatten_append] at hmem
    simp only [flatten_cons, flatten_nil, append_nil, mem_append, mem_singleton]
      at hmem
    rcases hmem with hmem | rfl | rfl
    · exact hρ h (mem_append_left _ hmem)
    · simp [Term.eval, Connective.eval, hb]
    · exact hρ h (by simp)
  by_cases hg : g.eval ρ = value
  · exact hsat value hg
  · -- the assignment takes the other branch, which cannot be taken
    have hg' : g.eval ρ = value' := by
      cases value <;> cases value' <;> simp_all
    have hrun' := lastConstraints_of front (hbranch dst' value' source') hegress
    exact absurd ⟨_, _, .edge htrail hrun' le_rfl, hsat value' hg'⟩ hother

end Edges

theorem Unhindered.of_fold (henv : env.Uniform) {parser : ParserPath}
    (h : ∀ k < path.length, ((replay env parser (path.take (k + 1))).toOption.all fun r =>
      r.standing.constraints.flatten.getLast?.any fun g => g.fold == some true) = true) :
    Unhindered env parser path := by
  intro front e hcut s n fs f u t htrail hedge hegress hsat
  have hedge' := Trail.edge htrail (lastConstraints_of front hedge hegress) le_rfl
  obtain ⟨r, σ, hreplay, hreplayed⟩ := hedge'.replay henv
  have himage : s.extended (fs ++ [f]) t = renum σ r.standing := hreplayed.reflects.image σ fun _ _ => rfl
  have hlast : some f = r.standing.constraints.flatten.getLast?.map (renum σ) := by
    have hflatten := congrArg (fun s : Standing => s.constraints.flatten.getLast?) himage
    simp only [Standing.constraints_extended, Standing.constraints_renum, flatten_renum,
      flatten_append] at hflatten
    rw [← List.getLast?_map]
    change _ = (renum σ r.standing.constraints.flatten).getLast?
    rw [← hflatten]
    simp
  have hfold := h front.length (hcut.length_le.trans_eq' length_append)
  have htake : path.take (front.length + 1) = front ++ [e] := by
    simpa using (prefix_iff_eq_take.mp hcut).symm
  rw [htake, hreplay] at hfold
  obtain ⟨g, hg, rfl⟩ := Option.map_eq_some_iff.mp hlast.symm
  have htrue : g.fold = some true := by simpa [Except.toOption, hg] using hfold
  obtain ⟨ρ, hρ⟩ := hsat
  refine ⟨ρ, fun f' hf' => ?_⟩
  rcases mem_append.mp hf' with hf' | hf'
  · exact hρ f' hf'
  · obtain rfl := mem_singleton.mp hf'
    rw [eval_renumber]
    exact Term.eval_of_fold _ g true htrue

end PacketSmith
