import PacketSmith.Proofs.Feasible

/-!
# A solver that decides

There is a solver whose answers are right and that never gives up. Many of its answers can be computed: some
assignments are tried first, and then a formula is looked for that is false or stands beside one that it denies.
`Small` has what programs for runs with it are put together from.
-/

namespace PacketSmith

open List

namespace Term

theorem eq_of_same (a : Term k) (b : Term k') (h : a.same b = true) : k = k' ∧ a ≍ b := by
  induction a generalizing k' with
  | const x =>
    cases b <;> simp [same] at h
    obtain ⟨rfl, hx⟩ := h
    obtain rfl := BitVec.eq_of_toNat_eq hx
    exact ⟨rfl, .rfl⟩
  | _ =>
    cases b <;> simp [same] at h
    grind

end Term

namespace Solver

variable (tries : List Assignment)

/-- Whether a formula says that another one is false. -/
def denies : Formula → Formula → Bool
  | .not g, h => h.same g
  | .conn .iff g (.truth false), h => h.same g
  | _, _ => false

/-- Whether a formula is seen to be false, or stands beside one that it denies. -/
def contradicts (fs : List Formula) : Bool :=
  fs.any (fun f => f.fold == some false) || fs.any fun f => fs.any (denies f)

theorem eval_of_denies {f h : Formula} (hdenies : denies f h = true) {ρ : Assignment} (hf : f.eval ρ = true) :
    h.eval ρ = false := by
  unfold denies at hdenies
  split at hdenies
  · obtain ⟨-, rfl⟩ := Term.eq_of_same _ _ hdenies
    simpa [Term.eval] using hf
  · obtain ⟨-, rfl⟩ := Term.eq_of_same _ _ hdenies
    simpa [Term.eval, Connective.eval] using hf
  · cases hdenies

theorem not_satisfiable_of_contradicts (h : contradicts fs = true) : ¬ Satisfiable fs := by
  rintro ⟨ρ, hρ⟩
  rcases Bool.or_eq_true_iff.mp h with hany | hany
  · obtain ⟨f, hf, hfold⟩ := any_eq_true.mp hany
    have hfalse : f.eval ρ = false := Term.eval_of_fold ρ f false (beq_iff_eq.mp hfold)
    exact Bool.false_ne_true (hfalse.symm.trans (hρ f hf))
  · obtain ⟨f, hf, hmatch⟩ := any_eq_true.mp hany
    obtain ⟨h, hh, hdenies⟩ := any_eq_true.mp hmatch
    exact Bool.false_ne_true ((eval_of_denies hdenies (hρ f hf)).symm.trans (hρ h hh))

open Classical in
noncomputable def ideal : Solver := fun fs =>
  match tries.find? fun ρ => fs.all fun f => f.eval ρ with
  | some ρ => .sat ρ
  | none =>
    if contradicts fs then .unsat
    else if h : Satisfiable fs then .sat h.choose else .unsat

theorem ideal_cases (fs : List Formula) :
    (∃ ρ : Assignment, ideal tries fs = .sat ρ ∧ ρ.Satisfies fs) ∨ ideal tries fs = .unsat ∧ ¬ Satisfiable fs := by
  unfold ideal
  split
  · rename_i ρ hfind
    refine .inl ⟨ρ, rfl, fun f hf => ?_⟩
    have hall := List.find?_some hfind
    exact all_eq_true.mp hall f hf
  · split
    · exact .inr ⟨rfl, not_satisfiable_of_contradicts ‹_›⟩
    · split
      · rename_i h
        exact .inl ⟨h.choose, rfl, h.choose_spec⟩
      · exact .inr ⟨rfl, ‹_›⟩

theorem ideal_decides : (ideal tries).Decides := by
  refine ⟨fun fs => ⟨fun ρ hsat => ?_, fun hunsat ρ hρ => ?_⟩, fun fs hunknown => ?_⟩
  · rcases ideal_cases tries fs with ⟨ρ', hρ', hsatisfies⟩ | ⟨hunsat, -⟩
    · obtain rfl := Answer.sat.inj (hsat.symm.trans hρ')
      exact hsatisfies
    · cases hsat.symm.trans hunsat
  · rcases ideal_cases tries fs with ⟨ρ', hρ', -⟩ | ⟨-, hnone⟩
    · cases hunsat.symm.trans hρ'
    · exact hnone ⟨ρ, hρ⟩
  · rcases ideal_cases tries fs with ⟨ρ', hρ', -⟩ | ⟨hunsat, -⟩
    · cases hunknown.symm.trans hρ'
    · cases hunknown.symm.trans hunsat

end Solver

/-! ## Computed runs -/

def Engine.findings? (engine : Engine) (parser : ParserPath) (s : PathSolver) (steps : Nat) : Option (List Finding) :=
  match StreamState.after engine steps { exploration := { solver := s, parserPath := parser } } with
  | .ok ⟨.ended, _, p⟩ => some p.findings
  | _ => none

variable {parser : ParserPath}

theorem reaches_of_findings {engine : Engine}
    (h : engine.findings? parser s steps = some found) : ∃ x, Reaches engine parser s .ended x found := by
  unfold Engine.findings? at h
  split at h
  · rename_i x p hrun
    obtain ⟨new, hreaches, hnew⟩ := Reaches.start.after hrun
    obtain rfl : p.findings = found := Option.some.inj h
    obtain rfl : new = p.findings := by simpa using hnew.symm
    exact ⟨x, by simpa using hreaches⟩
  · cases h

theorem feasible_of_eval (ρ : Assignment) (h : ((PathSolver.replay env parser path).toOption.any fun r =>
      r.standing.constraints.flatten.all (fun f => f.eval ρ) && r.standing.context.uninitializedReads.isEmpty
      && r.standing.context.invalidWrites.isEmpty) = true) : Feasible env parser path := by
  cases hreplay : PathSolver.replay env parser path with
  | error f => simp [hreplay, Except.toOption] at h
  | ok r =>
    simp only [hreplay, Except.toOption, Option.any_some, Bool.and_eq_true, List.isEmpty_iff,
      all_eq_true] at h
    exact ⟨r, hreplay, ⟨ρ, h.1.1⟩, h.1.2, h.2⟩

/-! ## Small programs -/

namespace Small

def metadata (name : String) (fields : List (String × Int)) : String × Header :=
  (name, { name := name, id := 0, typeName := name, metadata := true, piOmit := false
           fields := .ofList (fields.map fun f => (f.1, { name := f.1, size := some f.2 })) })

def program (headers : List (String × Header)) (actions : List Action) : Program where
  source := none
  about := none
  headerTypes := {}
  headers := .ofList headers
  headerStacks := {}
  errors := ⟨.ofList [(0, .text "NoError")], .ofList [(.text "NoError", 0)]⟩
  parsers := .ofList [("parser", { name := "parser", id := 0, initState := "start"
                                   states := .ofList [("start", default)] })]
  actions := .ofList (actions.map fun a => ((a.name, a.id), a))
  pipelines := {}
  externs := {}

def parserPath : ParserPath := [⟨"start", "sink", .transition default⟩]

def action (name : String) (primitives : List PrimitiveCall) : Action := ⟨.text name, 0, [], primitives⟩

def edge (table action : String) (dst : Label) : ControlEdge :=
  ⟨.text table, dst, .action (.text action) 0 default⟩

def assign (header field : String) (n : Int) : PrimitiveCall :=
  ⟨.str "assign", [.field (.str header) (.str field), .hexstr n], none⟩

def pipeline (tables : List String) (conditionals : List (Label × Conditional)) : Pipeline :=
  { (default : Pipeline) with
    tables := .ofList (tables.map fun name =>
      (.text name, { (default : Table) with name := .text name, matchType := .str "exact" }))
    conditionals := .ofList conditionals }

def ones : Assignment := fun _ _ => 1

noncomputable def engine (setting : Setting) (start : String) (edges : List (Label × List ControlEdge)) : Engine where
  setting := setting
  solver := .ideal [ones]
  draw _ := 0
  graph := { out := .ofList edges }
  start := .text start
  places := {}
  switchLog _ := []

theorem uniform {env : Setting} (h : env.externs = {}) : env.Uniform := by
  intro name object hobject
  rw [h] at hobject
  cases hobject

end Small

end PacketSmith
