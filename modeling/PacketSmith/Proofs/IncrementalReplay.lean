import PacketSmith.Proofs.IdealSolver

/-!
# A visit leaves what a replay leaves

If constraints are kept, one path solver goes through all paths of a walk, forward and back. At every visit it has the
assertions and the context of a new path solver that follows only the path of that visit, up to the numbers of
variables. `Explore.reach` is what a walk does for its next path before the path is judged.
-/

namespace PacketSmith

open PathSolver Walk Extern

open PathSolver (replay)
open Numbered (renum)

/-- Goes back from the last path of a walk to where the next one branches off, and asserts that
one. -/
def Explore.reach (engine : Engine) (w : Walk Label ControlStep) (path : ControlPath) : Explore Unit := do
  undo (visitor engine) (w.depth + 1 - path.length)
  update push
  assertPath engine path

/-- The same formulas are asserted in the same order and the contexts are the same, up to the numbers
of variables. -/
def PathSolver.Matches (s r : PathSolver) : Prop :=
  ∃ σ : ℕ ↪o ℕ, s.formulas = renum σ r.formulas ∧ s.context = renum σ r.context

open Explore

section Visits

variable {engine : Engine} {parser : ParserPath} {path : ControlPath} {s : PathSolver}

theorem Explore.move_eq_reach
    (hcoverage : engine.options.edgeCoverage = false) (hp : w.pending = path :: rest) :
    ∃ after : Unit → Explore (Option PathModel × Walk Label ControlStep),
      move engine.graph .null (visitor engine) w = reach engine w path >>= after := by
  have hvisitor : visitor engine = pathCoverage engine := by simp [visitor, hcoverage]
  rw [move, hp]
  simp only [step, pathCoverage, reach, hvisitor, visitPath, solvePath, bind_assoc]
  exact ⟨_, rfl⟩

theorem PathSolver.Solid.matches (henv : env.Uniform) (hinc : env.options.incremental = true)
    (h : Solid env parser path s) : ∃ r, replay env parser path = .ok r ∧ s.Matches r := by
  obtain ⟨r, σ, hreplay, hreplayed⟩ := h.trail.replay henv
  have himage : s.standing = renum σ r.standing := hreplayed.reflects.image σ fun _ _ => rfl
  refine ⟨r, hreplay, σ, ?_, ?_⟩
  · calc s.formulas = s.standing.constraints.flatten := (h.layers hinc).flatten
      _ = (renum σ r.standing.constraints).flatten := by
        rw [himage, Standing.constraints_renum]
      _ = renum σ r.standing.constraints.flatten := flatten_renum σ _
      _ = renum σ r.formulas := by rw [← (hreplayed.layers hinc).flatten]; rfl
  · rw [← standing_context, himage, Standing.context_renum, standing_context]

theorem PathSolver.Solid.replay_error (henv : env.Uniform) (h : Solid env parser path s)
    (hextend : (s.push.refresh env.options).extend env (path ++ [e]) = .error f) :
    replay env parser (path ++ [e]) = .error f := by
  rw [extend_refresh env _ s fun _ => by simp [h.length_levels]] at hextend
  rcases hrun : (lastConstraints env (path ++ [e])).result (s.standing.state s.fresh)
    with ⟨f' | added, t⟩
  · rw [hrun] at hextend
    obtain rfl := Except.error.inj hextend
    exact h.trail.replay_error henv hrun
  · rw [hrun] at hextend
    cases hextend

theorem Explore.exec_reach (engine : Engine) (w : Walk Label ControlStep) (path : ControlPath)
    (x : Exploration) (p : Progress) :
    (reach engine w path).exec x p =
      ((((pop engine.options)^[w.depth + 1 - path.length] x.solver).push.refresh
        engine.options).extend engine.setting path >>= fun s => .ok (((), { x with solver := s }), p)) := by
  rw [reach, exec_bind, exec_undo]
  change ((update push >>= fun _ => assertPath engine path).exec _ _) = _
  rw [exec_update_bind, exec_assertPath]

/-- At every visit, whatever was visited and solved before, a path is asserted as a new path solver
would assert it, or fails as it would. -/
theorem visit_matches_replay (hinc : engine.options.incremental = true) (henv : engine.setting.Uniform)
    {s : PathSolver} (hs : HandedOn engine s) {w : Walk Label ControlStep} {x : Exploration}
    {found : List Finding} (hreaches : Reaches engine parser s (.walking w) x found)
    {rest : List ControlPath} (hp : w.pending = path :: rest) (p : Progress) :
    (∀ x' p', (reach engine w path).exec x p = .ok (((), x'), p') →
      ∃ r, PathSolver.replay engine.setting parser path = .ok r ∧ x'.solver.Matches r) ∧
    (∀ f, (reach engine w path).exec x p = .error f →
      PathSolver.replay engine.setting parser path = .error f) ∧
    (engine.options.edgeCoverage = false →
      ∃ after : Unit → Explore (Option PathModel × Walk Label ControlStep),
        Walk.move engine.graph .null (visitor engine) w = reach engine w path >>= after) := by
  obtain ⟨rfl, -, hready⟩ := hreaches.settled (hs.idle)
  have hsolid := hready.next hp
  obtain ⟨last, hstacked, -⟩ := hready
  obtain ⟨front, e, rfl⟩ := (List.eq_nil_or_concat' path).resolve_left (hstacked.top_ne hp)
  rw [List.dropLast_concat] at hsolid
  rw [exec_reach]
  cases hextend : PathSolver.extend engine.setting (front ++ [e])
      (((PathSolver.pop engine.options)^[w.depth + 1 - (front ++ [e]).length] x.solver).push.refresh
        engine.options) with
  | error f =>
    refine ⟨(fun x' p' hrun => nomatch hrun), fun f' hrun => ?_, fun h => move_eq_reach h hp⟩
    cases hrun
    exact hsolid.replay_error henv hextend
  | ok s' =>
    refine ⟨fun x' p' hrun => ?_, (fun f hrun => nomatch hrun), fun h => move_eq_reach h hp⟩
    cases hrun
    exact (hsolid.extend hextend).1.matches henv hinc

end Visits

/-! ## Two conditionals

A pipeline with two conditionals, one after the other. Each of them reads a field of
metadata that is part of the input, so that each visit uses up a number. -/

namespace TwoConditionals

def program : Program := Small.program [Small.metadata "m" [("f", 8), ("g", 8)]] []

def conditional (name field : String) : Label × Conditional :=
  (.text name, { (default : Conditional) with
    expression := .expression (.str "==") none (some (.field (.str "m") (.str field))) (.hexstr 1) })

def setting : Setting where
  options := { solveForMetadata := true }
  program := program
  pipeline := { (default : Pipeline) with conditionals := .ofList [conditional "c" "f", conditional "d" "g"] }
  externs := ⟨(shiftRight [2]).toOption.toList.map fun object => (.text "shifter", object)⟩

def branch (src : String) (dst : Label) (value : Bool) : ControlEdge := ⟨.text src, dst, .branch value none⟩

/-- What a run works with. The solver takes every path to be possible. -/
def engine : Engine where
  setting := setting
  solver _ := .sat fun _ _ => 0
  draw _ := 0
  graph := { out := .ofList [(.text "c", [branch "c" (.text "d") true, branch "c" (.text "d") false]),
                             (.text "d", [branch "d" .null true, branch "d" .null false])] }
  start := .text "c"
  places := {}
  switchLog _ := []

def parserPath : ParserPath := [⟨"start", "sink", .transition default⟩]

theorem uniform : setting.Uniform := by
  intro name object hobject
  change (if Label.text "shifter" = name then some _ else none) = some object at hobject
  split at hobject
  · cases hobject
    exact shiftRight_uniform (show shiftRight [2] = .ok _ from rfl)
  · cases hobject

def mixed : ControlPath := [branch "c" (.text "d") true, branch "d" .null false]

/-- The stream before a path is visited whose first conditional holds, after all those on which it
does not. -/
def halfway : Except Fault StreamState :=
  StreamState.after engine 7 { exploration := { solver := {}, parserPath := parserPath } }

/-- The number that was used last once the next path is reached, if that path is `mixed`. -/
def lastNumber (t : StreamState) : Option Nat :=
  match t.stage with
  | .walking w =>
    if w.pending.head? = some mixed then
      ((reach engine w mixed).exec t.exploration t.progress).toOption.map fun r => r.1.2.solver.fresh
    else none
  | _ => none

end TwoConditionals

theorem toOption_eq_some {e : Except ε α} : e.toOption = some a ↔ e = .ok a := by
  cases e <;> simp [Except.toOption]

open TwoConditionals in
/-- Two numbers are enough for a path of two conditionals, but four were used up before. -/
theorem visit_matches_replay_mixed :
    ∃ t w rest found x' p' r, halfway = .ok t ∧ t.stage = .walking w ∧ w.pending = mixed :: rest ∧
      engine.options.incremental = true ∧ engine.setting.Uniform ∧ HandedOn engine {} ∧
      Reaches engine parserPath {} (.walking w) t.exploration found ∧
      (reach engine w mixed).exec t.exploration t.progress = .ok (((), x'), p') ∧
      PathSolver.replay setting parserPath mixed = .ok r ∧ x'.solver.Matches r ∧
      x'.solver.fresh = 5 ∧ r.fresh = 2 := by
  have hlast : halfway.toOption.bind lastNumber = some 5 := by decide +kernel
  have hreplay : (PathSolver.replay setting parserPath mixed).toOption.map PathSolver.fresh = some 2 := by
    decide +kernel
  obtain ⟨t, ht, hlast⟩ := Option.bind_eq_some_iff.mp hlast
  obtain ⟨r, hr, hfresh⟩ := Option.map_eq_some_iff.mp hreplay
  have hhalfway : halfway = .ok t := toOption_eq_some.mp ht
  unfold lastNumber at hlast
  split at hlast
  · rename_i w hstage
    split at hlast
    · rename_i hhead
      obtain ⟨rest, hp⟩ := List.head?_eq_some_iff.mp hhead
      obtain ⟨⟨⟨⟨⟩, x'⟩, p'⟩, hrun, hlast⟩ := Option.map_eq_some_iff.mp hlast
      have hrun := toOption_eq_some.mp hrun
      obtain ⟨found, hreaches, -⟩ := Reaches.start.after hhalfway
      rw [hstage] at hreaches
      obtain ⟨r', hr', hmatches⟩ :=
        (visit_matches_replay rfl uniform .new hreaches hp t.progress).1 x' p' hrun
      obtain rfl : r = r' := by
        have := (toOption_eq_some.mp hr).symm.trans hr'
        exact Except.ok.inj this
      exact ⟨t, w, rest, _, x', p', r, hhalfway, hstage, hp, rfl, uniform, .new, hreaches, hrun, hr',
        hmatches, hlast, hfresh⟩
    · cases hlast
  · cases hlast

end PacketSmith
