import Mathlib.Data.List.Forall2
import PacketSmith.Proofs.IdealSolver
import PacketSmith.Proofs.StreamsInStep

/-!
# Runs with and without keeping constraints

A whole run gives the same whether constraints are kept or not, or ends with the same fault. This holds of every
solver, since both runs ask it the same. With random draws there has to be one solution for a path. And if one path
solver follows several parser paths in a row, what it has left asserted must not change whether a packet may take the
next one (`Undisturbed`).
-/

namespace PacketSmith

open PathSolver Explore Both Engine

open PathSolver (Akin)

section

variable {α β γ δ : Type} {engine : Engine} (keep : Bool)

/-! ## Streams -/

/-- How two streams are related. -/
structure SolutionStream.InPace (engine : Engine) (t t' : SolutionStream) : Prop where
  stage : t'.stage = t.stage
  exploration : PacketSmith.InPace engine t.exploration t'.exploration t.stage

variable {p : Progress} {t t' : SolutionStream} {found : Option Solution}
  {p' : Progress} {stage' : StreamStage}
  (hdraws : engine.options.randomize = false ∨ engine.options.maxTestCasesPerPath = some 1)

include hdraws in
theorem advance_matched (fuel : Nat) (h : InPace engine x x' stage) : Explore.Matched (fun r y y' => InPace engine y y' r.2)
    ((SolutionStream.advance engine.kept fuel stage).exec x p)
    ((SolutionStream.advance engine.lax fuel stage).exec x' p) := by
  induction fuel generalizing stage x x' p with
  | zero => exact .of_ok h
  | succ fuel ih =>
    refine Explore.Matched.bind (step_matched hdraws h) fun r y y' q hy => ?_
    obtain ⟨found, stage⟩ := r
    cases found with
    | some s => exact .of_ok hy
    | none =>
      cases stage with
      | ended => exact .of_ok hy
      | waiting | walking w | yielded w m n => exact ih hy

theorem next_run (engine : Engine) (t : SolutionStream) (p : Progress) : (t.next engine).run p =
      (SolutionStream.advance engine (SolutionStream.stepLimit engine) t.stage).exec t.exploration p >>=
        fun r => .ok ((r.1.1.1, ⟨r.1.2, r.1.1.2⟩), r.2) := rfl

include hdraws in
theorem next_both (h : t.InPace engine t') : Both (fun r r' => r'.1.1 = r.1.1 ∧ r'.2 = r.2 ∧ r.1.2.InPace engine r'.1.2)
    ((t.next engine.kept).run p) ((t'.next engine.lax).run p) := by
  rw [next_run, next_run, h.stage]
  refine bind (advance_matched hdraws (SolutionStream.stepLimit engine) h.exploration)
    fun r r' hr => ?_
  cases hr with
  | mk related => exact .ok ⟨rfl, rfl, rfl, related⟩

theorem Steps.not_waiting (h : Steps engine x p stage found stage' x' p') : stage' ≠ .waiting := by
  cases h with
  | begins begins => cases begins <;> simp
  | moves => split <;> simp
  | solves | leaves => simp
  | @continues _ _ _ found => cases found <;> simp
  | rests => simp

theorem Advances.not_waiting (h : Advances engine x p stage found stage' x' p') : stage' ≠ .waiting := by
  induction h with
  | last step => exact step.not_waiting
  | more step rest ih => exact ih

theorem SolutionStream.InPace.numbered (h : t.InPace engine t') (ht : t.stage ≠ .waiting) (n : Nat) :
    (t.numberedFrom n).InPace engine (t'.numberedFrom n) := by
  obtain ⟨x, stage⟩ := t
  obtain ⟨x', stage'⟩ := t'
  obtain ⟨hstage, hx⟩ := h
  refine ⟨hstage, ?_⟩
  cases stage with
  | waiting => exact absurd rfl ht
  | walking w =>
    obtain ⟨hended, hpoised, s', rfl, frames, answer, rfl⟩ := hx
    exact ⟨hended, hpoised.counted n, _, rfl, frames, answer, rfl⟩
  | yielded w m k =>
    obtain ⟨hended, ⟨last, hstacked, hslack⟩, hdraws, s', rfl, ⟨frames, answer, rfl⟩, hanswer, hformulas⟩ := hx
    refine ⟨hended, ⟨last, hstacked, ?_⟩, hdraws, _, rfl, ⟨frames, answer, rfl⟩, hanswer, ?_⟩
    · change Explore.Slack _ w last (released _ m { x.solver with fresh := n })
      rw [released_counted]
      exact ⟨hslack.ne, hslack.depth, ⟨hslack.below.depth, hslack.below.layers, hslack.below.undrawn⟩, hslack.short,
        hslack.undrawn⟩
    · intro hrandom
      have hsame (engine : Engine) (s : PathSolver) :
          (released engine m { s with fresh := n }).formulas = (released engine m s).formulas := by
        rw [released_counted]
        rfl
      exact (hsame _ _).trans ((hformulas hrandom).trans (hsame _ _).symm)
  | ended =>
    obtain ⟨s', rfl, ⟨frames, answer, rfl⟩, hidle⟩ := hx
    exact ⟨_, rfl, ⟨frames, answer, rfl⟩, hidle.levels, hidle.below⟩

theorem SolutionStream.InPace.handed (h : t.InPace engine t') : Akin t.exploration.solver t'.exploration.solver ∧
    (t.exploration.solver.levels = [] → t.exploration.solver.Idle engine.kept.options) := by
  have hx := h.exploration
  cases hstage : t.stage with
  | waiting =>
    rw [hstage] at hx
    obtain ⟨s', hs', hakin, hidle, -⟩ := hx
    rw [hs']
    exact ⟨hakin, hidle⟩
  | walking w =>
    rw [hstage] at hx
    obtain ⟨-, ⟨last, hstacked, hdepth, halong⟩, s', hs', hakin⟩ := hx
    rw [hs']
    refine ⟨hakin, fun hlevels => ?_⟩
    obtain rfl : last = [] := by
      rw [hlevels] at hdepth
      exact List.length_eq_zero_iff.mp hdepth.symm
    rcases halong with hlayered | ⟨hne, -⟩
    · exact hlayered.idle
    · exact absurd rfl hne
  | yielded w m n =>
    rw [hstage] at hx
    obtain ⟨-, ⟨last, -, hslack⟩, -, s', hs', hakin, -⟩ := hx
    rw [hs']
    refine ⟨hakin, fun hlevels => ?_⟩
    have hdepth := hslack.depth
    have hpos := List.length_pos_iff.mpr hslack.ne
    have hnone : (released engine.kept m t.exploration.solver).levels = [] := by
      unfold released
      split
      · rw [pop, hlevels]
        rfl
      · exact hlevels
    rw [hnone] at hdepth
    exact absurd hdepth (by simp; omega)
  | ended =>
    rw [hstage] at hx
    obtain ⟨s', hs', hakin, hidle⟩ := hx
    rw [hs']
    exact ⟨hakin, fun _ => hidle⟩

/-! ## Taking solutions -/

theorem Batch.tie_solving (o : Options) (keep tables branches : Bool) (entries : List (Label × Label × SharedEntry))
    (b : Batch) : b.tie (o.solving keep tables branches) entries = b.tie o entries := by
  induction entries generalizing b with
  | nil => rfl
  | cons entry rest ih =>
    simp only [tie, ih]
    rfl

theorem Batch.writeAll_keeping (commands : List TableCommand) (ρ : Assignment) (paths : List BatchPath)
    : writeAll (engine.keeping keep) commands ρ paths = writeAll engine commands ρ paths := by
  induction paths with
  | nil => rfl
  | cons p rest ih =>
    simp only [writeAll, ih]
    rfl

theorem Batch.flush_keeping (b : Batch) : b.flush (engine.keeping keep) = b.flush engine := by
  simp only [flush, writeAll_keeping]
  rfl

theorem Batch.add_keeping (s : Solution) (b : Batch) : b.add (engine.keeping keep) s = b.add engine s := by
  have hattempt (p : BatchPath) (entries : List (Label × Label × SharedEntry)) (b : Batch) :
      b.attempt (engine.keeping keep) p entries = b.attempt engine p entries := by
    simp only [attempt, options, keeping, solving, Setting.solving, tie_solving]
    rfl
  simp only [add, flushFull, place, flush_keeping, hattempt]
  rfl

namespace Produce

theorem take_keeping (s : Solution) : take (engine.keeping keep) s = take engine s := by
  simp only [take, Batch.add_keeping]
  rfl

def exec (m : Produce α) (g : Generation) (p : Progress) : Except Fault ((α × Generation) × Progress) := (m.run g).run p

theorem exec_bind (m : Produce α) (f : α → Produce β) (g : Generation) (p : Progress) :
    (m >>= f).exec g p = m.exec g p >>= fun r => (f r.1.1).exec r.1.2 r.2 := rfl

theorem exec_next_bind (engine : Engine) (t : SolutionStream)
    (f : Option Solution × SolutionStream → Produce α) (g : Generation) (p : Progress) :
    ((liftM (t.next engine) : Produce _) >>= f).exec g p = (t.next engine).run p
      >>= fun r => (f r.1).exec g r.2 := by
  change ((t.next engine).run p >>= _) >>= _ = _
  cases (t.next engine).run p <;> rfl

/-- The same records and the same state of a run, with values that are related. -/
inductive Abreast (Q : α → β → Prop) : (α × Generation) × Progress → (β × Generation) × Progress → Prop where
  | mk {a : α} {b : β} {g : Generation} {p : Progress} (related : Q a b) : Abreast Q ((a, g), p) ((b, g), p)

/-- Two steps of a run: the same fault, or the same records and values that are related. -/
abbrev Matched (Q : α → β → Prop) :
    Except Fault ((α × Generation) × Progress) → Except Fault ((β × Generation) × Progress) → Prop :=
  Both (Abreast Q)

theorem Matched.bind {f : α → Produce γ} {f' : β → Produce δ} (h : Matched Q (m.exec g p) (m'.exec g p))
    (hf : ∀ a b g p, Q a b → Matched T ((f a).exec g p) ((f' b).exec g p)) : Matched T ((m >>= f).exec g p)
    ((m' >>= f').exec g p) := by
  refine Both.bind h fun r r' hr => ?_
  cases hr with
  | mk related => exact hf _ _ _ _ related

theorem Matched.refl (m : Produce α) (g : Generation) (p : Progress) : Matched Eq (m.exec g p) (m.exec g p) :=
  Both.refl (fun _ => .mk rfl) _

theorem Matched.eq (h : Matched Eq r r') : r = r' := by
  refine (h.mono fun a b hab => ?_).eq
  cases hab with
  | mk related => rw [related]

include hdraws in
theorem drain_matched (fuel : Nat) (h : t.InPace engine t') : Matched (fun r r' => r'.1 = r.1 ∧ r.2.InPace engine r'.2)
    ((drain engine.kept fuel t).exec g p) ((drain engine.lax fuel t').exec g p) := by
  induction fuel generalizing t t' g p with
  | zero => exact .error _
  | succ fuel ih =>
    unfold drain takeFrom
    rw [exec_next_bind, exec_next_bind]
    refine bind (next_both hdraws h) fun r r' hr => ?_
    obtain ⟨⟨found, u⟩, q⟩ := r
    obtain ⟨⟨found', u'⟩, q'⟩ := r'
    obtain ⟨hfound, hq, hu⟩ := hr
    subst hfound hq
    cases found' with
    | none => exact .ok (.mk ⟨rfl, hu⟩)
    | some s =>
      dsimp only
      rw [take_keeping, take_keeping]
      refine Matched.bind (Matched.refl _ g q') fun _ _ g p _ => ?_
      refine Matched.bind (Matched.refl _ g p) fun full full' g p hfull => ?_
      subst hfull
      split
      · exact .ok (.mk ⟨rfl, hu⟩)
      · exact ih hu

end Produce

/-! ## Parser paths in a row and in turns -/

/-- At no parser path of a row does it matter what earlier ones have left asserted. -/
def Undisturbed (engine : Engine) : PathSolver → List ParserPath → Generation → Progress → Prop
  | _, [], _, _ => True
  | s, path :: rest, g, p =>
    s.Unhampered engine path ∧ ∀ t g' p',
      (Produce.drain engine Produce.solutionLimit (SolutionStream.of path s)).exec g
          { p with statistics := p.statistics.countParserPath path } = .ok (((false, t), g'), p') →
        Undisturbed engine t.exploration.solver rest g' p'

instance (engine : Engine) (path : ParserPath) (s : PathSolver) : Decidable (s.Unhampered engine path) :=
  match h : s.start engine.setting path with
  | .error _ => isTrue (by rintro t hstart; cases h.symm.trans hstart)
  | .ok (false, _) => isTrue (by rintro t hstart; cases h.symm.trans hstart)
  | .ok (true, t) =>
    decidable_of_iff ((engine.solver t.formulas).isSat = (engine.solver t.base.constraints).isSat)
      ⟨by rintro halone u hstart; cases h.symm.trans hstart; exact halone, fun halone => halone t h⟩

/-- Whether a row is undisturbed is found out by taking it. -/
def Undisturbed.decide (engine : Engine) : ∀ s paths g p, Decidable (Undisturbed engine s paths g p)
  | _, [], _, _ => isTrue trivial
  | s, path :: rest, g, p =>
    match h : (Produce.drain engine Produce.solutionLimit (SolutionStream.of path s)).exec g
        { p with statistics := p.statistics.countParserPath path } with
    | .error _ => decidable_of_iff (s.Unhampered engine path)
        ⟨fun hpath => ⟨hpath, by rintro t g' p' hrun; cases h.symm.trans hrun⟩, And.left⟩
    | .ok (((true, _), _), _) => decidable_of_iff (s.Unhampered engine path)
        ⟨fun hpath => ⟨hpath, by rintro t g' p' hrun; cases h.symm.trans hrun⟩, And.left⟩
    | .ok (((false, t), g'), p') =>
      have := Undisturbed.decide engine t.exploration.solver rest g' p'
      decidable_of_iff (s.Unhampered engine path ∧ Undisturbed engine t.exploration.solver rest g' p')
        ⟨fun hrest => ⟨hrest.1, by rintro u g'' p'' hrun; cases h.symm.trans hrun; exact hrest.2⟩,
          fun hrow => ⟨hrow.1, hrow.2 t g' p' h⟩⟩

instance (engine : Engine) (s : PathSolver) (paths : List ParserPath) (g : Generation) (p : Progress) :
    Decidable (Undisturbed engine s paths g p) := Undisturbed.decide engine s paths g p

theorem PathSolver.unhampered_new (engine : Engine) (path : ParserPath) (n : Nat) :
    ({ fresh := n } : PathSolver).Unhampered engine path := by
  intro t hstart
  obtain ⟨-, ctx, u, -, ⟨hfalse, -⟩ | ⟨fs, -, rfl, -⟩⟩ := start_ok hstart
  · cases hfalse
  · have hformulas : (({ fresh := n } : PathSolver).begun engine.options fs u).formulas = fs := by
      unfold begun renew
      split <;> simp [formulas, assert]
    rw [hformulas]
    rfl

theorem undisturbed_single (engine : Engine) (h : paths.length ≤ 1)
    (g : Generation) (p : Progress) : Undisturbed engine {} paths g p := by
  cases paths with
  | nil => trivial
  | cons path rest =>
    obtain rfl : rest = [] := List.length_eq_zero_iff.mp (by simpa using h)
    exact ⟨PathSolver.unhampered_new engine path 0, fun _ _ _ _ => trivial⟩

theorem SolutionStream.inPace_of (h : Akin s s')
    (hidle : s.levels = [] → s.Idle engine.kept.options) (halone : s'.Unhampered engine.lax path) :
    (SolutionStream.of path s).InPace engine (SolutionStream.of path s') :=
  ⟨rfl, s', rfl, h, hidle, halone⟩

namespace Produce

include hdraws in
theorem inRow_matched (paths : List ParserPath) (h : Akin s s')
    (hidle : s.levels = [] → s.Idle engine.kept.options) (halone : Undisturbed engine.lax s' paths g p) :
    Matched Eq ((inRow engine.kept s paths).exec g p) ((inRow engine.lax s' paths).exec g p) := by
  induction paths generalizing s s' g p with
  | nil => exact .ok (.mk rfl)
  | cons path rest ih =>
    obtain ⟨hpath, hrest⟩ := halone
    have hdrain := (drain_matched (g := g)
      (p := { p with statistics := p.statistics.countParserPath path }) hdraws solutionLimit
      (SolutionStream.inPace_of h hidle hpath)).results
    refine bind hdrain fun r r' hr => ?_
    obtain ⟨-, hrun, hmatch⟩ := hr
    cases hmatch with
    | @mk a b g' p' related =>
      obtain ⟨full, t⟩ := a
      obtain ⟨full', t'⟩ := b
      obtain ⟨hfull, ht⟩ := related
      subst hfull
      cases full' with
      | true => exact .ok (.mk rfl)
      | false => exact ih ht.handed.1 ht.handed.2 (hrest t' g' p' hrun)

include hdraws in
theorem inTurns_matched (fuel fresh : Nat)
    (h : List.Forall₂ (fun t t' => ∀ n, (t.numberedFrom n).InPace engine (t'.numberedFrom n)) ts ts') :
    Matched Eq ((inTurns engine.kept fuel fresh ts).exec g p)
      ((inTurns engine.lax fuel fresh ts').exec g p) := by
  induction fuel generalizing fresh ts ts' g p with
  | zero =>
    cases h with
    | nil => exact .ok (.mk rfl)
    | cons => exact .error _
  | succ fuel ih =>
    cases h with
    | nil => exact .ok (.mk rfl)
    | @cons t t' ts ts' ht hts =>
      unfold inTurns
      rw [exec_next_bind, exec_next_bind]
      refine bind (next_both hdraws (ht fresh)).results fun r r' hr => ?_
      obtain ⟨⟨found, u⟩, q⟩ := r
      obtain ⟨⟨found', u'⟩, q'⟩ := r'
      obtain ⟨hrun, -, hfound, hq, hu⟩ := hr
      subst hfound hq
      have hfresh : u'.exploration.solver.fresh = u.exploration.solver.fresh := by
        obtain ⟨frames, answer, hsolver⟩ := hu.handed.1
        rw [hsolver]
      cases found' with
      | none =>
        dsimp only
        rw [hfresh]
        exact ih _ hts
      | some s =>
        dsimp only
        rw [take_keeping, take_keeping]
        refine Matched.bind (Matched.refl _ g q') fun _ _ g p _ => ?_
        refine Matched.bind (Matched.refl _ g p) fun full full' g p hfull => ?_
        subst hfull
        split
        · exact .ok (.mk rfl)
        · rw [hfresh]
          exact ih _ (List.rel_append hts (.cons (hu.numbered ((SolutionStream.advances_of_next hrun).not_waiting)) .nil))

theorem leave_keeping : leave (engine.keeping keep) = leave engine := by
  simp only [leave, Batch.flush_keeping]

end Produce

end

def parserVerdicts (engine : Engine) (paths : List ParserPath) : Option (List Bool) :=
  match ((Produce.all engine paths).run { batch := none }).run {} with
  | .ok (_, p) => some (p.findings.reverse.filterMap fun
    | .parser _ possible => some possible
    | .control _ => none)
  | .error _ => none

/-! A parser that reads nothing and goes by the port at which the packet arrives. -/
namespace PortParser

def transition (value : Option Int) : Transition := ⟨.text "hexstr", .null, value, none⟩

def program (values : List (Option Int)) : Program :=
  { Small.program [Small.metadata "standard_metadata" [("ingress_port", 9), ("egress_spec", 9)]] [] with
    parsers := .ofList [("parser", {
      name := "parser", id := 0, initState := "start"
      states := .ofList [("start", { (default : ParseState) with
        name := "start"
        transitions := values.map transition
        key := [.field (.str "standard_metadata") (.str "ingress_port")] })] })] }

def path (value : Option Int) : ParserPath := [⟨"start", "sink", .transition (transition value)⟩]

def portZero : Assignment := fun name _ => if name = "$ingress_port$" then 0 else 1

/-- What a run works with. The pipeline does nothing. -/
noncomputable def engine (values : List (Option Int)) : Engine :=
  { Small.engine ⟨{}, program values, default, {}⟩ "start"
      [(.text "start", [⟨.text "start", .null, .noop⟩])] with
    solver := .ideal [Small.ones, portZero] }

/-- The port is compared in sixteen bits, so the second value is never the first one to agree. -/
noncomputable def shadowed : Engine := engine [some 1, some 65537, none]

end PortParser

open Produce in
/-- A run without keeping constraints gives what a run with keeping them gives: the same paths with
the same outcomes in the same order, the same test cases and counts, or the same fault. -/
theorem dropping_agrees_with_keeping (engine : Engine)
    (hdraws : engine.options.randomize = false ∨ engine.options.maxTestCasesPerPath = some 1)
    (paths : List ParserPath) (g : Generation) (p : Progress)
    (hpaths : engine.options.roundRobinParserPaths = true ∨ paths.length ≤ 1 ∨
      Undisturbed (engine.keeping false) {} paths g p) :
    ((all (engine.keeping false) paths).run g).run p = ((all (engine.keeping true) paths).run g).run p := by
  have hnew : ({} : PathSolver).levels = [] → ({} : PathSolver).Idle (engine.keeping true).options :=
    fun _ => PathSolver.idle_new _
  -- What is left in the batch is written in the same way.
  have hrest (m m' : Produce Unit) (h : Matched Eq (m.exec g p) (m'.exec g p)) :
      Matched Eq ((m >>= fun _ => leave (engine.keeping true)).exec g p)
        ((m' >>= fun _ => leave (engine.keeping false)).exec g p) := by
    refine Matched.bind h fun _ _ g p _ => ?_
    rw [leave_keeping, leave_keeping]
    exact Matched.refl _ g p
  refine (Matched.eq (r := (all (engine.keeping true) paths).exec g p) ?_).symm
  refine hrest _ _ ?_
  change Matched Eq ((if engine.options.roundRobinParserPaths then _ else _ : Produce Unit).exec g p)
      ((if engine.options.roundRobinParserPaths then _ else _ : Produce Unit).exec g p)
  split
  case isTrue =>
    refine Matched.bind (Matched.refl _ g p) fun _ _ g p _ => ?_
    refine inTurns_matched hdraws solutionLimit 0 ?_
    rw [List.forall₂_map_left_iff, List.forall₂_map_right_iff, List.forall₂_same]
    intro path _ n
    exact SolutionStream.inPace_of (.refl _) (fun _ => ⟨rfl, fun _ => rfl⟩) (PathSolver.unhampered_new _ path n)
  case isFalse hturns =>
    have halone : Undisturbed (engine.keeping false) {} paths g p :=
      (hpaths.resolve_left hturns).elim (fun hshort => undisturbed_single _ hshort g p) id
    exact inRow_matched hdraws paths (.refl _) hnew halone

open PortParser in
/-- The path of a transition that is never taken leaves nothing behind. -/
theorem dropping_agrees_with_keeping_shadowed :
    shadowed.options.randomize = false ∧
      Undisturbed (shadowed.keeping false) {} [path (some 65537), path none] { batch := none } {} ∧
      parserVerdicts (shadowed.keeping true) [path (some 65537), path none] = some [false, true] ∧
      ((Produce.all (shadowed.keeping false) [path (some 65537), path none]).run
          { batch := none }).run {} =
        ((Produce.all (shadowed.keeping true) [path (some 65537), path none]).run
          { batch := none }).run {} := by
  have halone : Undisturbed (shadowed.keeping false) {} [path (some 65537), path none]
      { batch := none } {} := by decide +kernel
  exact ⟨rfl, halone, by decide +kernel,
    dropping_agrees_with_keeping shadowed (.inl rfl) _ _ _ (.inr (.inr halone))⟩

open PortParser in
/-- The first parser path leaves asserted that the port is not one, and the second one is refused. -/
theorem dropping_refuses_second_parser_path :
    (engine [some 1, none]).solver.Decides ∧ (engine [some 1, none]).options.randomize = false ∧
      parserVerdicts ((engine [some 1, none]).keeping true) [path none, path (some 1)] =
        some [true, true] ∧
      parserVerdicts ((engine [some 1, none]).keeping false) [path none, path (some 1)] =
        some [true, false] :=
  ⟨Solver.ideal_decides _, rfl, by decide +kernel, by decide +kernel⟩

end PacketSmith
