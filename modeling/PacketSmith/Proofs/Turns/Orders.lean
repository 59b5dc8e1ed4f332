import PacketSmith.Proofs.Turns.Unison

/-!
# What each parser path has done

A run is made of turns: a stream goes on to its next solution, and the solution is taken. In a row the turns of a
parser path come one after the other, and in turns those of other parser paths come in between. Either way what a
run has recorded about a parser path are the turns of its stream, in their order (`Logged`), and the turns
are the same for any two streams of the parser path (`SolutionStream.Takes.unique`).
-/

namespace PacketSmith

open List SolutionStream
open Function (update_of_ne update_self)
open Explore

/-! ## Turns -/

/-- What a stream does when it has its turn: the path that it gives a solution of, if any, and what it finds out. -/
structure Turn where
  control : Option ControlPath
  found : List Finding

namespace SolutionStream

variable {engine : Engine} {t u t' u' : SolutionStream} {p p' q q' : Progress} {found found' : Option Solution}
  {s : PathSolver}

/-- The turns of a stream to its end. Between them other streams may number variables. -/
inductive Takes (engine : Engine) : SolutionStream → List Turn → Prop where
  | last {t u : SolutionStream} {n : Nat} {p p' : Progress} {found : List Finding}
    (later : t.exploration.solver.fresh ≤ n) (next : ((t.numberedFrom n).next engine).run p = .ok ((none, u), p'))
    (finds : p'.findings = found ++ p.findings) : Takes engine t [⟨none, found⟩]
  | more {t u : SolutionStream} {n : Nat} {p p' : Progress} {found : List Finding} {s : Solution} {turns : List Turn}
    (later : t.exploration.solver.fresh ≤ n) (next : ((t.numberedFrom n).next engine).run p = .ok ((some s, u), p'))
    (finds : p'.findings = found ++ p.findings) (rest : Takes engine u turns) :
    Takes engine t (⟨some s.path.control, found⟩ :: turns)

/-- Two streams have come equally far. -/
def InUnison (engine : Engine) (t u : SolutionStream) : Prop :=
  Unison engine t.exploration u.exploration t.stage u.stage

theorem InUnison.next (hengine : engine.Steady)
    (hu : t.InUnison engine u) (h : (t.next engine).run p = .ok ((found, t'), p'))
    (h' : (u.next engine).run q = .ok ((found', u'), q')) :
    t'.InUnison engine u' ∧ found'.map (·.path.control) = found.map (·.path.control) ∧
      ∃ new, p'.findings = new ++ p.findings ∧ q'.findings = new ++ q.findings := by
  obtain ⟨hlater, hsome, hnew⟩ := Unison.advance hengine hu (next_ok h) (next_ok h')
  refine ⟨hlater, ?_, hnew⟩
  obtain ⟨-, hpath⟩ := (advances_of_next h).numbers
  obtain ⟨-, hpath'⟩ := (advances_of_next h').numbers
  cases found with
  | none =>
    obtain rfl : found' = none := by simpa using hsome
    rfl
  | some s =>
    obtain ⟨s', rfl⟩ := Option.isSome_iff_exists.mp hsome
    have hs := hpath s rfl
    have hs' := hpath' s' rfl
    have hsame := hlater.same
    generalize t'.stage = stage at hs hsame
    generalize u'.stage = stage' at hs' hsame
    cases hsame with
    | yielded like =>
      rw [Option.map_some, Option.map_some, ← Option.some.inj hs, ← Option.some.inj hs', like.control]
    | waiting | walking | ended => cases hs

theorem InUnison.counted (h : t.InUnison engine u) (hn : t.exploration.solver.fresh ≤ n)
    (hn' : u.exploration.solver.fresh ≤ n') : (t.numberedFrom n).InUnison engine (u.numberedFrom n') :=
  Unison.counted h hn hn'

theorem Takes.unique (hengine : engine.Steady) {turns turns' : List Turn} (hu : t.InUnison engine u)
    (h : Takes engine t turns) (h' : Takes engine u turns') : turns' = turns := by
  induction h generalizing u turns' with
  | last later next finds =>
    cases h' with
    | last later' next' finds' =>
      obtain ⟨-, -, new, hnew, hnew'⟩ := (hu.counted later later').next hengine next next'
      rw [append_cancel_right (finds.symm.trans hnew), append_cancel_right (finds'.symm.trans hnew')]
    | more later' next' =>
      obtain ⟨-, hsolution, -⟩ := (hu.counted later later').next hengine next next'
      cases hsolution
  | more later next finds rest ih =>
    cases h' with
    | last later' next' =>
      obtain ⟨-, hsolution, -⟩ := (hu.counted later later').next hengine next next'
      cases hsolution
    | more later' next' finds' rest' =>
      obtain ⟨hlater, hsolution, new, hnew, hnew'⟩ := (hu.counted later later').next hengine next next'
      rw [append_cancel_right (finds.symm.trans hnew), append_cancel_right (finds'.symm.trans hnew'),
        ih hlater rest']
      exact congrArg (fun control => Turn.mk control new :: _) hsolution

theorem InUnison.idle (hu : t.InUnison engine u) (h : t.exploration.solver.levels = []) :
    t.exploration.solver.Idle engine.options := by
  obtain ⟨x, stage⟩ := t
  obtain ⟨y, stage'⟩ := u
  obtain ⟨hsettled, -, -, hsame⟩ := hu
  cases hsame with
  | waiting => exact hsettled
  | walking outcomes depth =>
    obtain ⟨-, last, hstacked, hlast⟩ := hsettled
    have hnil : last = [] := by
      rw [← length_eq_zero_iff, ← hstacked.depth, ← depth, h, length_nil]
    rcases hlast with hsolid | hloose
    · exact (hnil ▸ hsolid).idle
    · exact absurd hnil hloose.ne
  | @yielded w m m' n like depth peers opens =>
    obtain ⟨-, last, hstacked, hloose⟩ := hsettled
    have hreleased : (released engine m x.solver).levels = [] := by
      unfold released
      split
      · exact congrArg List.tail h
      · exact h
    have hnil : last = [] := by
      rw [← length_eq_zero_iff, ← hstacked.depth, ← depth, ← peers.depth, hreleased, length_nil]
    exact absurd hnil hloose.ne
  | ended => exact hsettled

end SolutionStream

def SolutionStream.Own (t : SolutionStream) : Prop :=
  ∀ q, t.stage.current = some q → q.parser = t.exploration.parserPath

theorem SolutionStream.Own.next {engine : Engine} {t u : SolutionStream} (ht : t.Own)
    (h : (t.next engine).run p = .ok ((found, u), p')) : u.Own ∧ u.exploration.parserPath = t.exploration.parserPath ∧
    ∀ s, found = some s → s.path.parser = t.exploration.parserPath := by
  obtain ⟨hnumbers, hfound⟩ := (advances_of_next h).numbers
  have hown (q : ProgramPath) (hq : u.stage.current = some q) : q.parser = t.exploration.parserPath := by
    rcases hnumbers.current q hq with hq | ⟨-, -, hq⟩
    · exact ht q hq
    · exact hq
  exact ⟨fun q hq => (hown q hq).trans hnumbers.parser.symm, hnumbers.parser, fun s hs => hown s.path (hfound s hs)⟩

/-! ## What a run records -/

namespace Progress

def casesOf (p : Progress) (path : ParserPath) : List ControlPath :=
  (p.cases.filter fun t => t.path.parser = path).map (·.path.control)

def findingsOf (p : Progress) (path : ParserPath) : List Finding := p.findings.filter fun f => f.about = path

def Told (p : Progress) : Prop := p.results = p.findings.foldr Finding.enter {}

end Progress

/-- What was recorded since about each parser path are the turns of its stream. -/
structure Logged (turns : ParserPath → List Turn) (p p' : Progress) : Prop where
  cases : ∀ path, p'.casesOf path = (turns path).reverse.filterMap Turn.control ++ p.casesOf path
  findings : ∀ path, p'.findingsOf path = (turns path).reverse.flatMap Turn.found ++ p.findingsOf path
  told : p.Told → p'.Told

def turnsOf (path : ParserPath) (turns : List Turn) : ParserPath → List Turn :=
  Function.update (fun _ => []) path turns

theorem turnsOf_self (path : ParserPath) (turns : List Turn) : turnsOf path turns path = turns :=
  update_self ..

theorem turnsOf_ne (turns : List Turn) (h : path' ≠ path) : turnsOf path turns path' = [] :=
  update_of_ne h ..

namespace Logged

theorem refl (p : Progress) : Logged (fun _ => []) p p := ⟨fun _ => rfl, fun _ => rfl, id⟩

theorem before (h : Logged (turnsOf path first) p q) (h' : Logged turns q r) :
    Logged (Function.update turns path (first ++ turns path)) p r := by
  have hjoined (path' : ParserPath) : Function.update turns path (first ++ turns path) path' =
      turnsOf path first path' ++ turns path' := by
    by_cases hpath : path' = path
    · rw [hpath, update_self, turnsOf_self]
    · rw [update_of_ne hpath, turnsOf_ne first hpath, nil_append]
  refine ⟨fun path' => ?_, fun path' => ?_, h'.told ∘ h.told⟩
  · rw [h'.cases, h.cases, hjoined, reverse_append, filterMap_append, append_assoc]
  · rw [h'.findings, h.findings, hjoined, reverse_append, flatMap_append, append_assoc]

theorem taken (h : Logged (turnsOf path [⟨none, new⟩]) p q)
    (hpath : t.path.parser = path) (hcases : r.cases = t :: q.cases) (hfindings : r.findings = q.findings)
    (hresults : r.results = q.results) : Logged (turnsOf path [⟨some t.path.control, new⟩]) p r := by
  refine ⟨fun path' => ?_, fun path' => ?_, fun htold => ?_⟩
  · have hbefore := h.cases path'
    rw [Progress.casesOf, hcases, filter_cons, ← hpath]
    by_cases hsame : path' = t.path.parser
    · rw [hsame, turnsOf_self, if_pos (by simp)]
      rw [hsame, ← hpath, turnsOf_self] at hbefore
      exact congrArg (t.path.control :: ·) hbefore
    · rw [turnsOf_ne _ hsame, if_neg (by simpa using Ne.symm hsame)]
      rw [← hpath, turnsOf_ne _ hsame] at hbefore
      exact hbefore
  · have hbefore := h.findings path'
    rw [Progress.findingsOf, hfindings]
    by_cases hsame : path' = path
    · rw [hsame, turnsOf_self] at hbefore ⊢
      exact hbefore
    · rw [turnsOf_ne _ hsame] at hbefore ⊢
      exact hbefore
  · rw [Progress.Told, hresults, hfindings]
    exact h.told htold

end Logged

/-! ## Runs -/

namespace Produce

variable {engine : Engine} {t u : SolutionStream}

section

variable (hengine : engine.Steady) (hmost : ∀ most, engine.options.numTestCases = some most → most ≤ 0)

include hengine hmost

end

end Produce

end PacketSmith
