import PacketSmith.Proofs.QuickAnswers
import PacketSmith.Proofs.Results.SharedKeys
import PacketSmith.Proofs.Turns.Orders

/-!
# What a run has recorded

A run explores paths through the control graph, each for one of the parser paths that it was given
(`Progress.Traced`), and its results are what was recorded about them, path by path. Taking a solution changes none of
this, whether it gives a test case at once or goes into a batch (`Batch.Wrote`).
-/

namespace PacketSmith

open List
open Explore

/-! ## Streams -/

def StreamStage.pending : StreamStage → List ControlPath
  | .walking w => w.pending
  | .yielded w _ _ => w.pending
  | _ => []

/-- The paths that a stream has still to visit lead through the control graph. -/
def StreamStage.OnGraph (engine : Engine) (stage : StreamStage) : Prop :=
  ∀ path ∈ stage.pending, path ≠ [] ∧ engine.Follows path

/-- What was found out about control paths was found out about paths through the graph, each after one of the parser
paths. -/
def Traced (engine : Engine) (paths : List ParserPath) (found : List Finding) : Prop :=
  ∀ r, Finding.control r ∈ found → r.parser ∈ paths ∧ engine.Follows r.control

section Streams

variable {engine : Engine} {next : StreamStage}

theorem Explore.Moves.traced (h : Moves engine w x p model w' x' p') (hparser : x.parserPath ∈ paths)
    (hw : ∀ path ∈ w.pending, path ≠ [] ∧ engine.Follows path) (hp : Traced engine paths p.findings) :
    (∀ path ∈ w'.pending, path ≠ [] ∧ engine.Follows path) ∧ Traced engine paths p'.findings := by
  cases h with
  | stayed => exact ⟨hw, hp⟩
  | finished => exact ⟨by simp, hp⟩
  | @visited path rest v model x' p' pending visits =>
    rw [pending] at hw
    obtain ⟨⟨hne, hfollows⟩, hrest⟩ := forall_mem_cons.mp hw
    refine ⟨fun path' hpath' => ?_, ?_⟩
    · unfold walked at hpath'
      split at hpath'
      · rcases mem_append.mp hpath' with hpath' | hpath'
        · obtain ⟨e, he, rfl⟩ := mem_map.mp (mem_reverse.mp hpath')
          exact ⟨by simp, hfollows.onward ((nextEdges_perm engine x' hne).mem_iff.mp he)⟩
        · exact hrest path' hpath'
      · exact hrest path' hpath'
    · cases visits with
      | passed => exact hp
      | examined new visited =>
        intro r hr
        rw [visited.found] at hr
        rcases mem_cons.mp hr with hr | hr
        · cases hr
          exact ⟨hparser, hfollows⟩
        · exact hp r hr

theorem Steps.traced (h : Steps engine x p stage found next x' p') (hparser : x.parserPath ∈ paths)
    (hstage : stage.OnGraph engine) (hp : Traced engine paths p.findings) :
    next.OnGraph engine ∧ Traced engine paths p'.findings := by
  cases h with
  | begins begins =>
    have hfound {possible : Bool} (h : p'.findings = .parser x.parserPath possible :: p.findings) :
        Traced engine paths p'.findings := by
      intro r hr
      rw [h] at hr
      exact hp r ((mem_cons.mp hr).resolve_left nofun)
    cases begins with
    | impossible start found => exact ⟨by simp [StreamStage.OnGraph, StreamStage.pending], hfound found⟩
    | refuted start unsat found => exact ⟨by simp [StreamStage.OnGraph, StreamStage.pending], hfound found⟩
    | started start sat found =>
      refine ⟨fun path hpath => ?_, hfound found⟩
      obtain ⟨e, he, rfl⟩ := mem_map.mp (mem_reverse.mp hpath)
      refine ⟨by simp, @Engine.Follows.onward engine [] e .start ?_⟩
      have hfirst : firstEdges engine x ⊆ engine.leaving [] := by
        unfold firstEdges
        split
        · exact (leastVisited_perm x _).subset
        · exact List.Subset.refl _
      exact hfirst he
  | @moves w w' model x' p' moves nothing =>
    obtain ⟨hw, hfound⟩ := moves.traced hparser hstage hp
    refine ⟨?_, hfound⟩
    split
    · exact fun path hpath => absurd hpath not_mem_nil
    · exact hw
  | solves moves gives solution =>
    obtain ⟨hw, hfound⟩ := moves.traced hparser hstage hp
    exact ⟨hw, (solution_ok solution).2.1.findings ▸ hfound⟩
  | leaves => exact ⟨hstage, hp⟩
  | @continues w m n found x' p' limit another =>
    refine ⟨?_, (another_ok another).2.1.findings ▸ hp⟩
    cases found <;> exact hstage
  | rests => exact ⟨hstage, hp⟩

theorem Advances.traced (hparser : x.parserPath ∈ paths) (hstage : stage.OnGraph engine)
    (hp : Traced engine paths p.findings) (h : Advances engine x p stage found next x' p') :
    x'.parserPath ∈ paths ∧ next.OnGraph engine ∧ Traced engine paths p'.findings := by
  induction h with
  | last step => exact ⟨step.numbers.1.parser.symm ▸ hparser, step.traced hparser hstage hp⟩
  | more step rest ih =>
    obtain ⟨hmiddle, hq⟩ := step.traced hparser hstage hp
    exact ih (step.numbers.1.parser.symm ▸ hparser) hmiddle hq

end Streams

/-! ## Runs -/

/-- What a run has recorded follows from what it found out, about the paths of the program. -/
structure Progress.Traced (engine : Engine) (paths : List ParserPath) (p : Progress) : Prop where
  told : p.Told
  found : PacketSmith.Traced engine paths p.findings

structure SolutionStream.Of (engine : Engine) (paths : List ParserPath) (t : SolutionStream) : Prop where
  parser : t.exploration.parserPath ∈ paths
  stage : t.stage.OnGraph engine

section Runs

variable {engine : Engine} {p p' : Progress} {t u : SolutionStream}

theorem Progress.Traced.silent (h : p.Traced engine paths) (hwrote : Batch.Wrote P p p') : p'.Traced engine paths := by
  refine ⟨?_, hwrote.findings ▸ h.found⟩
  rw [Progress.Told, hwrote.findings, hwrote.results]
  exact h.told

theorem SolutionStream.Of.next (ht : t.Of engine paths) (hp : p.Traced engine paths)
    (h : (t.next engine).run p = .ok ((found, u), p')) : u.Of engine paths ∧ p'.Traced engine paths := by
  obtain ⟨hparser, hstage, hfound⟩ := (advances_of_next h).traced ht.parser ht.stage hp.found
  obtain ⟨-, new, hfindings, hresults, -⟩ := noted_of_next h
  refine ⟨⟨hparser, hstage⟩, ?_, hfound⟩
  rw [Progress.Told, hfindings, hresults, foldr_append, hp.told]

theorem SolutionStream.of_paths (hpath : path ∈ paths) (solver : PathSolver) :
    (SolutionStream.of path solver).Of engine paths :=
  ⟨hpath, fun _ h => absurd h not_mem_nil⟩

namespace Produce

theorem drain_traced (ht : t.Of engine paths) (hp : p.Traced engine paths)
    (h : (drain engine fuel t).exec g p = .ok (((full, u), g'), p')) : p'.Traced engine paths := by
  induction fuel generalizing t g p with
  | zero => cases h
  | succ fuel ih =>
    obtain ⟨⟨found, t'⟩, p₁, hnext, hthen⟩ := exec_lift_bind_ok.mp h
    obtain ⟨ht', hp₁⟩ := ht.next hp hnext
    cases found with
    | none =>
      cases hthen
      exact hp₁
    | some s =>
      obtain ⟨_, g₁, p₂, htake, htaken⟩ := exec_bind_ok.mp hthen
      have hp₂ := hp₁.silent (waits_all.take trivial htake).2
      obtain ⟨full', -, hdone⟩ := enough_bind_ok htaken
      split at hdone
      · cases hdone
        exact hp₂
      · exact ih ht' hp₂ hdone

theorem inRow_traced {solver : PathSolver} (hrest : rest ⊆ paths) (hp : p.Traced engine paths)
    (h : (inRow engine solver rest).exec g p = .ok ((v, g'), p')) : p'.Traced engine paths := by
  induction rest generalizing solver g p with
  | nil =>
    cases h
    exact hp
  | cons path rest ih =>
    obtain ⟨hpath, hrest⟩ := cons_subset.mp hrest
    obtain ⟨_, p₁, hcount, hthen⟩ := exec_lift_bind_ok.mp h
    cases hcount
    obtain ⟨⟨full, u⟩, g₁, p₂, hdrain, hthen⟩ := exec_bind_ok.mp hthen
    have hcounted : Progress.Traced engine paths { p with statistics := p.statistics.countParserPath path } :=
      hp.silent (P := fun _ => True) ⟨rfl, rfl, id⟩
    have hp₂ := drain_traced (SolutionStream.of_paths hpath solver) hcounted hdrain
    cases full with
    | true =>
      cases hthen
      exact hp₂
    | false => exact ih hrest hp₂ hthen

theorem inTurns_traced (hts : ∀ t ∈ ts, t.Of engine paths) (hp : p.Traced engine paths)
    (h : (inTurns engine fuel fresh ts).exec g p = .ok ((v, g'), p')) : p'.Traced engine paths := by
  induction fuel generalizing ts fresh g p with
  | zero =>
    cases ts with
    | nil =>
      cases h
      exact hp
    | cons t ts => cases h
  | succ fuel ih =>
    cases ts with
    | nil =>
      cases h
      exact hp
    | cons t ts =>
      obtain ⟨⟨found, u⟩, p₁, hnext, hthen⟩ := exec_lift_bind_ok.mp h
      obtain ⟨ht, hrest⟩ := forall_mem_cons.mp hts
      have hnumbered : (t.numberedFrom fresh).Of engine paths := ⟨ht.parser, ht.stage⟩
      obtain ⟨hu, hp₁⟩ := hnumbered.next hp hnext
      cases found with
      | none => exact ih hrest hp₁ hthen
      | some s =>
        obtain ⟨_, g₁, p₂, htake, htaken⟩ := exec_bind_ok.mp hthen
        have hp₂ := hp₁.silent (waits_all.take trivial htake).2
        obtain ⟨full', -, hdone⟩ := enough_bind_ok htaken
        split at hdone
        · cases hdone
          exact hp₂
        · refine ih (fun t' ht' => ?_) hp₂ hdone
          rcases mem_append.mp ht' with ht' | ht'
          · exact hrest t' ht'
          · rw [mem_singleton.mp ht']
            exact hu

theorem all_traced (h : (all engine paths).exec g {} = .ok ((v, g'), p')) : p'.Traced engine paths := by
  have hnew (statistics : Statistics) : Progress.Traced engine paths { statistics := statistics } :=
    ⟨rfl, fun _ hr => absurd hr not_mem_nil⟩
  obtain ⟨_, g₁, p₁, hexplore, hleave⟩ := exec_bind_ok.mp h
  refine Progress.Traced.silent ?_ (waits_all.leave hleave).2
  unfold explore at hexplore
  split at hexplore
  · obtain ⟨_, g₂, p₂, hcount, hrun⟩ := exec_bind_ok.mp hexplore
    obtain ⟨rfl, statistics, rfl⟩ := count_ok hcount
    refine inTurns_traced (fun t ht => ?_) (hnew statistics) hrun
    obtain ⟨path, hpath, rfl⟩ := mem_map.mp ht
    exact SolutionStream.of_paths hpath {}
  · exact inRow_traced (List.Subset.refl _) (hnew {}) hexplore

end Produce

end Runs

end PacketSmith
