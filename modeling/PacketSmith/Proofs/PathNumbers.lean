import PacketSmith.Proofs.Console.Texts
import PacketSmith.Proofs.Parser.DistinctPaths
import PacketSmith.Proofs.Produced

/-!
# The numbers of paths

A path has the number of the level that was entered for it, and the count of levels never goes back, so a stream gives
every path that it looks at a number of its own (`Numbers`). In a row there is one path solver, and the numbers tell
all paths of a run apart. In turns there is one for each parser path, and paths of different parser paths may share a
number.
-/

namespace PacketSmith

open List Loaded Produce Text

/-! ## Steps of a stream -/

namespace PathSolver

variable {s s' s'' : PathSolver}

/-- What a path solver counts does not go back. -/
structure Onward (s s' : PathSolver) : Prop where
  pathId : s.pathId ≤ s'.pathId
  fresh : s.fresh ≤ s'.fresh

namespace Onward

theorem of_eq (hpathId : s'.pathId = s.pathId) (hfresh : s'.fresh = s.fresh) : Onward s s' :=
  ⟨hpathId.ge, hfresh.ge⟩

theorem refl (s : PathSolver) : Onward s s := of_eq rfl rfl

theorem trans (h : Onward s s') (h' : Onward s' s'') : Onward s s'' :=
  ⟨h.pathId.trans h'.pathId, h.fresh.trans h'.fresh⟩

theorem after (h : Onward s' s'') (hpathId : s'.pathId = s.pathId) (hfresh : s'.fresh = s.fresh) : Onward s s'' :=
  (of_eq hpathId hfresh).trans h

theorem push (s : PathSolver) : Onward s s.push := ⟨Int.le.intro 1 rfl, le_rfl⟩

theorem pops (o : Options) (n : Nat) (s : PathSolver) : Onward s ((PathSolver.pop o)^[n] s) := by
  induction n generalizing s with
  | zero => exact refl s
  | succ n ih => exact (ih (s.pop o)).after rfl rfl

theorem refresh (o : Options) (s : PathSolver) : Onward s (s.refresh o) := by
  unfold PathSolver.refresh
  split <;> exact of_eq rfl rfl

theorem record (outcome : Outcome) (s : PathSolver) : Onward s (s.record outcome) := by
  unfold PathSolver.record
  split <;> exact of_eq rfl rfl

theorem solve (solver : Solver) (s : PathSolver) : Onward s (s.solve solver).2 :=
  (record _ (s.check solver)).after rfl rfl

theorem modifyTop (f : Level → Level) (s : PathSolver) : Onward s (s.modifyTop f) := by
  unfold PathSolver.modifyTop
  split <;> exact of_eq rfl rfl

theorem varyLengths (h : s.varyLengths condition = .ok (varied, s')) : Onward s s' := by
  rcases varyLengths_ok h with rfl | ⟨f, rfl⟩ <;> exact of_eq rfl rfl

theorem run {counting : Bool} (hstep : Does o counting step) (h : s.run step = .ok (a, s')) : Onward s s' := by
  unfold PathSolver.run at h
  split at h
  rename_i r t hrun
  split at h
  · cases h
  · cases h
    refine ⟨(modifyTop _ s).pathId, ?_⟩
    have hlater := (hstep ⟨s.context, s.tally, s.fresh, s.packet⟩).fresh_le
    rwa [show step.result _ = _ from hrun] at hlater

theorem extend (h : s.extend env path = .ok s') : Onward s s' := by
  obtain ⟨⟨added, t⟩, hrun, h⟩ := bind_eq_ok.mp (require_bind_ok h)
  cases h
  refine (run (lastConstraints_regular (c := false) env.uniformAt_refl path).does hrun).trans ?_
  refine .after ((modifyTop _ _).trans (of_eq rfl rfl)) ?_ ?_ <;> split <;> rfl

theorem start {parser : ParserPath} {possible : Bool} (h : s.start env parser = .ok (possible, s')) : Onward s s' := by
  obtain ⟨ctx, -, h⟩ := bind_eq_ok.mp (require_bind_ok h)
  obtain ⟨⟨found, t⟩, hrun, h⟩ := bind_eq_ok.mp h
  have ht : Onward s t :=
    (run (Symbolic.parserPath_regular (σ := RelEmbedding.refl _) env parser).does hrun).after rfl rfl
  cases found with
  | none =>
    cases h
    exact ht
  | some fs =>
    cases h
    exact ht.trans (of_eq rfl rfl)

end Onward

end PathSolver

open PathSolver (Onward)

/-- The path whose solutions are being asked for. -/
def StreamStage.current : StreamStage → Option ProgramPath
  | .yielded _ m _ => some m.path
  | _ => none

/-- Between two stages of a stream the counts do not go back, and a path that has come up since then has
a number above it. -/
structure Numbers (x : Exploration) (stage : StreamStage) (x' : Exploration) (stage' : StreamStage) : Prop where
  parser : x'.parserPath = x.parserPath
  onward : Onward x.solver x'.solver
  current : ∀ q, stage'.current = some q → stage.current = some q ∨
    (x.solver.pathId < q.id ∧ q.id ≤ x'.solver.pathId ∧ q.parser = x.parserPath)

variable {engine : Engine}

theorem Numbers.refl (x : Exploration) (stage : StreamStage) : Numbers x stage x stage :=
  ⟨rfl, .refl _, fun _ => .inl⟩

theorem Numbers.trans (h : Numbers x stage y stage') (h' : Numbers y stage' z stage'') : Numbers x stage z stage'' := by
  refine ⟨h'.parser.trans h.parser, h.onward.trans h'.onward, fun q hq => ?_⟩
  rcases h'.current q hq with hq | ⟨habove, hbelow, hparser⟩
  · rcases h.current q hq with hq | ⟨habove, hbelow, hparser⟩
    · exact .inl hq
    · exact .inr ⟨habove, hbelow.trans h'.onward.pathId, hparser⟩
  · exact .inr ⟨h.onward.pathId.trans_lt habove, hbelow, hparser.trans h.parser⟩

namespace Explore

variable {complete : Bool} {control : ControlPath}

theorem Judged.onward {parser : ParserPath} {outcome : Outcome}
    (h : Judged engine parser control complete s outcome model s') :
    Onward s s' ∧ ∀ m, model = some m → m.path.id = s.pathId ∧ m.path.parser = parser := by
  cases h with
  | quick known =>
    obtain ⟨-, -, rfl⟩ := PathSolver.quick_ok known
    exact ⟨.record _ s, by simp⟩
  | solved =>
    refine ⟨.solve _ s, ?_⟩
    rintro m ⟨⟩
    exact ⟨rfl, rfl⟩

theorem Visits.onward (h : Visits engine control complete x p v model x' p') :
    x'.parserPath = x.parserPath ∧ Onward x.solver x'.solver ∧ ∀ m, model = some m →
      x.solver.pathId < m.path.id ∧ m.path.id ≤ x'.solver.pathId ∧ m.path.parser = x.parserPath := by
  cases h with
  | passed => exact ⟨rfl, .push _, by simp⟩
  | @examined outcome v model y p' new visited answered =>
    obtain ⟨s, hextend, hjudged⟩ := visited.judged
    have hs : Onward x.solver.push s := (Onward.refresh _ _).trans (.extend hextend)
    have hparser : y.parserPath = x.parserPath := by rw [visited.rest]
    obtain ⟨hy, hid⟩ := hjudged.onward
    have hmodel : ∀ m, model = some m → x.solver.pathId < m.path.id ∧ m.path.id ≤ y.solver.pathId ∧
        m.path.parser = x.parserPath := fun m hm => by
      obtain ⟨hid, hsame⟩ := hid m hm
      rw [hid]
      exact ⟨(Int.lt_succ _).trans_le hs.pathId, hy.pathId, hsame⟩
    have honward := (Onward.push x.solver).trans (hs.trans hy)
    split
    · obtain ⟨hsolver, hsame⟩ := cover_solver engine.graph control complete outcome y
      rw [hsolver, hsame]
      exact ⟨hparser, honward, hmodel⟩
    · exact ⟨hparser, honward, hmodel⟩

theorem Moves.onward (h : Moves engine w x p model w' x' p') :
    x'.parserPath = x.parserPath ∧ Onward x.solver x'.solver ∧ ∀ m, model = some m →
      x.solver.pathId < m.path.id ∧ m.path.id ≤ x'.solver.pathId ∧ m.path.parser = x.parserPath := by
  cases h with
  | stayed => exact ⟨rfl, .refl _, by simp⟩
  | finished => exact ⟨rfl, .pops _ _ _, by simp⟩
  | @visited path rest v model x' p' pending visits =>
    have hpops : Onward x.solver _ := .pops engine.options (w.depth + 1 - path.length) x.solver
    obtain ⟨hparser, honward, hmodel⟩ := visits.onward
    refine ⟨hparser, hpops.trans honward, fun m hm => ?_⟩
    obtain ⟨hid, hrest⟩ := hmodel m hm
    exact ⟨hpops.pathId.trans_lt hid, hrest⟩

theorem released_onward (m : PathModel) (s : PathSolver) : Onward s (released engine m s) := by
  unfold released
  split <;> exact .of_eq rfl rfl

theorem Solves.onward (h : Solves engine m s ρ fs s') : Onward s s' := by
  cases h with
  | short => exact .refl _
  | drawn => exact (Onward.push s).trans ((Onward.solve _ _).after rfl rfl)

theorem Furthers.onward (h : Furthers engine m s again s') : Onward s s' := by
  cases h with
  | unwanted vary => exact .varyLengths vary
  | refuted vary => exact (Onward.varyLengths vary).trans (.solve _ _)
  | solves vary _ _ solves => exact (Onward.varyLengths vary).trans ((Onward.solve _ _).trans solves.onward)

theorem path_of_solution (h : (solution engine m).exec x p = .ok ((found, x'), p')) : found.path = m.path := by
  obtain ⟨fixed, y, q, -, h⟩ := exec_bind_ok.1 h
  rw [exec_get_bind] at h
  dsimp only at h
  split at h
  · cases h
    rfl
  · cases h

theorem path_of_another (h : (another engine m).exec x p = .ok ((some found, x'), p')) : found.path = m.path := by
  obtain ⟨_, y, q, -, h⟩ := exec_bind_ok.1 h
  rw [exec_get_bind] at h
  obtain ⟨⟨varied, s⟩, -, h⟩ := exec_lift_bind_ok h
  rw [exec_update_bind] at h
  split at h
  · cases h
  · obtain ⟨outcome, y, q, -, h⟩ := exec_bind_ok.1 h
    split at h
    · cases h
    · obtain ⟨_, y, q, -, h⟩ := exec_bind_ok.1 h
      obtain ⟨found, y, q, hsolution, hpure⟩ := exec_bind_ok.1 h
      cases hpure
      exact path_of_solution hsolution

end Explore

open Explore

variable {x x' : Exploration} {p p' : Progress} {stage stage' : StreamStage}

theorem Begins.numbers (h : Begins engine x p stage x' p') : Numbers x .waiting x' stage := by
  have hcheck (s : PathSolver) : Onward s ((s.check engine.solver).refresh engine.options) :=
    (Onward.refresh engine.options (s.check engine.solver)).after rfl rfl
  cases h with
  | impossible start => exact ⟨rfl, .start start, by rintro _ ⟨⟩⟩
  | refuted start | started start => exact ⟨rfl, (Onward.start start).trans (hcheck _), by rintro _ ⟨⟩⟩

theorem Steps.numbers (h : Steps engine x p stage found stage' x' p') :
    Numbers x stage x' stage' ∧ ∀ s, found = some s → stage'.current = some s.path := by
  cases h with
  | begins begins => exact ⟨begins.numbers, by simp⟩
  | @moves w w' model x' p' moves nothing =>
    obtain ⟨hparser, honward, -⟩ := moves.onward
    refine ⟨⟨hparser, honward, fun q hq => ?_⟩, by simp⟩
    split at hq <;> cases hq
  | solves moves gives solution =>
    obtain ⟨hparser, honward, hmodel⟩ := moves.onward
    obtain ⟨hx, -, ρ, fs, hsolves⟩ := solution_ok solution
    obtain ⟨habove, hbelow, hsame⟩ := hmodel _ rfl
    refine ⟨⟨by rw [hx, hparser], honward.trans hsolves.onward, ?_⟩, ?_⟩
    · rintro q ⟨⟩
      exact .inr ⟨habove, hbelow.trans hsolves.onward.pathId, hsame⟩
    · rintro s ⟨⟩
      rw [path_of_solution solution]
      rfl
  | leaves limit => exact ⟨⟨rfl, released_onward _ _, by rintro _ ⟨⟩⟩, by simp⟩
  | @continues w m n found x' p' limit another =>
    obtain ⟨hx, -, hfurthers⟩ := another_ok another
    refine ⟨⟨by rw [hx], (released_onward m x.solver).trans hfurthers.onward, ?_⟩, ?_⟩
    · cases found with
      | none => rintro _ ⟨⟩
      | some s => exact fun q hq => .inl hq
    · rintro s rfl
      rw [path_of_another another]
      rfl
  | rests => exact ⟨.refl _ _, by simp⟩

theorem Advances.numbers (h : Advances engine x p stage found stage' x' p') :
    Numbers x stage x' stage' ∧ ∀ s, found = some s → stage'.current = some s.path := by
  induction h with
  | last step => exact step.numbers
  | more step rest ih => exact ⟨step.numbers.1.trans ih.1, ih.2⟩

theorem Advances.noted (h : Advances engine x p stage found stage' x' p') : Noted x.parserPath p p' := by
  induction h with
  | last step => exact step.noted
  | more step rest ih => exact step.noted.trans (step.numbers.1.parser ▸ ih)

theorem SolutionStream.noted_of_next {t u : SolutionStream} (h : (t.next engine).run p = .ok ((found, u), p')) :
    Noted t.exploration.parserPath p p' :=
  (advances_of_next h).noted

/-! ## Runs -/

/-- Of the paths that have come up, those of some kind have each a number of their own. -/
def ToldApart (K : ProgramPath → Prop) (known : List ProgramPath) : Prop :=
  ∀ q ∈ known, ∀ q' ∈ known, K q → K q' → q.id = q'.id → q = q'

structure SolutionStream.Counts (K : ProgramPath → Prop) (known : List ProgramPath) (t : SolutionStream) : Prop where
  kind : ∀ q, q.parser = t.exploration.parserPath → K q
  below : ∀ q ∈ known, K q → q.id ≤ t.exploration.solver.pathId
  current : ∀ q, t.stage.current = some q → q ∈ known

theorem ToldApart.add {new : Option ProgramPath} (h : ToldApart K known)
    (hnew : ∀ q ∈ new, K q → ∀ q' ∈ known, K q' → q'.id < q.id) : ToldApart K (new.toList ++ known) := by
  cases new with
  | none => exact h
  | some q =>
    have hq := hnew q rfl
    intro a ha b hb hKa hKb hid
    rcases mem_cons.mp ha with rfl | ha' <;> rcases mem_cons.mp hb with rfl | hb'
    · rfl
    · exact absurd hid (hq hKa b hb' hKb).ne'
    · exact absurd hid (hq hKb a ha' hKa).ne
    · exact h a ha' b hb' hKa hKb hid

section Runs

variable {known : List ProgramPath} {t u : SolutionStream}

theorem SolutionStream.Counts.next
    (ht : t.Counts K known) (h : (t.next engine).run p = .ok ((found, u), p')) :
    u.exploration.parserPath = t.exploration.parserPath ∧ ∃ new : Option ProgramPath,
      (∀ q ∈ new, q.parser = t.exploration.parserPath ∧ ∀ q' ∈ known, K q' → q'.id < q.id) ∧
      u.Counts K (new.toList ++ known) ∧ ∀ s, found = some s → s.path ∈ new.toList ++ known := by
  obtain ⟨hnumbers, hfound⟩ := (advances_of_next h).numbers
  obtain ⟨x, stage⟩ := u
  have hkind : ∀ q : ProgramPath, q.parser = x.parserPath → K q := fun q hq => ht.kind q (hq.trans hnumbers.parser)
  have hbelow : ∀ q ∈ known, K q → q.id ≤ x.solver.pathId := fun q hq hK => (ht.below q hq hK).trans hnumbers.onward.pathId
  refine ⟨hnumbers.parser, ?_⟩
  by_cases hknown : ∀ q, stage.current = some q → q ∈ known
  · exact ⟨none, by simp, ⟨hkind, hbelow, hknown⟩, fun s hs => hknown _ (hfound s hs)⟩
  · obtain ⟨q, hq, hnew⟩ : ∃ q, stage.current = some q ∧ q ∉ known := by simpa using hknown
    obtain ⟨habove, hcount, hparser⟩ := (hnumbers.current q hq).resolve_left fun h => hnew (ht.current q h)
    have hcurrent (q' : ProgramPath) (hq' : stage.current = some q') : q' ∈ q :: known := by
      rw [hq] at hq'
      exact mem_cons.mpr (.inl (Option.some.inj hq').symm)
    refine ⟨some q, ?_, ⟨hkind, ?_, hcurrent⟩, fun s hs => hcurrent _ (hfound s hs)⟩
    · rintro _ ⟨⟩
      exact ⟨hparser, fun q' hq' hK => (ht.below q' hq' hK).trans_lt habove⟩
    · intro q' hq' hK
      rcases mem_cons.mp hq' with rfl | hq'
      · exact hcount
      · exact hbelow q' hq' hK

namespace Produce

variable {g g' : Generation} {paths : List ParserPath}

/-- All test cases and what waits in the batch are of paths that have come up. -/
abbrev Accounts (known : List ProgramPath) (g : Generation) (p : Progress) : Prop := Holds (· ∈ known) g p

theorem Accounts.next (hg : Accounts known g p) (hmore : known ⊆ more)
    (h : (t.next engine).run p = .ok ((found, u), p')) : Accounts more g p' := by
  refine ⟨fun c hc => ?_, fun b hb q hq => hmore (hg.waiting b hb q hq)⟩
  rw [(SolutionStream.noted_of_next h).cases] at hc
  exact hmore (hg.cases c hc)

theorem drain_numbers (hknown : ToldApart (fun _ => True) known) (hg : Accounts known g p)
    (ht : t.Counts (fun _ => True) known) (h : (drain engine fuel t).exec g p = .ok (((full, u), g'), p')) :
    ∃ known', ToldApart (fun _ => True) known' ∧ Accounts known' g' p' ∧ u.Counts (fun _ => True) known' := by
  induction fuel generalizing t g p known with
  | zero => cases h
  | succ fuel ih =>
    obtain ⟨⟨found, t'⟩, p₁, hnext, hthen⟩ := exec_lift_bind_ok.mp h
    obtain ⟨-, new, hnew, hcounts, hfound⟩ := ht.next hnext
    have hmore : ToldApart (fun _ => True) (new.toList ++ known) :=
      hknown.add fun q hq _ q' hq' hK => (hnew q hq).2 q' hq' hK
    have hg' := hg.next (subset_append_right new.toList known) hnext
    cases found with
    | none =>
      cases hthen
      exact ⟨_, hmore, hg', hcounts⟩
    | some s =>
      obtain ⟨_, g₁, p₂, htake, htaken⟩ := exec_bind_ok.mp hthen
      have hg'' := Holds.take (hfound s rfl) hg' htake
      obtain ⟨full', -, hdone⟩ := enough_bind_ok htaken
      split at hdone
      · cases hdone
        exact ⟨_, hmore, hg'', hcounts⟩
      · exact ih hmore hg'' hcounts hdone

theorem inRow_numbers {solver : PathSolver} (hknown : ToldApart (fun _ => True) known) (hg : Accounts known g p)
    (hbelow : ∀ q ∈ known, q.id ≤ solver.pathId) (h : (inRow engine solver paths).exec g p = .ok ((v, g'), p')) :
    ∃ known', ToldApart (fun _ => True) known' ∧ Accounts known' g' p' := by
  induction paths generalizing solver g p known with
  | nil =>
    cases h
    exact ⟨known, hknown, hg⟩
  | cons path rest ih =>
    obtain ⟨_, p₁, hcount, hthen⟩ := exec_lift_bind_ok.mp h
    cases hcount
    obtain ⟨⟨full, u⟩, g₁, p₂, hdrain, hthen⟩ := exec_bind_ok.mp hthen
    have hcounted : Accounts known g { p with statistics := p.statistics.countParserPath path } :=
      ⟨hg.cases, hg.waiting⟩
    have ht : (SolutionStream.of path solver).Counts (fun _ => True) known :=
      ⟨fun _ _ => trivial, fun q hq _ => hbelow q hq, by rintro _ ⟨⟩⟩
    obtain ⟨known', hknown', hg', hu⟩ := drain_numbers hknown hcounted ht hdrain
    cases full with
    | true =>
      cases hthen
      exact ⟨known', hknown', hg'⟩
    | false => exact ih hknown' hg' (fun q hq => hu.below q hq trivial) hthen

theorem inTurns_numbers (hknown : ∀ path, ToldApart (·.parser = path) known) (hg : Accounts known g p)
    (hpaths : (ts.map fun t => t.exploration.parserPath).Nodup)
    (hts : ∀ t ∈ ts, t.Counts (·.parser = t.exploration.parserPath) known)
    (h : (inTurns engine fuel fresh ts).exec g p = .ok ((v, g'), p')) :
    ∃ known', (∀ path, ToldApart (·.parser = path) known') ∧ Accounts known' g' p' := by
  induction fuel generalizing ts fresh g p known with
  | zero =>
    cases ts with
    | nil =>
      cases h
      exact ⟨known, hknown, hg⟩
    | cons t ts => cases h
  | succ fuel ih =>
    cases ts with
    | nil =>
      cases h
      exact ⟨known, hknown, hg⟩
    | cons t ts =>
      obtain ⟨⟨found, u⟩, p₁, hnext, hthen⟩ := exec_lift_bind_ok.mp h
      obtain ⟨ht, hrest⟩ := forall_mem_cons.mp hts
      obtain ⟨hfirst, hothers⟩ := nodup_cons.mp hpaths
      have hnumbered : (t.numberedFrom fresh).Counts (·.parser = t.exploration.parserPath) known :=
        ⟨ht.kind, ht.below, ht.current⟩
      obtain ⟨hparser, new, hnew, hcounts, hfound⟩ := hnumbered.next hnext
      have hown (q : ProgramPath) (hq : q ∈ new) : q.parser = t.exploration.parserPath := (hnew q hq).1
      have hmore (path : ParserPath) : ToldApart (·.parser = path) (new.toList ++ known) := by
        refine (hknown path).add fun q hq hK q' hq' hK' => (hnew q hq).2 q' hq' ?_
        exact hK'.trans (hK.symm.trans (hown q hq))
      have hlater : ∀ t' ∈ ts, t'.Counts (·.parser = t'.exploration.parserPath) (new.toList ++ known) := by
        intro t' ht'
        have hcounts' := hrest t' ht'
        refine ⟨hcounts'.kind, fun q hq hK => ?_, fun q hq => mem_append_right _ (hcounts'.current q hq)⟩
        rcases mem_append.mp hq with hq | hq
        · have hsame : t'.exploration.parserPath = t.exploration.parserPath :=
            hK.symm.trans (hown q (Option.mem_toList.mp hq))
          exact absurd (mem_map.mpr ⟨t', ht', hsame⟩) hfirst
        · exact hcounts'.below q hq hK
      have hg' := hg.next (subset_append_right new.toList known) hnext
      cases found with
      | none => exact ih hmore hg' hothers hlater hthen
      | some s =>
        obtain ⟨_, g₁, p₂, htake, htaken⟩ := exec_bind_ok.mp hthen
        have hg'' := Holds.take (hfound s rfl) hg' htake
        obtain ⟨full', -, hdone⟩ := enough_bind_ok htaken
        split at hdone
        · cases hdone
          exact ⟨_, hmore, hg''⟩
        · refine ih hmore hg'' ?_ ?_ hdone
          · rw [map_append, map_singleton, hparser]
            exact (nodup_append_comm.mp (nodup_cons.mpr ⟨hfirst, hothers⟩))
          · intro t' ht'
            rcases mem_append.mp ht' with ht' | ht'
            · exact hlater t' ht'
            · rw [mem_singleton.mp ht', hparser]
              exact hcounts

theorem explore_numbers (hpaths : paths.Nodup) (hg : Accounts [] g {})
    (h : (explore engine paths).exec g {} = .ok ((v, g'), p')) : ∃ known, Accounts known g' p' ∧
    (∀ path, ToldApart (·.parser = path) known) ∧
    (engine.options.roundRobinParserPaths = false → ToldApart (fun _ => True) known) := by
  have hnone (K : ProgramPath → Prop) : ToldApart K [] := by simp [ToldApart]
  unfold explore at h
  split at h
  · rename_i hturns
    obtain ⟨_, g₁, p₁, hcount, hrun⟩ := exec_bind_ok.mp h
    obtain ⟨rfl, statistics, rfl⟩ := count_ok hcount
    have hcounted : Accounts [] g₁ { statistics := statistics } := ⟨hg.cases, hg.waiting⟩
    have hdistinct : ((paths.map fun path => SolutionStream.of path {}).map
        fun t => t.exploration.parserPath).Nodup := by
      simpa [SolutionStream.of, Function.comp_def] using hpaths
    have hstart : ∀ t ∈ paths.map fun path => SolutionStream.of path {},
        t.Counts (·.parser = t.exploration.parserPath) [] := by
      intro t ht
      obtain ⟨path, -, rfl⟩ := mem_map.mp ht
      exact ⟨fun _ => id, by simp, by rintro _ ⟨⟩⟩
    obtain ⟨known, hknown, hg'⟩ := inTurns_numbers (fun _ => hnone _) hcounted hdistinct hstart hrun
    exact ⟨known, hg', hknown, fun hrow => by simp [hrow] at hturns⟩
  · obtain ⟨known, hknown, hg'⟩ := inRow_numbers (hnone _) hg (by simp) h
    exact ⟨known, hg', fun _ q hq q' hq' _ _ => hknown q hq q' hq' trivial trivial, fun _ => hknown⟩

end Produce

end Runs

/-! ## Names -/

theorem toList_toString (n : Int) :
    (toString n).toList = if n < 0 then '-' :: Nat.toDigits 10 n.natAbs else Nat.toDigits 10 n.natAbs := by
  cases n with
  | ofNat k =>
    change (toString k).toList = _
    rw [Nat.toString_eq_repr, Nat.toList_repr]
    rfl
  | negSucc k =>
    change ("-" ++ toString (k + 1)).toList = _
    rw [if_pos (Int.negSucc_lt_zero k), String.toList_append, Nat.toString_eq_repr, Nat.toList_repr]
    rfl

theorem toString_int_inj {a b : Int} (h : toString a = toString b) : a = b := by
  have hlist := congrArg String.toList h
  rw [toList_toString, toList_toString] at hlist
  have hminus {l : List Char} {k : Nat} : '-' :: l ≠ Nat.toDigits 10 k :=
    fun heq => notMem_toDigits (by decide) k (heq ▸ mem_cons_self)
  split at hlist <;> split at hlist
  · have := toDigits_inj (List.cons.inj hlist).2
    omega
  · exact absurd hlist hminus
  · exact absurd hlist.symm hminus
  · have := toDigits_inj hlist
    omega

theorem BatchPath.names_apart (h : s.path.id ≠ s'.path.id) (x x' : Variable) (w w' : Nat) :
    (ofSolution s).variableName x w ≠ (ofSolution s').variableName x' w' := by
  intro hname
  have hlist := congrArg String.toList (Variable.plain.inj hname)
  have hslash (n : Int) : ∀ c ∈ (toString n).toList, (c != '/') = true := by
    intro c hc
    rw [bne_iff_ne]
    rintro rfl
    rw [toList_toString] at hc
    have hdigits := notMem_toDigits (c := '/') (by decide) n.natAbs
    split at hc <;> simp_all
  have hbefore (n : Int) (rest : String) :
      (((("path" ++ toString n ++ "/") ++ rest).toList).drop 4).takeWhile (· != '/') = (toString n).toList := by
    simp only [String.toList_append, append_assoc]
    change ((toString n).toList ++ ('/' :: rest.toList)).takeWhile _ = _
    rw [takeWhile_append_of_pos (hslash n)]
    simp
  refine h (toString_int_inj (String.toList_injective ?_))
  rw [← hbefore s.path.id x.display, ← hbefore s'.path.id x'.display]
  exact congrArg (fun l => (l.drop 4).takeWhile (· != '/')) hlist

/-! ## A parser that goes by the port -/

theorem Loaded.generate_of_null {l : Loaded} {solver : Solver} {switchLog : Nat → List String}
    (hinit : l.setting.pipeline.initTable.asLabel = .null)
    (hpaths : l.parserPaths = .ok paths) (hbatch : l.setting.options.consolidateTables = none)
    (hall : (all (l.engine solver draw switchLog) paths).exec { batch := none } {} = .ok ((u, g), p)) :
    l.generate solver draw switchLog = .ok ⟨p, g.switches⟩ := by
  have hcount : l.countPaths = .ok (1, 1, 0) := by
    unfold countPaths Graph.countPaths
    rw [hinit, Graph.countFrom]
    rfl
  unfold generate
  rw [hcount, hpaths]
  change (if l.setting.options.consolidateTables.isSome then _ else _) = _
  rw [hbatch]
  change (all (l.engine solver draw switchLog) paths).exec { batch := none } {} >>= _ = _
  rw [hall]
  rfl

namespace Small

/-- The source of a parser that goes by the port at which the packet arrives. -/
def ported : Json :=
  source [] [] [] "start" [state "start" [] [field "standard_metadata" "ingress_port"]
    [transition (some "0x0001") none, transition none none]] passing

theorem ported_run (turns : Bool) :
    ∃ l out t t', ofJson { roundRobinParserPaths := turns } (fun _ => none) ported = .ok l ∧
      l.generate (.ideal [ones, PortParser.portZero]) (fun _ => 0) (fun _ => []) = .ok out ∧
      out.progress.cases = [t, t'] ∧ t.path.parser ≠ t'.path.parser ∧ (t.path.id = t'.path.id ↔ turns = true) := by
  have hcomputed : ((ofJson { roundRobinParserPaths := turns } (fun _ => none) ported).toOption.any fun l =>
      decide (l.setting.pipeline.initTable.asLabel = .null ∧ l.setting.options.consolidateTables = none) &&
      l.parserPaths.toOption.any fun paths =>
        ((all (l.engine (.ideal [ones, PortParser.portZero]) (fun _ => 0) fun _ => []) paths).exec
          { batch := none } {}).toOption.any fun r =>
            decide (r.2.cases.length = 2 ∧ (r.2.cases.map fun t => t.path.parser).Nodup ∧
              ((r.2.cases.map fun t => t.path.id).Nodup ↔ turns = false))) = true := by
    cases turns <;> decide +kernel
  obtain ⟨l, hload, hl⟩ := ok_of_any hcomputed
  rw [Bool.and_eq_true, decide_eq_true_eq] at hl
  obtain ⟨⟨hinit, hbatch⟩, hl⟩ := hl
  obtain ⟨paths, hpaths, hrun⟩ := ok_of_any hl
  obtain ⟨⟨⟨u, g⟩, p⟩, hall, hcases⟩ := ok_of_any hrun
  rw [decide_eq_true_eq] at hcases
  obtain ⟨hlength, hparsers, hids⟩ := hcases
  obtain ⟨t, t', hpair⟩ := length_eq_two.mp hlength
  rw [hpair] at hparsers hids
  refine ⟨l, _, t, t', hload, generate_of_null hinit hpaths hbatch hall, hpair, ?_, ?_⟩
  · simpa using hparsers
  · cases turns <;> simpa using hids

end Small

/-! ## Whole runs -/

/-- If parser paths are taken in a row, or for one parser path, different paths with test cases have
different numbers, so the numbers in the test cases differ, and with shared table entries the variables of the paths
do. -/
theorem Loaded.numbers_tell_paths_apart {o : Options} {files : ExternFiles} {source : Json} {l : Loaded}
    {solver : Solver} {draw : Nat → Nat} {switchLog : Nat → List String} {out : Generated}
    (hload : Loaded.ofJson o files source = .ok l) (hrun : l.generate solver draw switchLog = .ok out)
    {t t' : TestCase} (ht : t ∈ out.progress.cases) (ht' : t' ∈ out.progress.cases)
    (hone : o.roundRobinParserPaths = false ∨ t.path.parser = t'.path.parser)
    (hdiffer : t.path.parser ≠ t'.path.parser ∨ t.path.control ≠ t'.path.control) :
    t.path.id ≠ t'.path.id ∧ t.members.lookup "log_file_id" ≠ t'.members.lookup "log_file_id" ∧
      ∀ s s' : Solution, s.path = t.path → s'.path = t'.path → ∀ (x x' : Variable) (w w' : Nat),
        (BatchPath.ofSolution s).variableName x w ≠ (BatchPath.ofSolution s').variableName x' w' := by
  have hid : t.path.id ≠ t'.path.id := by
    obtain ⟨paths, batch, g, g', p, hpaths, hbatch, hexplore, hleave⟩ := Loaded.generate_ok hrun
    have hnew : Produce.Accounts [] { batch := batch } {} := by
      refine ⟨by simp, fun b hb => ?_⟩
      rw [hbatch b hb]
      simp [Batch.Holds]
    obtain ⟨known, hg, hsame, hrow⟩ := Produce.explore_numbers (Loaded.nodup_parserPaths hload hpaths) hnew hexplore
    have hcases := (hg.leave hleave).cases
    intro hid
    have hpath : t.path = t'.path := by
      rcases hone with hturns | hparser
      · refine hrow ?_ _ (hcases t ht) _ (hcases t' ht') trivial trivial hid
        change l.setting.options.roundRobinParserPaths = false
        rwa [(Loaded.program_of_ofJson hload).2.2]
      · exact hsame _ _ (hcases t ht) _ (hcases t' ht') hparser rfl hid
    rw [hpath] at hdiffer
    exact hdiffer.elim (· rfl) (· rfl)
  refine ⟨hid, ?_, ?_⟩
  · simpa [TestCase.members] using hid
  · intro s s' hs hs'
    exact BatchPath.names_apart (by rwa [hs, hs'])

/-- In a row the second parser path goes on counting. -/
theorem Loaded.numbers_tell_paths_apart_ported :
    ∃ l out t t', Loaded.ofJson {} (fun _ => none) Small.ported = .ok l ∧
      l.generate (.ideal [Small.ones, PortParser.portZero]) (fun _ => 0) (fun _ => []) = .ok out ∧
      out.progress.cases = [t, t'] ∧ t.path.parser ≠ t'.path.parser ∧ t.path.id ≠ t'.path.id ∧
      t.members.lookup "log_file_id" ≠ t'.members.lookup "log_file_id" := by
  obtain ⟨l, out, t, t', hload, hrun, hcases, hparser, -⟩ := Small.ported_run false
  obtain ⟨hid, hlog, -⟩ := Loaded.numbers_tell_paths_apart hload hrun
    (show t ∈ out.progress.cases by simp [hcases]) (show t' ∈ out.progress.cases by simp [hcases]) (.inl rfl) (.inl hparser)
  exact ⟨l, out, t, t', hload, hrun, hcases, hparser, hid, hlog⟩

/-- In turns every parser path counts from the start. -/
theorem Loaded.numbers_shared_in_turns :
    ∃ l out t t', Loaded.ofJson { roundRobinParserPaths := true } (fun _ => none) Small.ported = .ok l ∧
      l.generate (.ideal [Small.ones, PortParser.portZero]) (fun _ => 0) (fun _ => []) = .ok out ∧
      out.progress.cases = [t, t'] ∧ t.path.parser ≠ t'.path.parser ∧ t.path.id = t'.path.id ∧
      t.members.lookup "log_file_id" = t'.members.lookup "log_file_id" ∧
      ∀ s s' : Solution, s.path = t.path → s'.path = t'.path → ∀ (x : Variable) (w : Nat),
        (BatchPath.ofSolution s).variableName x w = (BatchPath.ofSolution s').variableName x w := by
  obtain ⟨l, out, t, t', hload, hrun, hcases, hparser, hsame⟩ := Small.ported_run true
  have hid : t.path.id = t'.path.id := hsame.mpr rfl
  refine ⟨l, out, t, t', hload, hrun, hcases, hparser, hid, ?_, ?_⟩
  · simp [TestCase.members, hid]
  · intro s s' hs hs' x w
    simp [BatchPath.ofSolution, BatchPath.variableName, hs, hs', hid]

end PacketSmith
