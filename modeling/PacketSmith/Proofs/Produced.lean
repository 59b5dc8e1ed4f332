import PacketSmith.Proofs.Consolidate.Batches
import PacketSmith.Proofs.ModesAgree

/-!
# The paths of test cases

A test case is always one of a solution that was taken. With shared table entries the solution waits in
the batch first. So what holds of the paths of all solutions holds of the paths of all test cases
(`Produce.Holds`), and nothing else is recorded meanwhile (`Batch.Wrote`).
-/

namespace PacketSmith

open List Produce Run Batch

namespace TestCase

variable {packet : Packet} {path : ProgramPath}

theorem path_of_assemble {metadata : Dict FieldRef Bits} {reads writes : List Access} {commands : List TableCommand}
    (h : assemble o packet path metadata reads writes commands ρ = .ok t) : t.path = path := by
  obtain ⟨payload, -, h⟩ := bind_eq_ok.mp h
  cases require_bind_ok h
  rfl

theorem path_of_build (h : build env c packet path model = .ok t) : t.path = path := by
  cases model with
  | none =>
    cases h
    rfl
  | some ρ =>
    obtain ⟨commands, -, h⟩ := bind_eq_ok.mp h
    exact path_of_assemble h

end TestCase

namespace Batch

variable {engine : Engine} {b b' : Batch} {P : ProgramPath → Prop} {st st' : Progress}

def Holds (P : ProgramPath → Prop) (b : Batch) : Prop := ∀ q ∈ b.paths, P q.solution.path

/-- Nothing but test cases was written, of paths of a kind. -/
structure Wrote (P : ProgramPath → Prop) (st st' : Progress) : Prop where
  findings : st'.findings = st.findings
  results : st'.results = st.results
  cases : (∀ t ∈ st.cases, P t.path) → ∀ t ∈ st'.cases, P t.path

theorem Wrote.refl : Wrote P st st := ⟨rfl, rfl, id⟩

theorem Wrote.trans (h : Wrote P st st₁) (h' : Wrote P st₁ st') : Wrote P st st' :=
  ⟨h'.findings.trans h.findings, h'.results.trans h.results, fun hst => h'.cases (h.cases hst)⟩

theorem path_of_testCase (h : testCase engine cs ρ q = .ok t) : t.path = q.solution.path := by
  obtain ⟨t', ht, h⟩ := bind_eq_ok.mp h
  cases require_bind_ok h
  exact TestCase.path_of_assemble ht

theorem wrote_of_writeAll (h : (writeAll engine cs ρ ps).run st = .ok ((), st')) (hps : ∀ q ∈ ps, P q.solution.path) :
    Wrote P st st' := by
  induction ps generalizing st with
  | nil =>
    cases h
    exact .refl
  | cons q ps ih =>
    obtain ⟨hq, hrest⟩ := forall_mem_cons.mp hps
    rw [writeAll] at h
    obtain ⟨now, st₁, hget, hgo⟩ := Run.bind_eq_ok.mp h
    cases hget
    split at hgo
    · cases hgo
      exact .refl
    · obtain ⟨t, st₂, ht, hwrite⟩ := Run.bind_eq_ok.mp hgo
      obtain ⟨htest, rfl⟩ := lift_eq_ok.mp ht
      obtain ⟨_, st₃, hadded, hwritten⟩ := Run.bind_eq_ok.mp hwrite
      cases hadded
      refine .trans ?_ (ih hwritten hrest)
      exact ⟨rfl, rfl, fun hst => forall_mem_cons.mpr ⟨(path_of_testCase htest).symm ▸ hq, hst⟩⟩

theorem wrote_of_flush (h : (b.flush engine).run st = .ok (b', st')) (hb : b.Holds P) : b'.Holds P ∧ Wrote P st st' := by
  obtain ⟨-, rfl, rfl⟩ | ⟨rfl, b₁, st₁, ρ, hdraws, -, hwritten⟩ := flush_ok h
  · exact ⟨hb, .refl⟩
  · refine ⟨by simp [Holds], ?_⟩
    obtain ⟨hpaths, hdrawn⟩ : b₁.paths = b.paths ∧ Wrote P st st₁.called := by
      cases hdraws
      cases engine.options.randomize <;> exact ⟨rfl, rfl, rfl, id⟩
    obtain ⟨-, rfl⟩ | ⟨cs, -, hwrite⟩ := hwritten
    · exact hdrawn
    · exact hdrawn.trans (wrote_of_writeAll hwrite (hpaths ▸ hb))

theorem wrote_of_add (h : (b.add engine s).run st = .ok (b', st')) (hb : b.Holds P) (hs : P s.path) :
    b'.Holds P ∧ Wrote P st st' := by
  obtain ⟨ts, st₁, hts, hrest⟩ := Run.bind_eq_ok.mp h
  obtain ⟨-, rfl⟩ := Run.lift_eq_ok.mp hts
  obtain ⟨b₁, st₂, hfull, hrest⟩ := Run.bind_eq_ok.mp hrest
  obtain ⟨b₂, st₃, hplace, hrest⟩ := Run.bind_eq_ok.mp hrest
  obtain ⟨hcommit, rfl⟩ := Run.lift_eq_ok.mp hrest
  obtain ⟨hholds₁, hwrote₁⟩ : b₁.Holds P ∧ Wrote P st₁ st₂ := by
    rw [flushFull] at hfull
    split at hfull
    · exact wrote_of_flush hfull hb
    · cases hfull
      exact ⟨hb, .refl⟩
  have htried {b₀ tried : Batch} {fits : Bool} {u u' : Progress}
      (h : ((b₀.push (.ofSolution s)).attempt engine (.ofSolution s) ts).run u = .ok ((fits, tried), u'))
      (h₀ : b₀.Holds P) : tried.Holds P ∧ Wrote P u u' := by
    obtain ⟨fs, htried⟩ := tried_of_attempt h
    obtain ⟨_, _, -, hresult⟩ := attempt_eq_ok.mp h
    refine ⟨fun q hq => ?_, by cases hresult; exact ⟨rfl, rfl, id⟩⟩
    rw [htried.paths, mem_append, mem_singleton] at hq
    rcases hq with hq | rfl
    · exact h₀ q hq
    · exact hs
  rw [commit_ok hcommit]
  obtain ⟨⟨fits, tried⟩, st₄, hattempt, hplaced⟩ := Run.bind_eq_ok.mp hplace
  obtain ⟨hholds, hwrote⟩ := htried hattempt hholds₁
  cases fits with
  | true =>
    cases hplaced
    exact ⟨hholds, hwrote₁.trans hwrote⟩
  | false =>
    obtain ⟨b₃, st₅, hflush, hagain⟩ := Run.bind_eq_ok.mp hplaced
    have hpopped : tried.pop.Holds P := fun q hq => hholds q (dropLast_subset _ hq)
    obtain ⟨-, hflushed⟩ := wrote_of_flush hflush hpopped
    obtain ⟨⟨fits, alone⟩, st₆, hattempt, hplaced⟩ := Run.bind_eq_ok.mp hagain
    obtain ⟨halone, hwrote'⟩ := htried hattempt (by simp [Holds])
    obtain ⟨u, st₇, hrequire, hplaced⟩ := Run.bind_eq_ok.mp hplaced
    cases fits with
    | false => cases hrequire
    | true =>
      cases hplaced
      exact ⟨halone, hwrote₁.trans (hwrote.trans (hflushed.trans hwrote'))⟩

end Batch

namespace Produce

variable {engine : Engine} {g g' : Generation} {p p' : Progress} {P : ProgramPath → Prop}
  {f : α → Produce β}

theorem exec_bind_ok :
    (m >>= f).exec g p = .ok r ↔ ∃ a g' p', m.exec g p = .ok ((a, g'), p') ∧ (f a).exec g' p' = .ok r := by
  rw [exec_bind, bind_eq_ok]
  exact ⟨fun ⟨x, hx, h⟩ => ⟨x.1.1, x.1.2, x.2, hx, h⟩, fun ⟨a, g', p', hx, h⟩ => ⟨((a, g'), p'), hx, h⟩⟩

theorem exec_lift_bind_ok {m : Run α} :
    ((liftM m : Produce α) >>= f).exec g p = .ok r ↔
      ∃ a p', m.run p = .ok (a, p') ∧ (f a).exec g p' = .ok r := by
  rw [exec_bind_ok]
  constructor
  · rintro ⟨a, g', p', hm, hf⟩
    obtain ⟨⟨b, q⟩, hrun, hpure⟩ := bind_eq_ok.mp hm
    cases hpure
    exact ⟨_, _, hrun, hf⟩
  · rintro ⟨a, p', hm, hf⟩
    exact ⟨a, g, p', bind_eq_ok.mpr ⟨(a, p'), hm, rfl⟩, hf⟩

theorem lift_ok {e : Except Fault α} (h : (liftM e : Produce α).exec g p = .ok ((a, g'), p')) :
    e = .ok a ∧ g' = g ∧ p' = p := by
  cases e with
  | error f => cases h
  | ok b =>
    cases h
    exact ⟨rfl, rfl, rfl⟩

theorem require_ok {f : Fault} (h : (require b f : Produce Unit).exec g p = .ok ((u, g'), p')) : g' = g ∧ p' = p := by
  cases b with
  | false => cases h
  | true =>
    cases h
    exact ⟨rfl, rfl⟩

theorem enough_bind_ok {f : Bool → Produce β} (h : (enough engine >>= f).exec g p = .ok r) :
    ∃ full, (enough engine).exec g p = .ok ((full, g), p) ∧ (f full).exec g p = .ok r := by
  revert h
  unfold enough
  cases engine.options.numTestCases with
  | none | some most => exact fun h => ⟨_, rfl, h⟩

theorem playSwitch_ok (h : (playSwitch engine t).exec g p = .ok ((u, g'), p')) : g'.batch = g.batch ∧ p' = p := by
  obtain ⟨_, g₁, p₁, hget, hthen⟩ := exec_bind_ok.mp h
  cases hget
  obtain ⟨_, g₂, p₂, hmodify, hthen⟩ := exec_bind_ok.mp hthen
  cases hmodify
  obtain ⟨-, rfl, rfl⟩ := lift_ok hthen
  exact ⟨rfl, rfl⟩

theorem writeCase_ok (h : (writeCase engine s).exec g p = .ok ((u, g'), p')) :
    g'.batch = g.batch ∧ p'.findings = p.findings ∧
      p'.results = p.results ∧ ∃ t : TestCase, t.path = s.path ∧ p'.cases = t :: p.cases := by
  obtain ⟨t, g₁, p₁, hbuild, hchecked⟩ := exec_bind_ok.mp h
  obtain ⟨htest, rfl, rfl⟩ := lift_ok hbuild
  obtain ⟨_, g₂, p₂, hrequire, hplayed⟩ := exec_bind_ok.mp hchecked
  obtain ⟨rfl, rfl⟩ := require_ok hrequire
  have hadd {g : Generation} (h : (liftM (addCase t) : Produce Unit).exec g p₂ = .ok ((u, g'), p')) :
      g'.batch = g.batch ∧ p'.findings = p₂.findings ∧ p'.results = p₂.results ∧
        ∃ t : TestCase, t.path = s.path ∧ p'.cases = t :: p₂.cases := by
    cases h
    exact ⟨rfl, rfl, rfl, t, TestCase.path_of_build htest, rfl⟩
  split at hplayed
  · obtain ⟨_, g₃, p₃, hplay, hadded⟩ := exec_bind_ok.mp hplayed
    obtain ⟨hbatch, rfl⟩ := playSwitch_ok hplay
    rw [← hbatch]
    exact hadd hadded
  · exact hadd hplayed

/-- The paths of what waits in the batch are of a kind. -/
def Waits (P : ProgramPath → Prop) (g : Generation) : Prop := ∀ b, g.batch = some b → b.Holds P

theorem waits_all : Waits (fun _ => True) g := fun _ _ _ _ => trivial

theorem Waits.take (hs : P s.path) (hg : Waits P g) (h : (take engine s).exec g p = .ok ((u, g'), p')) :
    Waits P g' ∧ Batch.Wrote P p p' := by
  obtain ⟨_, g₁, p₁, hget, hthen⟩ := exec_bind_ok.mp h
  cases hget
  split at hthen
  · rename_i b hb
    obtain ⟨b', p₂, hadd, hthen⟩ := exec_lift_bind_ok.mp hthen
    cases hthen
    obtain ⟨hwaiting, hwrote⟩ := wrote_of_add hadd (hg b hb) hs
    refine ⟨?_, hwrote⟩
    rintro _ ⟨⟩
    exact hwaiting
  · obtain ⟨hbatch, hfindings, hresults, t, ht, hcases⟩ := writeCase_ok hthen
    refine ⟨by rwa [Waits, hbatch], hfindings, hresults, fun hp => ?_⟩
    rw [hcases]
    exact forall_mem_cons.mpr ⟨ht ▸ hs, hp⟩

theorem Waits.leave (hg : Waits P g) (h : (leave engine).exec g p = .ok ((u, g'), p')) :
    Waits P g' ∧ Batch.Wrote P p p' := by
  obtain ⟨_, g₁, p₁, hget, hthen⟩ := exec_bind_ok.mp h
  cases hget
  split at hthen
  · rename_i b hb
    obtain ⟨b', p₂, hflush, hthen⟩ := exec_lift_bind_ok.mp hthen
    cases hthen
    exact ⟨hg, (wrote_of_flush hflush (hg b hb)).2⟩
  · cases hthen
    exact ⟨hg, .refl⟩

structure Holds (P : ProgramPath → Prop) (g : Generation) (p : Progress) : Prop where
  cases : ∀ t ∈ p.cases, P t.path
  waiting : Waits P g

theorem Holds.take (hs : P s.path) (hg : Holds P g p) (h : (take engine s).exec g p = .ok ((u, g'), p')) :
    Holds P g' p' :=
  have ⟨hwaiting, hwrote⟩ := hg.waiting.take hs h
  ⟨hwrote.cases hg.cases, hwaiting⟩

theorem Holds.leave (hg : Holds P g p) (h : (leave engine).exec g p = .ok ((u, g'), p')) : Holds P g' p' :=
  have ⟨hwaiting, hwrote⟩ := hg.waiting.leave h
  ⟨hwrote.cases hg.cases, hwaiting⟩

end Produce

theorem Produce.count_ok {paths : List ParserPath}
    (h : (paths.forM fun path => (liftM (count fun s => s.countParserPath path) : Produce PUnit)).exec g p =
      .ok ((u, g'), p')) : g' = g ∧ ∃ statistics, p' = { p with statistics := statistics } := by
  induction paths generalizing p with
  | nil =>
    cases h
    exact ⟨rfl, _, rfl⟩
  | cons path rest ih =>
    obtain ⟨_, p₁, hcount, hrest⟩ := exec_lift_bind_ok.mp h
    cases hcount
    obtain ⟨rfl, statistics, rfl⟩ := ih hrest
    exact ⟨rfl, statistics, rfl⟩

theorem Loaded.generate_ok {l : Loaded} {solver : Solver} {switchLog : Nat → List String}
    (h : l.generate solver draw switchLog = .ok out) :
    ∃ paths batch g g' p, l.parserPaths = .ok paths ∧ (∀ b, batch = some b → b = {}) ∧
      (explore (l.engine solver draw switchLog) paths).exec { batch := batch } {} = .ok (((), g), p) ∧
      (Produce.leave (l.engine solver draw switchLog)).exec g p = .ok (((), g'), out.progress) := by
  obtain ⟨counted, -, hrest⟩ := bind_eq_ok.mp h
  obtain ⟨paths, hpaths, hrest⟩ := bind_eq_ok.mp hrest
  obtain ⟨batch, hbatch, hrun⟩ : ∃ batch : Option Batch, (∀ b, batch = some b → b = {}) ∧
      ∃ g', (all (l.engine solver draw switchLog) paths).exec { batch := batch } {} =
        .ok (((), g'), out.progress) := by
    have hdone {batch : Option Batch}
        (h : (((all (l.engine solver draw switchLog) paths).run { batch := batch }).run {} >>= fun r =>
          pure ⟨r.2, r.1.2.switches⟩) = .ok out) :
        ∃ g', (all (l.engine solver draw switchLog) paths).exec { batch := batch } {} =
          .ok (((), g'), out.progress) := by
      obtain ⟨⟨⟨_, g'⟩, p'⟩, hall, hpure⟩ := bind_eq_ok.mp h
      cases hpure
      exact ⟨g', hall⟩
    dsimp only at hrest
    split at hrest
    · obtain ⟨batch, hbatch, hrest⟩ := bind_eq_ok.mp hrest
      refine ⟨batch, ?_, hdone hrest⟩
      rintro b rfl
      cases hstart : start (l.engine solver draw switchLog) with
      | error f =>
        rw [hstart] at hbatch
        cases hbatch
      | ok b₀ =>
        rw [hstart] at hbatch
        cases hbatch
        obtain ⟨_, -, hpure⟩ := bind_eq_ok.mp (require_bind_ok hstart)
        cases hpure
        rfl
    · exact ⟨none, by simp, hdone hrest⟩
  obtain ⟨g', hall⟩ := hrun
  obtain ⟨_, g, p, hexplore, hleave⟩ := exec_bind_ok.mp hall
  exact ⟨paths, batch, g, g', p, hpaths, hbatch, hexplore, hleave⟩

end PacketSmith
