import PacketSmith.Proofs.Consolidate.Entries

/-!
# Batches while paths are added

The entries of a batch were all made for its paths (`Batch.Sound`). An assignment that satisfies its formulas gives
each path what it was solved for, and no two entries of a table have one key (`Batch.Shared`). This is kept when a
path is added (`Sound.add`), whatever the solver says. `Written` has the batches that are written on the way.
-/

namespace PacketSmith

open List Run Bits SharedEntries Assignment BatchPath

/-! ## Steps of a run -/

namespace Run

variable {m : Run α}

theorem bind_eq_ok : (m >>= f).run st = .ok r ↔ ∃ a st', m.run st = .ok (a, st') ∧ (f a).run st' = .ok r := by
  rw [StateT.run_bind, PacketSmith.bind_eq_ok]
  exact ⟨fun ⟨x, hx, h⟩ => ⟨x.1, x.2, hx, h⟩, fun ⟨a, st', hx, h⟩ => ⟨(a, st'), hx, h⟩⟩

theorem lift_eq_ok {e : Except Fault α} : (liftM e : Run α).run st = .ok (a, st') ↔ e = .ok a ∧ st' = st := by
  have hrun : (liftM e : Run α).run st = e >>= fun a => pure (a, st) := rfl
  rw [hrun, PacketSmith.bind_eq_ok]
  constructor
  · rintro ⟨a', ha', h⟩
    cases h
    exact ⟨ha', rfl⟩
  · rintro ⟨ha, rfl⟩
    exact ⟨a, ha, rfl⟩

theorem pure_eq_ok : (pure a : Run α).run st = .ok r ↔ r = (a, st) :=
  PacketSmith.pure_eq_ok

theorem run_bind_of_ok (h : m.run st = .ok (a, st')) : (m >>= f).run st = (f a).run st' := by
  rw [StateT.run_bind, h]
  rfl

theorem run_bind_of_error (h : m.run st = .error e) : (m >>= f).run st = .error e := by
  rw [StateT.run_bind, h]
  rfl

end Run

def Progress.called (st : Progress) : Progress :=
  { st with statistics := { st.statistics with solverCalls := st.statistics.solverCalls + 1 } }

namespace Batch

variable {engine : Engine} {p : BatchPath} {ts : List TableUse} {b b' : Batch}
  {st st' : Progress} {o : Options} {fs : List Formula} {ss : List Solution}

theorem run_check : (b.check engine).run st = .ok (engine.solver b.asserted, st.called) := rfl

theorem attempt_eq_ok : (b.attempt engine p ts).run st = .ok r ↔ ∃ fs b₁, tie engine.options ts b = .ok (fs, b₁) ∧
      r = (((engine.solver (b₁.assert (p.constraints ++ fs)).asserted).isSat, b₁.assert (p.constraints ++ fs)),
        st.called) := by
  rw [attempt, Run.bind_eq_ok]
  constructor
  · rintro ⟨⟨fs, b₁⟩, st₁, htie, h⟩
    obtain ⟨hok, rfl⟩ := lift_eq_ok.mp htie
    obtain ⟨answer, st₂, hcheck, h⟩ := Run.bind_eq_ok.mp h
    cases hcheck
    exact ⟨fs, b₁, hok, pure_eq_ok.mp h⟩
  · rintro ⟨fs, b₁, htie, rfl⟩
    exact ⟨(fs, b₁), st, lift_eq_ok.mpr ⟨htie, rfl⟩, rfl⟩

/-- What is done when a batch is written. Without paths nothing is. Otherwise draws are made and the solver gives an
assignment, for which the paths are written unless no test case is wanted any more. -/
theorem flush_ok (h : (b.flush engine).run st = .ok (b', st')) :
    (b.paths = [] ∧ b' = b ∧ st' = st) ∨ (b' = {} ∧
      ∃ b₁ st₁ ρ, (b.fixDraws engine).run st = .ok (b₁, st₁) ∧ engine.solver b₁.asserted = .sat ρ ∧
      (some (st₁.statistics.testCases : Int) = engine.options.numTestCases ∧ st' = st₁.called ∨ ∃ cs,
      b₁.commands engine ρ = .ok cs ∧ (writeAll engine cs ρ b₁.paths).run st₁.called = .ok ((), st'))) := by
  rw [flush] at h
  split at h
  · next hempty =>
    cases h
    exact .inl ⟨isEmpty_iff.mp hempty, rfl, rfl⟩
  · obtain ⟨b₁, st₁, hdraws, h⟩ := Run.bind_eq_ok.mp h
    obtain ⟨answer, st₂, hcheck, h⟩ := Run.bind_eq_ok.mp h
    obtain ⟨rfl, rfl⟩ := Prod.mk.inj (Except.ok.inj (run_check.symm.trans hcheck))
    split at h
    · next ρ hanswer =>
      obtain ⟨full, st₃, hfull, h⟩ := Run.bind_eq_ok.mp h
      cases hfull
      split at h
      · next hwanted =>
        cases h
        exact .inr ⟨rfl, b₁, st₁, ρ, hdraws, hanswer, .inl ⟨of_decide_eq_true hwanted, rfl⟩⟩
      · obtain ⟨cs, st₄, hlift, h⟩ := Run.bind_eq_ok.mp h
        obtain ⟨hcs, rfl⟩ := Run.lift_eq_ok.mp hlift
        obtain ⟨u, st₅, hwrite, h⟩ := Run.bind_eq_ok.mp h
        cases h
        exact .inr ⟨rfl, b₁, st₁, ρ, hdraws, hanswer, .inr ⟨cs, hcs, hwrite⟩⟩
    · cases h

theorem flush_cases (h : (b.flush engine).run st = .ok (b', st')) : b' = b ∨ b' = {} :=
  (flush_ok h).imp (fun h => h.2.1) (fun h => h.1)

theorem flushFull_cases (h : (b.flushFull engine).run st = .ok (b', st')) : b' = b ∨ b' = {} := by
  rw [flushFull] at h
  split at h
  · exact flush_cases h
  · cases h
    exact .inl rfl

/-! ## What a batch keeps -/

structure Shared (b : Batch) (ρ : Assignment) : Prop where
  constraints : ∀ p ∈ b.paths, (p.view ρ).Satisfies p.solution.constraints.flatten
  tied : ∀ p ∈ b.paths, ∃ ts, p.tables = .ok ts ∧ ∀ t a like, (t, a, like) ∈ ts →
    ∃ e, b.entries.find? t a = some e ∧ e.Agrees ρ like
  apart : ∀ t a a' e e', b.entries.find? t a = some e → b.entries.find? t a' = some e' → a ≠ a' →
    values ρ e.key ≠ values ρ e'.key

structure Sound (o : Options) (b : Batch) : Prop where
  lengths : b.formulas.length = b.paths.length
  frames : b.frames = b.formulas.reverse ++ [[]]
  wellFormed : b.entries.WellFormed
  made : ∀ t a e, b.entries.find? t a = some e → ∃ p ∈ b.paths, ∃ ts like, p.tables = .ok ts ∧
    (t, a, like) ∈ ts ∧ e = newEntry o t a like
  shared : ∀ ρ : Assignment, ρ.Satisfies b.formulas.flatten → b.Shared ρ

theorem sound_empty (o : Options) : Sound o {} :=
  ⟨rfl, rfl, wellFormed_empty, by simp, fun _ _ => ⟨by simp, by simp, by simp⟩⟩

theorem Sound.asserted (h : Sound o b) : b.asserted = b.formulas.flatten := by
  simp [Batch.asserted, h.frames]

theorem satisfies_constraints : ρ.Satisfies p.constraints ↔ (p.view ρ).Satisfies p.solution.constraints.flatten := by
  have heval (f : Formula) : (f.rename p.variableName).eval ρ = f.eval (p.view ρ) := f.eval_rename _ ρ
  simp only [constraints, Assignment.Satisfies, mem_map, forall_exists_index, and_imp,
    forall_apply_eq_imp_iff₂, heval]

/-- A bit vector of a path has the value that it has in the solution, read through the names of the path. -/
theorem entryValue_bits (ρ : Assignment) (x : Bits) :
    TestCase.entryValue ρ (p.bits x) = TestCase.entryValue (p.view ρ) x :=
  congrArg (EntryValue.number x.width) (congrArg BitVec.toNat (x.term.eval_rename p.variableName ρ))

theorem values_bits (ρ : Assignment) (bs : List Bits) : values ρ (bs.map p.bits) = values (p.view ρ) bs := by
  simp [entryValue_bits]

structure Tried (o : Options) (b : Batch) (p : BatchPath) (ts : List TableUse) (fs : List Formula)
    (tried : Batch) : Prop where
  paths : tried.paths = b.paths ++ [p]
  formulas : tried.formulas = b.formulas ++ [p.constraints ++ fs]
  frames : tried.frames = (p.constraints ++ fs) :: b.frames
  entries : tried.entries = b.entries
  tied : Tied o ts b fs { b with pending := tried.pending, displacements := tried.displacements }

theorem tried_of_tie (h : tie o ts (b.push p) = .ok (fs, b₁)) :
    Tried o b p ts fs (b₁.assert (p.constraints ++ fs)) := by
  have htied := tie_ok h
  refine ⟨htied.paths, ?_, ?_, htied.entries, ?_⟩
  · have hformulas : b₁.formulas = b.formulas ++ [[]] := htied.formulas
    simp [assert, hformulas]
  · have hframes : b₁.frames = [] :: b.frames := htied.frames
    simp [assert, hframes]
  · exact ⟨rfl, rfl, rfl, rfl, htied.wellFormed, htied.older, htied.newer, htied.tied⟩

theorem tried_of_attempt (h : ((b.push p).attempt engine p ts).run st = .ok ((fits, tried), st')) :
    ∃ fs, Tried engine.options b p ts fs tried := by
  obtain ⟨fs, b₁, htie, heq⟩ := attempt_eq_ok.mp h
  cases heq
  exact ⟨fs, tried_of_tie htie⟩

theorem Tried.pop (h : Tried o b p ts fs tried) :
    tried.pop = { b with pending := tried.pending, displacements := tried.displacements } := by
  simp [Batch.pop, h.paths, h.formulas, h.frames, h.entries]

theorem Sound.pop (h : Sound o b) (htried : Tried o b p ts fs tried) : Sound o tried.pop := by
  rw [htried.pop]
  refine ⟨h.lengths, h.frames, h.wellFormed, h.made, fun ρ hρ => ?_⟩
  have hshared := h.shared ρ hρ
  exact ⟨hshared.constraints, hshared.tied, hshared.apart⟩

theorem Sound.tried {tried : Batch} (h : Sound o b) (hpending : b.pending = {}) (htables : p.tables = .ok ts)
    (hnodup : (ts.map Prod.fst).Nodup) (htried : Tried o b p ts fs tried) (hcommit : tried.commit = .ok b') :
    Sound o b' := by
  have hrest := commit_ok hcommit
  have hnone (t a : Label) : b.pending.find? t a = none := by
    rw [hpending]
    rfl
  have hnew : tried.pending.WellFormed := htried.tied.wellFormed (hpending ▸ wellFormed_empty)
  have hfind (t a : Label) : b'.entries.find? t a = (b.entries.find? t a).or (tried.pending.find? t a) := by
    rw [commit_find? hnew hcommit, htried.entries]
  -- an entry is an old one, or it was made for the path and is apart from the old ones of its table
  have hcases (t a : Label) (e : SharedEntry) (he : b'.entries.find? t a = some e) :
      b.entries.find? t a = some e ∨ tried.pending.find? t a = some e := by
    rw [hfind] at he
    cases hold : b.entries.find? t a with
    | none => exact .inr (by simpa [hold] using he)
    | some e' => exact .inl (by simpa [hold] using he)
  have hnewer (t a : Label) (e : SharedEntry) (he : tried.pending.find? t a = some e) :=
    (htried.tied.newer t a e he).resolve_left (by simp [hnone])
  have hpaths : b'.paths = b.paths ++ [p] := by rw [hrest, ← htried.paths]
  have hformulas : b'.formulas = b.formulas ++ [p.constraints ++ fs] := by rw [hrest, ← htried.formulas]
  refine ⟨?_, ?_, ?_, ?_, ?_⟩
  · simp [hpaths, hformulas, h.lengths]
  · rw [hformulas, hrest]
    simp [htried.frames, h.frames]
  · exact commit_wellFormed (htried.entries ▸ h.wellFormed) hnew hcommit
  · intro t a e he
    obtain hold | hnew := hcases t a e he
    · obtain ⟨q, hq, hmade⟩ := h.made t a e hold
      exact ⟨q, by simp [hpaths, hq], hmade⟩
    · obtain ⟨-, ⟨like, hlike, hmade⟩, -⟩ := hnewer t a e hnew
      exact ⟨p, by simp [hpaths], ts, like, htables, hlike, hmade⟩
  · intro ρ hρ
    rw [hformulas, flatten_append, flatten_singleton, satisfies_append,
      satisfies_append] at hρ
    obtain ⟨hbefore, hconstraints, htied⟩ := hρ
    have hshared := h.shared ρ hbefore
    refine ⟨?_, ?_, ?_⟩
    · intro q hq
      obtain hq | rfl := by simpa [hpaths] using hq
      · exact hshared.constraints q hq
      · exact satisfies_constraints.mp hconstraints
    · intro q hq
      obtain hq | rfl := by simpa [hpaths] using hq
      · obtain ⟨ts', hts', hall⟩ := hshared.tied q hq
        refine ⟨ts', hts', fun t a like hlike => ?_⟩
        obtain ⟨e, he, hagrees⟩ := hall t a like hlike
        exact ⟨e, by rw [hfind, he, Option.some_or], hagrees⟩
      · refine ⟨ts, htables, fun t a like hlike => ?_⟩
        obtain ⟨e, he | he, hagrees⟩ := htried.tied.tied t a like hlike
        · exact ⟨e, by rw [hfind, he, Option.some_or], hagrees ρ htied⟩
        · obtain ⟨hold, -⟩ := hnewer t a e he
          exact ⟨e, by rw [hfind, hold, Option.none_or, he], hagrees ρ htied⟩
    · intro t a a' e e' he he' hne
      obtain hold | hnew := hcases t a e he
      · obtain hold' | hnew' := hcases t a' e' he'
        · exact hshared.apart t a a' e e' hold hold' hne
        · exact ((hnewer t a' e' hnew').2.2 a e hold ρ htied).symm
      · obtain hold' | hnew' := hcases t a' e' he'
        · exact (hnewer t a e hnew).2.2 a' e' hold' ρ htied
        · obtain ⟨-, ⟨like, hlike, -⟩, -⟩ := hnewer t a e hnew
          obtain ⟨-, ⟨like', hlike', -⟩, -⟩ := hnewer t a' e' hnew'
          have hsame := (Dict.lookup_of_mem hnodup hlike).symm.trans (Dict.lookup_of_mem hnodup hlike')
          exact absurd (congrArg Prod.fst (Option.some.inj hsame)) hne

/-! ## Tables of a path -/

theorem mapM_bits_eq_ok {keys : List (Option Bits)} :
    (keys.mapM fun | some b => (.ok (p.bits b) : Except Fault Bits) | none => .error .violated) = .ok key ↔
      ∃ bs : List Bits, keys = bs.map some ∧ key = bs.map p.bits := by
  induction keys generalizing key with
  | nil =>
    rw [mapM_nil, pure_eq_ok]
    simp
  | cons x keys ih =>
    rw [mapM_cons, bind_eq_ok]
    constructor
    · rintro ⟨b, hb, h⟩
      obtain ⟨rest, hrest, h⟩ := bind_eq_ok.mp h
      cases h
      obtain ⟨bs, rfl, rfl⟩ := ih.mp hrest
      cases x with
      | none => cases hb
      | some b' =>
        cases hb
        exact ⟨b' :: bs, rfl, rfl⟩
    · rintro ⟨bs, hbs, rfl⟩
      cases bs with
      | nil => cases hbs
      | cons b bs =>
        obtain ⟨rfl, hrest⟩ := List.cons.inj hbs
        exact ⟨p.bits b, rfl, bind_eq_ok.mpr ⟨_, ih.mpr ⟨bs, hrest, rfl⟩, rfl⟩⟩

structure AtTable (p : BatchPath) (t : Label) (keys : List (Option Bits)) (bs : List Bits) (a : Label)
    (like : SharedEntry) : Prop where
  keys : keys = bs.map some
  action : p.solution.context.tableActions.get? t = some a
  entry : like = ⟨bs.map p.bits, (p.solution.context.tableData.getD t []).map p.bits⟩

/-- The tables of a path, with their actions and entries. -/
structure TablesOf (p : BatchPath) (ts : List TableUse) : Prop where
  names : ts.map Prod.fst = p.solution.context.tableKeys.keys
  listed : ∀ t keys, (t, keys) ∈ p.solution.context.tableKeys.entries →
    ∃ bs a like, AtTable p t keys bs a like ∧ (t, a, like) ∈ ts
  taken : ∀ t a like, (t, a, like) ∈ ts →
    ∃ keys bs, (t, keys) ∈ p.solution.context.tableKeys.entries ∧ AtTable p t keys bs a like

theorem tables_of_mapM {f : Label × List (Option Bits) → Except Fault TableUse}
    (hone : ∀ x y, f x = .ok y → y.1 = x.1 ∧ ∃ bs, AtTable p x.1 x.2 bs y.2.1 y.2.2)
    (h : p.solution.context.tableKeys.entries.mapM f = .ok ts) : TablesOf p ts := by
  refine ⟨map_of_mapM (fun x y hy => (hone x y hy).1) h, ?_, ?_⟩
  · intro t keys hkeys
    obtain ⟨⟨t', a, like⟩, hmem, hy⟩ := mem_mapM h hkeys
    obtain ⟨rfl, bs, hat⟩ := hone (t, keys) (t', a, like) hy
    exact ⟨bs, a, like, hat, hmem⟩
  · intro t a like hmem
    obtain ⟨⟨t', keys⟩, hkeys, hy⟩ := mem_of_mapM h _ hmem
    obtain ⟨rfl, bs, hat⟩ := hone (t', keys) (t, a, like) hy
    exact ⟨keys, bs, hkeys, hat⟩

theorem tables_ok (h : p.tables = .ok ts) : TablesOf p ts := by
  obtain ⟨-, h⟩ := require_bind_eq_ok.mp h
  refine tables_of_mapM (fun x y hy => ?_) h
  obtain ⟨key, hkey, hy⟩ := bind_eq_ok.mp hy
  obtain ⟨bs, hbs, rfl⟩ := mapM_bits_eq_ok.mp hkey
  cases haction : p.solution.context.tableActions.get? x.1 with
  | none =>
    rw [haction] at hy
    cases hy
  | some a =>
    rw [haction] at hy
    cases hy
    exact ⟨rfl, bs, hbs, haction, rfl⟩

theorem exists_bits_of_mem (h : p.tables = .ok ts) (hmem : (t, a, like) ∈ ts)
    {b : Bits} (hb : b ∈ like.key ++ like.params) : ∃ b', b = p.bits b' := by
  obtain ⟨keys, bs, -, hat⟩ := (tables_ok h).taken t a like hmem
  rw [hat.entry, ← map_append] at hb
  obtain ⟨b', -, rfl⟩ := mem_map.mp hb
  exact ⟨b', rfl⟩

theorem nodup_tables (h : p.tables = .ok ts) (hnodup : p.solution.context.tableKeys.keys.Nodup) :
    (ts.map Prod.fst).Nodup :=
  (tables_ok h).names ▸ hnodup

/-! ## Adding solutions -/

theorem Sound.add (h : Sound engine.options b) (hpending : b.pending = {})
    (hnodup : s.context.tableKeys.keys.Nodup) (hadd : (b.add engine s).run st = .ok (b', st')) :
    (Sound engine.options b' ∧ ∀ p ∈ b'.paths, p ∈ b.paths ∨ p = .ofSolution s) ∧ b'.pending = {} := by
  obtain ⟨ts, st₁, hts, hrest⟩ := Run.bind_eq_ok.mp hadd
  obtain ⟨htables, rfl⟩ := Run.lift_eq_ok.mp hts
  obtain ⟨b₁, st₂, hfull, hrest⟩ := Run.bind_eq_ok.mp hrest
  obtain ⟨b₂, st₃, hplace, hrest⟩ := Run.bind_eq_ok.mp hrest
  obtain ⟨hcommit, rfl⟩ := Run.lift_eq_ok.mp hrest
  refine ⟨?_, by rw [commit_ok hcommit]⟩
  have hpaths : b'.paths = b₂.paths := by rw [commit_ok hcommit]
  obtain ⟨hsound, hnone, hfrom⟩ : Sound engine.options b₁ ∧ b₁.pending = {} ∧ ∀ p ∈ b₁.paths, p ∈ b.paths := by
    obtain rfl | rfl := flushFull_cases hfull
    · exact ⟨h, hpending, fun _ => id⟩
    · exact ⟨sound_empty _, rfl, by simp⟩
  have hdistinct := nodup_tables htables hnodup
  obtain ⟨⟨fits, tried⟩, st₄, hattempt, hplaced⟩ := Run.bind_eq_ok.mp hplace
  cases fits with
  | true =>
    cases hplaced
    obtain ⟨fs, htried⟩ := tried_of_attempt hattempt
    refine ⟨hsound.tried hnone htables hdistinct htried hcommit, fun p hp => ?_⟩
    rw [hpaths, htried.paths, mem_append, mem_singleton] at hp
    exact hp.imp_left (hfrom p)
  | false =>
    obtain ⟨b₃, st₅, -, hagain⟩ := Run.bind_eq_ok.mp hplaced
    obtain ⟨⟨fits, alone⟩, st₆, hattempt, hplaced⟩ := Run.bind_eq_ok.mp hagain
    obtain ⟨u, st₇, -, hplaced⟩ := Run.bind_eq_ok.mp hplaced
    cases hplaced
    obtain ⟨fs, htried⟩ := tried_of_attempt hattempt
    refine ⟨(sound_empty _).tried rfl htables hdistinct htried hcommit, fun p hp => ?_⟩
    rw [hpaths, htried.paths, mem_append, mem_singleton] at hp
    exact .inr (hp.resolve_left (by simp))

def addAll (engine : Engine) (ss : List Solution) (b : Batch) : Run Batch := ss.foldlM (fun b s => b.add engine s) b

theorem Sound.addAll (h : Sound engine.options b) (hpending : b.pending = {})
    (hnodup : ∀ s ∈ ss, s.context.tableKeys.keys.Nodup) (hadd : (addAll engine ss b).run st = .ok (b', st')) :
    (Sound engine.options b' ∧ ∀ p ∈ b'.paths, p ∈ b.paths ∨ ∃ s ∈ ss, p = .ofSolution s) ∧ b'.pending = {} := by
  induction ss generalizing b st with
  | nil =>
    cases hadd
    exact ⟨⟨h, fun _ => .inl⟩, hpending⟩
  | cons s ss ih =>
    obtain ⟨b₁, st₁, hfirst, hrest⟩ := Run.bind_eq_ok.mp hadd
    obtain ⟨⟨hsound, hfrom⟩, hnone⟩ := h.add hpending (hnodup s mem_cons_self) hfirst
    obtain ⟨⟨hsound', hfrom'⟩, hnone'⟩ := ih hsound hnone (fun s hs => hnodup s (mem_cons_of_mem _ hs)) hrest
    refine ⟨⟨hsound', fun p hp => ?_⟩, hnone'⟩
    obtain hp | ⟨s', hs', rfl⟩ := hfrom' p hp
    · obtain hp | rfl := hfrom p hp
      · exact .inl hp
      · exact .inr ⟨s, mem_cons_self, rfl⟩
    · exact .inr ⟨s', mem_cons_of_mem _ hs', rfl⟩

inductive Written (engine : Engine) (ss : List Solution) : Batch → Prop where
  | between {b : Batch} {st st' : Progress} (hadd : (addAll engine ss {}).run st = .ok (b, st')) : Written engine ss b
  | crowded {b₀ b tried : Batch} {s : Solution} {ts : List TableUse}
      {st st₀ st₁ st₂ : Progress} (hadd : (addAll engine ss {}).run st = .ok (b₀, st₀))
      (hfull : (b₀.flushFull engine).run st₀ = .ok (b, st₁)) (htables : (ofSolution s).tables = .ok ts)
      (hattempt : ((b.push (.ofSolution s)).attempt engine (.ofSolution s) ts).run st₁ = .ok ((false, tried), st₂)) :
      Written engine ss tried.pop

theorem Written.sound (h : Written engine ss b) (hnodup : ∀ s ∈ ss, s.context.tableKeys.keys.Nodup) :
    Sound engine.options b ∧ ∀ p ∈ b.paths, ∃ s ∈ ss, p = .ofSolution s := by
  cases h with
  | between hadd =>
    obtain ⟨⟨hsound, hfrom⟩, -⟩ := (sound_empty engine.options).addAll rfl hnodup hadd
    exact ⟨hsound, fun p hp => (hfrom p hp).resolve_left (by simp)⟩
  | @crowded b₀ b₁ tried s ts st st₀ st₁ st₂ hadd hfull htables hattempt =>
    obtain ⟨⟨hsound, hfrom⟩, -⟩ := (sound_empty engine.options).addAll rfl hnodup hadd
    obtain ⟨hsound', hfrom'⟩ : Sound engine.options b₁ ∧ ∀ p ∈ b₁.paths, p ∈ b₀.paths := by
      obtain rfl | rfl := flushFull_cases hfull
      · exact ⟨hsound, fun _ => id⟩
      · exact ⟨sound_empty _, by simp⟩
    obtain ⟨fs, htried⟩ := tried_of_attempt hattempt
    refine ⟨hsound'.pop htried, fun p hp => ?_⟩
    rw [htried.pop] at hp
    exact (hfrom p (hfrom' p hp)).resolve_left (by simp)

/-! ## Draws -/

theorem asserted_assert (fs : List Formula) : (b.assert fs).asserted = b.asserted ++ fs := by
  simp only [asserted, assert]
  cases b.frames <;> simp

theorem fixDraws_ok (hsound : Sound engine.options b) (h : (b.fixDraws engine).run st = .ok (b', st')) :
    b'.paths = b.paths ∧ b'.entries = b.entries ∧ b'.asserted =
      b.formulas.flatten ++ PathSolver.fixed (fun i => engine.draw (st.drawn + i)) b.displacements := by
  cases h
  cases engine.options.randomize with
  | false => exact ⟨rfl, rfl, by rw [asserted_assert]; exact congrArg (· ++ _) hsound.asserted⟩
  | true => exact ⟨rfl, rfl, by rw [asserted_assert]; simp [assertAnew, asserted]⟩

end Batch

end PacketSmith
