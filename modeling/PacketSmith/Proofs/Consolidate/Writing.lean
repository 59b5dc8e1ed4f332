import PacketSmith.Proofs.Consolidate.Fitting
import PacketSmith.Proofs.Consolidate.Serving

/-!
# Every solution is written once

A batch is written when it is full, when the next path does not fit in, and at the end. Whichever comes first, every
solution gives one test case, in the order in which the solutions were added (`every_solution_written`). In particular
the entries have to be told apart by their names, since two tables can come to share the variables of their entries
(`entries_mixed_up`).
-/

namespace PacketSmith

open List Run Batch Assignment Dict Table Bits Packet BatchPath
open BatchPath (ofSolution)

/-- A solution that a test case can be made of, whatever satisfies its constraints. Variables are known by
their texts. -/
structure Solution.Ready (engine : Engine) (s : Solution) : Prop where
  nodup : s.context.tableKeys.keys.Nodup
  tables : ∃ ts, (ofSolution s).tables = .ok ts
  satisfiable : ∃ ρ : Assignment, Assignment.Satisfies (fun name w => ρ name.display w) s.constraints.flatten
  test : ∀ cs (ρ : Assignment), ((ofSolution s).view ρ).Satisfies s.constraints.flatten →
    ∃ c, testCase engine cs ρ (.ofSolution s) = .ok c

namespace Batch

def Uses (ss : List Solution) (x : TableUse) : Prop :=
  ∃ s ∈ ss, ∃ ts, (ofSolution s).tables = .ok ts ∧ x ∈ ts

/-- Entries that are told apart by their names, and have the same widths where they are of one table. -/
structure Compatible (x y : TableUse) : Prop where
  apart : entryName x.1 x.2.1 = entryName y.1 y.2.1 → x.1 = y.1 ∧ x.2.1 = y.2.1
  key : x.1 = y.1 → x.2.2.key.map width = y.2.2.key.map width
  params : x.1 = y.1 → x.2.1 = y.2.1 → x.2.2.params.map width = y.2.2.params.map width

/-- An entry that commands can be made for. -/
structure Writable (engine : Engine) (x : TableUse) : Prop where
  legal : ∀ b ∈ x.2.2.key ++ x.2.2.params, Legal b.width
  table : ∃ table default id, engine.setting.pipeline.tables.get? x.1 = some table ∧
    table.defaultAction = .ok (default, id) ∧ ∀ k ∈ table.key, ∀ v, ∃ key, entryKey k v = .ok key

/-- Solutions that can share tables. -/
structure Shareable (engine : Engine) (ss : List Solution) : Prop where
  ready : ∀ s ∈ ss, s.Ready engine
  writable : ∀ x, Uses ss x → Writable engine x
  compatible : ∀ x y, Uses ss x → Uses ss y → Compatible x y

variable {engine : Engine} {ss : List Solution} {b b' : Batch} {st : Progress} {s : Solution}
  {ts : List TableUse} {cs : List TableCommand} {ρ : Assignment}
  {st' : Progress}

/-! ## Entries of solutions -/

theorem Sound.uses (h : Sound o b) (hfrom : ∀ p ∈ b.paths, ∃ s ∈ ss, p = .ofSolution s)
    (he : b.entries.find? t a = some e) : ∃ like, Uses ss (t, a, like) ∧ e = newEntry o t a like := by
  obtain ⟨p, hp, ts, like, hts, hmem, rfl⟩ := h.made t a e he
  obtain ⟨s, hs, rfl⟩ := hfrom p hp
  exact ⟨like, ⟨s, hs, ts, hts, hmem⟩, rfl⟩

theorem Shareable.met (hss : Shareable engine ss) (h : Sound o b)
    (hfrom : ∀ p ∈ b.paths, ∃ s ∈ ss, p = .ofSolution s) (hx : Uses ss x) : Met b.entries x := by
  refine ⟨fun e he => ?_, fun other hother => ?_, (hss.writable x hx).legal⟩
  · obtain ⟨like, huse, rfl⟩ := h.uses hfrom he
    have hcompatible := hss.compatible _ _ huse hx
    obtain ⟨hkey, hparams⟩ := map_width_newEntry o x.1 x.2.1 like
    simp [sameWidths, hkey, hparams, hcompatible.key rfl, hcompatible.params rfl rfl]
  · obtain ⟨⟨a, e⟩, hmem, rfl⟩ := mem_map.mp hother
    obtain ⟨like, huse, rfl⟩ := h.uses hfrom (get?_of_mem (h.wellFormed.getD x.1) hmem)
    simp [sameWidths, (map_width_newEntry o x.1 a like).1, (hss.compatible _ _ huse hx).key rfl]

theorem Shareable.nodup_names (hss : Shareable engine ss) (hs : s ∈ ss) (hts : (ofSolution s).tables = .ok ts) :
    ((ts.flatMap fun x => slots x.1 x.2.1 x.2.2).map Prod.fst).Nodup := by
  have hnodup := nodup_tables hts (hss.ready s hs).nodup
  rw [map_flatMap, nodup_flatMap]
  refine ⟨fun x _ => nodup_slots x.1 x.2.1 x.2.2, ?_⟩
  refine (pairwise_map.mp hnodup).imp_of_mem ?_
  intro x y hx hy hne n hn hn'
  have hapart := (hss.compatible x y ⟨s, hs, ts, hts, hx⟩ ⟨s, hs, ts, hts, hy⟩).apart
  exact hne (hapart (entryName_of_mem_slots hn hn')).1

theorem Shareable.satisfiable_alone (hss : Shareable engine ss) (hs : s ∈ ss)
    (hts : (ofSolution s).tables = .ok ts) (o : Options) :
    Satisfiable ((ofSolution s).constraints ++ ts.flatMap (demands o {})) := by
  obtain ⟨σ, hσ⟩ := (hss.ready s hs).satisfiable
  -- the variables of the path without their mark
  let ρ : Assignment := fun name w =>
    σ (String.ofList (name.display.toList.drop (ofSolution s).mark.length)) w
  have hview : (ofSolution s).view ρ = fun name w => σ name.display w := by
    funext name w
    have hdrop : ((ofSolution s).mark ++ name.display).toList.drop (ofSolution s).mark.length =
        name.display.toList := by
      rw [String.toList_append, drop_left' String.length_toList]
    simp only [view, variableName, ρ, Variable.display, hdrop, String.ofList_toList]
  refine ⟨_, satisfies_append.mpr ⟨?_, satisfies_ties_realize (ρ := ρ) hts (hss.nodup_names hs hts)⟩⟩
  rw [satisfies_constraints, view_realize, hview]
  exact hσ

theorem Sound.steady_demands (h : Sound o b) (hts : (ofSolution s).tables = .ok ts) :
    ∀ f ∈ ts.flatMap (demands o b.entries), Steady o f := by
  have hentry (t a : Label) (e : SharedEntry) (he : b.entries.find? t a = some e) :
      ∀ x ∈ e.key ++ e.params, SteadyBits o x := by
    obtain ⟨p, hp, ts', like, hts', hmem, rfl⟩ := h.made t a e he
    exact steadyBits_newEntry t a like
  have hties (e : SharedEntry) (t a : Label) (like : SharedEntry) (hmem : (t, a, like) ∈ ts)
      (he : ∀ x ∈ e.key ++ e.params, SteadyBits o x) : ∀ f ∈ ties e like, Steady o f := by
    intro f hf
    obtain ⟨⟨x, y⟩, hxy, rfl⟩ := mem_map.mp hf
    obtain ⟨hx, hy⟩ : x ∈ e.key ++ e.params ∧ y ∈ like.key ++ like.params := by
      rcases mem_append.mp hxy with hxy | hxy
      · exact ⟨mem_append_left _ (of_mem_zip hxy).1, mem_append_left _ (of_mem_zip hxy).2⟩
      · exact ⟨mem_append_right _ (of_mem_zip hxy).1, mem_append_right _ (of_mem_zip hxy).2⟩
    obtain ⟨y', rfl⟩ := exists_bits_of_mem hts hmem hy
    exact steady_equation (he x hx) (steadyBits_bits s y')
  intro f hf
  obtain ⟨⟨t, a, like⟩, hmem, hf⟩ := mem_flatMap.mp hf
  rw [demands] at hf
  cases hfind : b.entries.find? t a with
  | some e =>
    rw [hfind] at hf
    exact hties e t a like hmem (hentry t a e hfind) f hf
  | none =>
    rw [hfind] at hf
    rcases mem_append.mp hf with hf | hf
    · obtain ⟨other, hother, rfl⟩ := mem_map.mp hf
      obtain ⟨⟨a', e⟩, hmem', rfl⟩ := mem_map.mp hother
      have hold := hentry t a' e (get?_of_mem (h.wellFormed.getD t) hmem')
      exact steady_different (fun x hx => steadyBits_newEntry t a like x (mem_append_left _ hx))
        (fun y hy => hold y (mem_append_left _ hy))
    · exact hties _ t a like hmem (steadyBits_newEntry t a like) f hf

/-! ## Batches that can be written -/

structure Solvable (engine : Engine) (ss : List Solution) (b : Batch) : Prop where
  sound : Sound engine.options b
  origin : ∀ p ∈ b.paths, ∃ s ∈ ss, p = .ofSolution s
  steady : ∀ f ∈ b.formulas.flatten, Steady engine.options f
  satisfiable : Satisfiable b.formulas.flatten
  nodup : b.displacements.Nodup
  shifts : ∀ d ∈ b.displacements, ∃ n : String, d.1 = .shift n

def Gives (engine : Engine) (p : BatchPath) (c : TestCase) : Prop :=
  ∃ cs ρ, (p.view ρ).Satisfies p.solution.constraints.flatten ∧ testCase engine cs ρ p = .ok c

/-- What is still taken of a list, after a number of others, if some number is to be reached. -/
def upTo {α : Type} (limit : Option Int) : Nat → List α → List α
  | _, [] => []
  | n, a :: rest => if some (n : Int) = limit then [] else a :: upTo limit (n + 1) rest

/-- Test cases were added, one for each member of a list in turn, up to the number that is wanted. -/
def Adds {α : Type} (gives : α → TestCase → Prop) (limit : Option Int) (as : List α) (st st' : Progress) : Prop :=
  ∃ cases, List.Forall₂ gives (upTo limit st.statistics.testCases as) cases ∧
    st'.cases = cases.reverse ++ st.cases ∧ st'.statistics.testCases = st.statistics.testCases + cases.length

section Adds

theorem upTo_none (n : Nat) (as : List α) : upTo none n as = as := by
  induction as generalizing n with
  | nil => rfl
  | cons a as ih => rw [upTo, if_neg (by simp), ih]

theorem upTo_full (n : Nat) (as : List α) : upTo (some (n : Int)) n as = [] := by
  cases as with
  | nil => rfl
  | cons a as => exact if_pos rfl

theorem upTo_append (limit : Option Int) (n : Nat) (as bs : List α) :
    upTo limit n (as ++ bs) = upTo limit n as ++ upTo limit (n + (upTo limit n as).length) bs := by
  induction as generalizing n with
  | nil => rfl
  | cons a as ih =>
    rw [cons_append, upTo, upTo]
    split
    · next hfull => rw [← hfull, length_nil, Nat.add_zero, upTo_full, append_nil]
    · rw [ih, length_cons, cons_append, Nat.add_right_comm, Nat.add_assoc]

theorem adds_nil (hcases : st₁.cases = st.cases) (hcount : st₁.statistics.testCases = st.statistics.testCases) :
    Adds gives limit [] st st₁ :=
  ⟨[], .nil, hcases, hcount⟩

theorem adds_full (hfull : some (st.statistics.testCases : Int) = limit) (as : List α) : Adds gives limit as st st := by
  refine ⟨[], ?_, rfl, rfl⟩
  rw [← hfull, upTo_full]
  exact .nil

theorem adds_one (hroom : some (st.statistics.testCases : Int) ≠ limit) (hc : gives a c)
    (hcases : st₁.cases = c :: st.cases) (hcount : st₁.statistics.testCases = st.statistics.testCases + 1) :
    Adds gives limit [a] st st₁ := by
  refine ⟨[c], ?_, hcases, hcount⟩
  rw [upTo, if_neg hroom]
  exact .cons hc .nil

theorem Adds.append (h : Adds gives limit as st st₁) (h' : Adds gives limit bs st₁ st₂) :
    Adds gives limit (as ++ bs) st st₂ := by
  obtain ⟨early, hearly, hcases, hcount⟩ := h
  obtain ⟨late, hlate, hcases', hcount'⟩ := h'
  refine ⟨early ++ late, ?_, by simp [hcases', hcases], by rw [hcount', hcount, length_append, Nat.add_assoc]⟩
  rw [upTo_append, hearly.length_eq, ← hcount]
  exact rel_append hearly hlate

theorem Adds.all (h : Adds gives limit as st st₁) (hall : limit = none) :
    ∃ cases, List.Forall₂ gives as cases ∧ st₁.cases = cases.reverse ++ st.cases := by
  obtain ⟨cases, hcases, hst₁, -⟩ := h
  rw [hall, upTo_none] at hcases
  exact ⟨cases, hcases, hst₁⟩

end Adds

abbrev Writes (engine : Engine) : List BatchPath → Progress → Progress → Prop :=
  Adds (Gives engine) engine.options.numTestCases

theorem Solvable.satisfiable_drawn (h : Solvable engine ss b) (draw : Nat → Nat) :
    Satisfiable (b.formulas.flatten ++ PathSolver.fixed draw b.displacements) := by
  obtain ⟨ρ, hρ⟩ := h.satisfiable
  refine ⟨redraw engine.options (drawnAt draw b.displacements) ρ, satisfies_append.mpr ⟨?_, ?_⟩⟩
  · intro f hf
    rw [h.steady f hf]
    exact hρ f hf
  · exact satisfies_fixed_redraw h.nodup h.shifts draw ρ

theorem entryConfig_of_keys {t : Table} {default : Label} {id : Int} (hdefault : t.defaultAction = .ok (default, id))
    (hkeys : ∀ k ∈ t.key, ∀ v, ∃ key, entryKey k v = .ok key) (action : Label) (byDefault : Bool)
    (values : List EntryValue) (params : List (Json × EntryValue)) :
    ∃ r, t.entryConfig action byDefault values params = .ok r := by
  obtain ⟨keys, hok⟩ : ∃ keys, ((t.key.zip values).mapM fun x => entryKey x.1 x.2) = .ok keys :=
    exists_mapM_eq_ok fun x hx => hkeys x.1 (of_mem_zip hx).1 x.2
  cases hentry : t.defaultEntry with
  | none =>
    rw [defaultAction, hentry] at hdefault
    cases hdefault
  | some entry =>
    refine ⟨if keys.isEmpty && entry.actionConst.truth then none else some ⟨t.name, action, byDefault, keys, params⟩, ?_⟩
    refine bind_eq_ok.mpr ⟨keys, hok, ?_⟩
    rw [hentry]
    dsimp only
    split <;> rfl

theorem exists_bind_of_exists {f : α → Except Fault β} (hm : ∃ a, m = .ok a)
    (hf : ∀ a, ∃ c, f a = .ok c) : ∃ c, m >>= f = .ok c := by
  obtain ⟨a, rfl⟩ := hm
  exact hf a

theorem Solvable.commands (hss : Shareable engine ss) (h : Solvable engine ss b) (ρ : Assignment) :
    ∃ cs, b.commands engine ρ = .ok cs := by
  refine exists_bind_of_exists (exists_mapM_eq_ok fun x hx => ?_) fun all => ⟨_, rfl⟩
  -- the table is known, since it has an entry
  obtain ⟨a, ha⟩ := h.sound.wellFormed.nonempty x.2 (mem_map_of_mem hx)
  obtain ⟨e, he⟩ := Option.ne_none_iff_exists'.mp ha
  obtain ⟨like, huse, -⟩ := h.sound.uses h.origin
    (h.sound.wellFormed.find?_of_mem hx (mem_entries_of_get? he))
  obtain ⟨table, default, id, htable, hdefault, hkeys⟩ := (hss.writable _ huse).table
  dsimp only
  rw [htable]
  dsimp only
  rw [hdefault]
  refine exists_mapM_eq_ok fun y _ => ?_
  obtain ⟨config, hconfig⟩ := entryConfig_of_keys hdefault hkeys y.1 (y.1 == default)
    (y.2.key.map (TestCase.entryValue ρ)) (y.2.params.map fun p => (Json.str p.display, TestCase.entryValue ρ p))
  exact ⟨_, bind_eq_ok.mpr ⟨config, hconfig, rfl⟩⟩

theorem writeAll_of_tests (hviews : ∀ p ∈ ps, (p.view ρ).Satisfies p.solution.constraints.flatten)
    (htests : ∀ p ∈ ps, ∃ c, testCase engine cs ρ p = .ok c) (st : Progress) :
    ∃ st', (writeAll engine cs ρ ps).run st = .ok ((), st') ∧ Writes engine ps st st' := by
  induction ps generalizing st with
  | nil => exact ⟨st, rfl, adds_nil rfl rfl⟩
  | cons p ps ih =>
    by_cases hfull : some (st.statistics.testCases : Int) = engine.options.numTestCases
    · exact ⟨st, Run.bind_eq_ok.mpr ⟨st, st, rfl, by rw [if_pos hfull]; rfl⟩, adds_full hfull _⟩
    obtain ⟨⟨c, hc⟩, htests⟩ := forall_mem_cons.mp htests
    obtain ⟨hview, hviews⟩ := forall_mem_cons.mp hviews
    let st₁ : Progress :=
      { st with cases := c :: st.cases, statistics := { st.statistics with testCases := st.statistics.testCases + 1 } }
    have hfirst : Writes engine [p] st st₁ := adds_one hfull ⟨cs, ρ, hview, hc⟩ rfl rfl
    obtain ⟨st', hrun, hrest⟩ := ih hviews htests st₁
    refine ⟨st', Run.bind_eq_ok.mpr ⟨st, st, rfl, ?_⟩, hfirst.append hrest⟩
    rw [if_neg hfull]
    refine Run.bind_eq_ok.mpr ⟨c, st, Run.lift_eq_ok.mpr ⟨hc, rfl⟩, ?_⟩
    exact Run.bind_eq_ok.mpr ⟨(), st₁, rfl, hrun⟩

theorem Solvable.flush (hss : Shareable engine ss) (hsolver : engine.solver.Decides) (h : Solvable engine ss b)
    (st : Progress) :
    ∃ st', (b.flush engine).run st = .ok (if b.paths.isEmpty then b else {}, st') ∧ Writes engine b.paths st st' := by
  rw [Batch.flush]
  cases hempty : b.paths.isEmpty with
  | true =>
    rw [isEmpty_iff.mp hempty]
    exact ⟨st, rfl, adds_nil rfl rfl⟩
  | false =>
    obtain ⟨b₁, st₁, hdraws, hquiet⟩ : ∃ b₁ st₁, (b.fixDraws engine).run st = .ok (b₁, st₁) ∧
        Writes engine [] st st₁.called := ⟨_, _, rfl, adds_nil rfl rfl⟩
    obtain ⟨hpaths, hentries, hasserted⟩ := fixDraws_ok h.sound hdraws
    obtain ⟨ρ, hanswer, hρ⟩ := hsolver.exists_sat (hasserted ▸ h.satisfiable_drawn _)
    have hshared : b.Shared ρ := h.sound.shared ρ (satisfies_append.mp (hasserted ▸ hρ)).1
    obtain ⟨cs, hcs⟩ := h.commands hss ρ
    have hcs₁ : b₁.commands engine ρ = .ok cs := by rw [← hcs, Batch.commands, Batch.commands, hentries]
    have htests : ∀ p ∈ b.paths, ∃ c, testCase engine cs ρ p = .ok c := by
      intro p hp
      obtain ⟨s, hs, rfl⟩ := h.origin p hp
      exact (hss.ready s hs).test cs ρ (hshared.constraints _ hp)
    have hfull : (isFull engine).run st₁.called =
        .ok (decide (some (st₁.called.statistics.testCases : Int) = engine.options.numTestCases), st₁.called) := rfl
    by_cases hcount : some (st₁.called.statistics.testCases : Int) = engine.options.numTestCases
    · refine ⟨st₁.called, ?_, hquiet.append (adds_full hcount b.paths)⟩
      rw [if_neg (by simp), run_bind_of_ok hdraws, run_bind_of_ok run_check, hanswer]
      rw [run_bind_of_ok hfull, if_pos (by simp [hcount])]
      rfl
    · obtain ⟨st', hrun, hwrites⟩ := writeAll_of_tests hshared.constraints htests st₁.called
      refine ⟨st', ?_, hquiet.append hwrites⟩
      rw [if_neg (by simp), run_bind_of_ok hdraws, run_bind_of_ok run_check, hanswer]
      rw [run_bind_of_ok hfull, if_neg (by simp [hcount]), run_bind_of_ok (lift_eq_ok.mpr ⟨hcs₁, rfl⟩), hpaths]
      exact Run.bind_eq_ok.mpr ⟨(), st', hrun, rfl⟩

/-! ## Adding solutions -/

structure Kept (engine : Engine) (ss : List Solution) (b : Batch) : Prop extends Solvable engine ss b where
  pending : b.pending = {}
  owned : ∀ d ∈ b.displacements, ∃ x, Uses ss x ∧ b.entries.find? x.1 x.2.1 ≠ none ∧
    d ∈ newShifts engine.options x.1 x.2.1 x.2.2

theorem kept_empty (engine : Engine) (ss : List Solution) : Kept engine ss {} where
  sound := sound_empty engine.options
  origin := by simp
  steady := by simp
  satisfiable := ⟨fun _ _ => 0, by simp⟩
  nodup := nodup_nil
  shifts := by simp
  pending := rfl
  owned := by simp

section Add

variable {s : Solution} {ts : List TableUse} {tried : Batch}

theorem Kept.nodup_shifts (hss : Shareable engine ss) (h : Kept engine ss b) (hs : s ∈ ss)
    (hts : (ofSolution s).tables = .ok ts) :
    (b.displacements ++ ts.flatMap (shiftsFor engine.options b.entries)).Nodup := by
  have huses {x : TableUse} (hx : x ∈ ts) : Uses ss x := ⟨s, hs, ts, hts, hx⟩
  rw [nodup_append]
  refine ⟨h.nodup, nodup_flatMap.mpr ⟨fun x _ => ?_, ?_⟩, ?_⟩
  · rw [shiftsFor]
    split
    · exact nodup_nil
    · exact nodup_newShifts ..
  · refine (pairwise_map.mp (nodup_tables hts (hss.ready s hs).nodup)).imp_of_mem ?_
    intro x y hx hy hne d hd hd'
    have hname := entryName_of_mem_newShifts (of_mem_shiftsFor hd).2 (of_mem_shiftsFor hd').2
    exact hne ((hss.compatible x y (huses hx) (huses hy)).apart hname).1
  · rintro d hd d' hd' rfl
    obtain ⟨x, hx, hfound, hdx⟩ := h.owned d hd
    obtain ⟨y, hy, hdy⟩ := mem_flatMap.mp hd'
    obtain ⟨hnone, hdy⟩ := of_mem_shiftsFor hdy
    obtain ⟨htable, haction⟩ := (hss.compatible x y hx (huses hy)).apart (entryName_of_mem_newShifts hdx hdy)
    rw [htable, haction] at hfound
    exact hfound hnone

structure OnTrial (engine : Engine) (b : Batch) (s : Solution) (ts : List TableUse) (tried : Batch) : Prop where
  trial : Tried engine.options b (.ofSolution s) ts (ts.flatMap (demands engine.options b.entries)) tried
  displacements : tried.displacements = b.displacements ++ ts.flatMap (shiftsFor engine.options b.entries)

theorem Kept.attempt (hss : Shareable engine ss)
    (h : Kept engine ss b) (hs : s ∈ ss) (hts : (ofSolution s).tables = .ok ts) (st : Progress) :
    ∃ tried, OnTrial engine b s ts tried ∧
      ((b.push (.ofSolution s)).attempt engine (.ofSolution s) ts).run st =
      .ok (((engine.solver tried.asserted).isSat, tried), st.called) := by
  have hmet : ∀ x ∈ ts, Met b.entries x := fun x hx => hss.met h.sound h.origin ⟨s, hs, ts, hts, hx⟩
  have hnone : ∀ x ∈ ts, b.pending.find? x.1 x.2.1 = none := fun x _ => by rw [h.pending]; rfl
  obtain ⟨pending, htie⟩ := tie_of_met (o := engine.options) (b := b.push (.ofSolution s))
    (nodup_tables hts (hss.ready s hs).nodup) hnone hmet
  exact ⟨_, ⟨tried_of_tie htie, rfl⟩, attempt_eq_ok.mpr ⟨_, _, htie, rfl⟩⟩

theorem OnTrial.asserted (htried : OnTrial engine b s ts tried) (h : Sound o b) :
    tried.asserted = tried.formulas.flatten := by
  simp [Batch.asserted, htried.trial.frames, htried.trial.formulas, h.frames]

theorem Kept.shifts_tried (h : Kept engine ss b) (htried : OnTrial engine b s ts tried) :
    ∀ d ∈ tried.displacements, ∃ n : String, d.1 = .shift n := by
  rw [htried.displacements]
  intro d hd
  rcases mem_append.mp hd with hd | hd
  · exact h.shifts d hd
  · obtain ⟨x, -, hd⟩ := mem_flatMap.mp hd
    obtain ⟨n, -, hn⟩ := exists_of_mem_newShifts (of_mem_shiftsFor hd).2
    exact ⟨n, hn⟩

section

variable (hss : Shareable engine ss) (h : Kept engine ss b) (hs : s ∈ ss)
  (hts : (ofSolution s).tables = .ok ts) (htried : OnTrial engine b s ts tried)

include hss h hs hts htried

theorem Kept.popped : Solvable engine ss tried.pop := by
  have hsound := h.sound.pop htried.trial
  have hshifts := h.shifts_tried htried
  rw [htried.trial.pop] at hsound ⊢
  refine ⟨hsound, h.origin, h.steady, h.satisfiable, ?_, hshifts⟩
  rw [htried.displacements]
  exact h.nodup_shifts hss hs hts

theorem Kept.commit (hsat : Satisfiable tried.formulas.flatten) : ∃ b', tried.commit = .ok b' ∧ Kept engine ss b' ∧
    b'.paths = b.paths ++ [.ofSolution s] := by
  have htied := htried.trial.tied
  have hwell : tried.pending.WellFormed := htied.wellFormed (h.pending ▸ SharedEntries.wellFormed_empty)
  have hnew (t a : Label) (hpending : tried.pending.find? t a ≠ none) : tried.entries.find? t a = none := by
    obtain ⟨e, he⟩ := Option.ne_none_iff_exists'.mp hpending
    rw [htried.trial.entries]
    obtain hold | ⟨hnone, -⟩ := htied.newer t a e he
    · rw [h.pending] at hold
      cases hold
    · exact hnone
  obtain ⟨b', hcommit⟩ := commit_of_new hwell hnew
  have hrest := commit_ok hcommit
  have hpaths : b'.paths = b.paths ++ [.ofSolution s] := by rw [hrest, ← htried.trial.paths]
  have hformulas : b'.formulas = tried.formulas := by rw [hrest]
  have hdisplacements : b'.displacements = tried.displacements := by rw [hrest]
  have hfind (t a : Label) : b'.entries.find? t a = (b.entries.find? t a).or (tried.pending.find? t a) := by
    rw [commit_find? hwell hcommit, htried.trial.entries]
  refine ⟨b', hcommit, ⟨⟨?_, ?_, ?_, ?_, ?_, ?_⟩, ?_, ?_⟩, hpaths⟩
  · exact h.sound.tried h.pending hts (nodup_tables hts (hss.ready s hs).nodup) htried.trial hcommit
  · rw [hpaths]
    exact forall_mem_append.mpr ⟨h.origin, forall_mem_singleton.mpr ⟨s, hs, rfl⟩⟩
  · rw [hformulas, htried.trial.formulas, flatten_append, flatten_singleton]
    refine forall_mem_append.mpr ⟨h.steady, forall_mem_append.mpr ⟨steady_constraints s, ?_⟩⟩
    exact h.sound.steady_demands hts
  · rw [hformulas]
    exact hsat
  · rw [hdisplacements, htried.displacements]
    exact h.nodup_shifts hss hs hts
  · rw [hdisplacements]
    exact h.shifts_tried htried
  · rw [hrest]
  · rw [hdisplacements, htried.displacements]
    intro d hd
    rcases mem_append.mp hd with hd | hd
    · obtain ⟨x, hx, hfound, hdx⟩ := h.owned d hd
      exact ⟨x, hx, by simp [hfind, hfound], hdx⟩
    · obtain ⟨⟨t, a, like⟩, hx, hd⟩ := mem_flatMap.mp hd
      refine ⟨(t, a, like), ⟨s, hs, ts, hts, hx⟩, ?_, (of_mem_shiftsFor hd).2⟩
      obtain ⟨e, he | he, -⟩ := htied.tied t a like hx
      · simp [hfind, he]
      · have hpending : tried.pending.find? t a = some e := he
        simp [hfind, hpending]

end

theorem Kept.place (hss : Shareable engine ss) (hsolver : engine.solver.Decides)
    (h : Kept engine ss b) (hs : s ∈ ss) (hts : (ofSolution s).tables = .ok ts) (st : Progress) :
    ∃ tried b' st' written, (b.place engine (.ofSolution s) ts).run st = .ok (tried, st') ∧
      tried.commit = .ok b' ∧ Kept engine ss b' ∧ b.paths ++ [.ofSolution s] = written ++ b'.paths ∧
      b'.paths.length ≤ b.paths.length + 1 ∧ Writes engine written st st' := by
  obtain ⟨tried, htried, hattempt⟩ := h.attempt hss hs hts st
  cases hsat : (engine.solver tried.asserted).isSat with
  | true =>
    rw [hsat] at hattempt
    rw [hsolver.isSat_iff, htried.asserted h.sound] at hsat
    obtain ⟨b', hcommit, hkept, hpaths⟩ := h.commit hss hs hts htried hsat
    refine ⟨tried, b', st.called, [], ?_, hcommit, hkept, by simp [hpaths], by simp [hpaths], adds_nil rfl rfl⟩
    exact Run.bind_eq_ok.mpr ⟨_, _, hattempt, rfl⟩
  | false =>
    rw [hsat] at hattempt
    obtain ⟨st₁, hflush, hwrites⟩ := (h.popped hss hs hts htried).flush hss hsolver st.called
    obtain ⟨alone, halone, hagain⟩ := (kept_empty engine ss).attempt hss hs hts st₁
    have hfits : Satisfiable alone.formulas.flatten := by
      rw [halone.trial.formulas]
      simpa using hss.satisfiable_alone hs hts engine.options
    obtain ⟨b', hcommit, hkept, hpaths⟩ := (kept_empty engine ss).commit hss hs hts halone hfits
    have hpopped : tried.pop.paths = b.paths := by rw [htried.trial.pop]
    rw [hpopped] at hwrites
    refine ⟨alone, b', st₁.called, b.paths, ?_, hcommit, hkept, by simp [hpaths], by simp [hpaths], hwrites⟩
    rw [← halone.asserted (sound_empty engine.options), ← hsolver.isSat_iff] at hfits
    rw [hfits] at hagain
    refine Run.bind_eq_ok.mpr ⟨_, _, hattempt, ?_⟩
    refine Run.bind_eq_ok.mpr ⟨_, _, hflush, ?_⟩
    exact Run.bind_eq_ok.mpr ⟨_, _, hagain, rfl⟩

/-- A batch does not have more paths than are to be written together, if that is limited. -/
def Within (engine : Engine) (b : Batch) : Prop :=
  ∀ n : Int, engine.options.consolidateTables = some n → 1 ≤ n → (b.paths.length : Int) ≤ n

section

variable (hss : Shareable engine ss) (hsolver : engine.solver.Decides) (h : Kept engine ss b)
  (hwithin : b.Within engine)

include hss hsolver h hwithin

theorem Kept.flushFull (st : Progress) :
    ∃ b' st' written, (b.flushFull engine).run st = .ok (b', st') ∧
      Kept engine ss b' ∧ b.paths = written ++ b'.paths ∧
      (∀ n : Int, engine.options.consolidateTables = some n → 1 ≤ n → (b'.paths.length : Int) < n) ∧
      Writes engine written st st' := by
  rw [Batch.flushFull]
  by_cases hfull : engine.options.consolidateTables = some (b.paths.length : Int)
  · rw [if_pos hfull]
    obtain ⟨st', hflush, hwrites⟩ := h.toSolvable.flush hss hsolver st
    cases hempty : b.paths.isEmpty with
    | true =>
      rw [hempty] at hflush
      have hnil := isEmpty_iff.mp hempty
      refine ⟨b, st', b.paths, hflush, h, by simp [hnil], fun n hn hpos => ?_, hwrites⟩
      rw [hnil]
      exact hpos
    | false =>
      rw [hempty] at hflush
      exact ⟨{}, st', b.paths, hflush, kept_empty engine ss, by simp, fun n _ hpos => hpos, hwrites⟩
  · rw [if_neg hfull]
    refine ⟨b, st, [], rfl, h, rfl, fun n hn hpos => ?_, adds_nil rfl rfl⟩
    have hle := hwithin n hn hpos
    have hne : n ≠ b.paths.length := fun heq => hfull (heq ▸ hn)
    omega

theorem Kept.add (hs : s ∈ ss) (st : Progress) :
    ∃ b' st' written, (b.add engine s).run st = .ok (b', st') ∧ (Kept engine ss b' ∧ b'.Within engine) ∧
      b.paths ++ [.ofSolution s] = written ++ b'.paths ∧ Writes engine written st st' := by
  obtain ⟨ts, hts⟩ := (hss.ready s hs).tables
  obtain ⟨b₁, st₁, early, hfull, hkept₁, hpaths₁, hroom, hearly⟩ := h.flushFull hss hsolver hwithin st
  obtain ⟨tried, b₂, st₂, late, hplace, hcommit, hkept₂, hpaths₂, hlength, hlate⟩ := hkept₁.place hss hsolver hs hts st₁
  refine ⟨b₂, st₂, early ++ late, ?_, ⟨hkept₂, fun n hn hpos => ?_⟩, ?_, hearly.append hlate⟩
  · refine Run.bind_eq_ok.mpr ⟨ts, st, Run.lift_eq_ok.mpr ⟨hts, rfl⟩, ?_⟩
    refine Run.bind_eq_ok.mpr ⟨b₁, st₁, hfull, ?_⟩
    exact Run.bind_eq_ok.mpr ⟨tried, st₂, hplace, Run.lift_eq_ok.mpr ⟨hcommit, rfl⟩⟩
  · have hlt := hroom n hn hpos
    omega
  · rw [hpaths₁, append_assoc, hpaths₂, append_assoc]

end

end Add

theorem Kept.addAll (hss : Shareable engine ss) (hsolver : engine.solver.Decides)
    (h : Kept engine ss b) (hwithin : b.Within engine) (hnew : ∀ s ∈ new, s ∈ ss) (st : Progress) :
    ∃ b' st' written, (addAll engine new b).run st = .ok (b', st') ∧
      (Kept engine ss b' ∧ b'.Within engine) ∧
      b.paths ++ new.map .ofSolution = written ++ b'.paths ∧ Writes engine written st st' := by
  induction new generalizing b st with
  | nil => exact ⟨b, st, [], rfl, ⟨h, hwithin⟩, by simp, adds_nil rfl rfl⟩
  | cons s new ih =>
    obtain ⟨hs, hnew⟩ := forall_mem_cons.mp hnew
    obtain ⟨b₁, st₁, early, hadd, ⟨hkept₁, hwithin₁⟩, hpaths₁, hearly⟩ := h.add hss hsolver hwithin hs st
    obtain ⟨b₂, st₂, late, haddAll, hkept₂, hpaths₂, hlate⟩ := ih hkept₁ hwithin₁ hnew st₁
    refine ⟨b₂, st₂, early ++ late, ?_, hkept₂, ?_, hearly.append hlate⟩
    · exact Run.bind_eq_ok.mpr ⟨b₁, st₁, hadd, haddAll⟩
    · rw [append_assoc, ← hpaths₂, ← append_assoc, ← hpaths₁]
      simp

/-! ## Batches that are written -/

theorem length_cases_of_writeAll (hall : engine.options.numTestCases = none)
    (h : (writeAll engine cs ρ ps).run st = .ok ((), st')) : st'.cases.length = st.cases.length + ps.length := by
  induction ps generalizing st with
  | nil =>
    cases h
    rfl
  | cons p ps ih =>
    obtain ⟨now, st₁, hget, hgo⟩ := Run.bind_eq_ok.mp h
    cases hget
    rw [if_neg (by simp [hall])] at hgo
    obtain ⟨c, st₂, hc, hwrite⟩ := Run.bind_eq_ok.mp hgo
    obtain ⟨-, rfl⟩ := lift_eq_ok.mp hc
    obtain ⟨_, st₃, hadded, hrest⟩ := Run.bind_eq_ok.mp hwrite
    cases hadded
    rw [ih hrest, length_cons, length_cons]
    omega

theorem length_cases_of_flush (hall : engine.options.numTestCases = none)
    (h : (b.flush engine).run st = .ok (b', st')) : st'.cases.length = st.cases.length + b.paths.length := by
  obtain ⟨hempty, -, rfl⟩ | ⟨-, b₁, st₁, ρ, hdraws, -, ⟨hfull, -⟩ | ⟨cs, -, hwrite⟩⟩ := flush_ok h
  · simp [hempty]
  · rw [hall] at hfull
    cases hfull
  · rw [length_cases_of_writeAll hall hwrite]
    cases hdraws
    cases engine.options.randomize <;> rfl

theorem within_empty (engine : Engine) : Within engine {} := by
  intro n _ hpos
  exact Int.le_trans (by decide) hpos

theorem Written.within (hss : Shareable engine ss) (hsolver : engine.solver.Decides) (hnew : ∀ s ∈ new, s ∈ ss)
    (h : Written engine new b) : b.Within engine := by
  cases h with
  | @between b st st' hadd =>
    obtain ⟨kept, _, -, hrun, ⟨-, hwithin⟩, -⟩ :=
      (kept_empty engine ss).addAll hss hsolver (within_empty engine) hnew st
    cases hadd.symm.trans hrun
    exact hwithin
  | @crowded b₀ b₁ tried s ts st st₀ st₁ st₂ hadd hfull htables hattempt =>
    obtain ⟨kept, _, -, hrun, ⟨hkept, hwithin⟩, -⟩ :=
      (kept_empty engine ss).addAll hss hsolver (within_empty engine) hnew st
    cases hadd.symm.trans hrun
    obtain ⟨roomy, _, -, hroomy, -, -, hroom, -⟩ := hkept.flushFull hss hsolver hwithin st₀
    cases hfull.symm.trans hroomy
    obtain ⟨fs, htried⟩ := tried_of_attempt hattempt
    rw [htried.pop]
    intro n hn hpos
    exact Int.le_of_lt (hroom n hn hpos)

end Batch

/-- However many paths are written together, every solution gives one test case, in the order in which
the solutions are added. On the way a batch has a list of formulas and a frame for each of its paths, above the
outermost frame, and the paths that are written or in the batch are those of the solutions so far.
No batch that is written has more paths than the limit, unless there is none. -/
theorem every_solution_written {engine : Engine} {ss : List Solution} {n : Int} (hsolver : engine.solver.Decides)
    (hall : engine.options.numTestCases = none) (hlimit : engine.options.consolidateTables = some n)
    (hss : Batch.Shareable engine ss) (st : Progress) :
    (∃ b st₁ b' st₂ cases, (Batch.addAll engine ss {}).run st = .ok (b, st₁) ∧
      (b.flush engine).run st₁ = .ok (b', st₂) ∧ st₂.cases = cases.reverse ++ st.cases ∧
      List.Forall₂ (Batch.Gives engine) (ss.map .ofSolution) cases) ∧
    (∀ k, ∃ b st' written cases, (Batch.addAll engine (ss.take k) {}).run st = .ok (b, st') ∧
      b.formulas.length = b.paths.length ∧ b.frames.length = b.paths.length + 1 ∧
      (ss.take k).map .ofSolution = written ++ b.paths ∧ st'.cases = cases.reverse ++ st.cases ∧
      List.Forall₂ (Batch.Gives engine) written cases) ∧
    ∀ k b b' st st', Batch.Written engine (ss.take k) b → (b.flush engine).run st = .ok (b', st') →
      st'.cases.length = st.cases.length + b.paths.length ∧ (1 ≤ n → (b.paths.length : Int) ≤ n) := by
  have hkept := Batch.kept_empty engine ss
  have hwithin := Batch.within_empty engine
  have htake (k : Nat) : ∀ s ∈ ss.take k, s ∈ ss := fun s hs => mem_of_mem_take hs
  refine ⟨?_, fun k => ?_, fun k b b' st st' hwritten hflush => ⟨?_, fun hpos => ?_⟩⟩
  · obtain ⟨b, st₁, early, hrun, ⟨hkept, -⟩, hpaths, hearly⟩ := hkept.addAll hss hsolver hwithin (fun _ => id) st
    obtain ⟨st₂, hflush, hlate⟩ := hkept.toSolvable.flush hss hsolver st₁
    obtain ⟨cases, hcases, hst₂⟩ := (hearly.append hlate).all hall
    have hsolutions : ss.map BatchPath.ofSolution = early ++ b.paths := hpaths
    exact ⟨b, st₁, _, st₂, cases, hrun, hflush, hst₂, hsolutions ▸ hcases⟩
  · obtain ⟨b, st', written, hrun, ⟨hkept, -⟩, hpaths, hwrites⟩ := hkept.addAll hss hsolver hwithin (htake k) st
    obtain ⟨cases, hwritten, hst'⟩ := hwrites.all hall
    refine ⟨b, st', written, cases, hrun, hkept.sound.lengths, ?_, hpaths, hst', hwritten⟩
    simp [hkept.sound.frames, hkept.sound.lengths]
  · exact Batch.length_cases_of_flush hall hflush
  · exact hwritten.within hss hsolver (htake k) n hlimit hpos

namespace Routing

variable {engine : Engine}

theorem exists_testCase (hlength : engine.options.minPacketLength = 0) (hpacket : s.packet = {})
    (hreads : s.context.uninitializedReads = []) (hwrites : s.context.invalidWrites = [])
    (hcomplete : s.path.complete = true) (cs : List TableCommand) (ρ : Assignment) :
    ∃ c, testCase engine cs ρ (.ofSolution s) = .ok c := by
  obtain ⟨bytes, hbytes⟩ := payload_of_length (p := {}) (ρ := (ofSolution s).view ρ) rfl (.inr rfl)
  refine ⟨_, bind_eq_ok.mpr ⟨_, bind_eq_ok.mpr ⟨bytes, hpacket.symm ▸ hbytes, require_bind_eq_ok.mpr ⟨?_, rfl⟩⟩,
    require_bind_eq_ok.mpr ⟨?_, rfl⟩⟩⟩
  · simp [hlength]
  · simp [ofSolution, hreads, hwrites, hcomplete, Outcome.givesTestCase]

def use (s : Solution) (action : String) (params : List Bits) : Batch.TableUse :=
  (.text "routes", .text action, ⟨[(ofSolution s).bits (byte "dst")], params.map (ofSolution s).bits⟩)

theorem uses_cases (h : Batch.Uses [forwarded, dropped] x) :
    x = use forwarded "forward" [byte "port"] ∨ x = use dropped "drop" [] := by
  obtain ⟨s, hs, ts, hts, hx⟩ := h
  rcases mem_pair.mp hs with rfl | rfl
  · cases hts
    exact .inl (mem_singleton.mp hx)
  · cases hts
    exact .inr (mem_singleton.mp hx)

theorem shareable (htable : engine.setting.pipeline.tables.get? (.text "routes") = some routes)
    (hlength : engine.options.minPacketLength = 0) : Batch.Shareable engine [forwarded, dropped] := by
  have hwritable (s : Solution) (action : String) (params : List Bits) (hparams : ∀ b ∈ params, b.width = 8) :
      Batch.Writable engine (use s action params) := by
    refine ⟨?_, routes, .text "drop", 0, htable, rfl, ?_⟩
    · have hlegal : Batch.Legal 8 := ⟨by decide, by decide⟩
      intro b hb
      rcases mem_cons.mp hb with rfl | hb
      · exact hlegal
      · obtain ⟨b', hb', rfl⟩ := mem_map.mp hb
        exact (hparams b' hb').symm ▸ hlegal
    · exact forall_mem_singleton.mpr fun v => ⟨_, rfl⟩
  refine ⟨?_, fun x hx => ?_, fun x y hx hy => ?_⟩
  · have hforwarded : forwarded.Ready engine := by
      refine ⟨by simp [forwarded, solution, Dict.keys], ⟨_, rfl⟩, ⟨valued [("dst", 5), ("port", 9)], by decide⟩, ?_⟩
      exact fun cs ρ _ => exists_testCase hlength rfl rfl rfl rfl cs ρ
    have hdropped : dropped.Ready engine := by
      refine ⟨by simp [dropped, solution, Dict.keys], ⟨_, rfl⟩, ⟨valued [("dst", 6)], by decide⟩, ?_⟩
      exact fun cs ρ _ => exists_testCase hlength rfl rfl rfl rfl cs ρ
    exact forall_mem_cons.mpr ⟨hforwarded, forall_mem_singleton.mpr hdropped⟩
  · rcases uses_cases hx with rfl | rfl
    · exact hwritable _ _ _ (by simp [byte])
    · exact hwritable _ _ _ (by simp)
  · -- the name of the table has no separator, so that the names of the actions tell the entries apart
    have hname (a a' : String) (h : entryName (.text "routes") (.text a) = entryName (.text "routes") (.text a')) :
        a = a' := (entryName_inj (by decide) (by decide) h).2
    rcases uses_cases hx with rfl | rfl
    · rcases uses_cases hy with rfl | rfl
      · exact ⟨fun _ => ⟨rfl, rfl⟩, fun _ => rfl, fun _ _ => rfl⟩
      · exact ⟨fun h => absurd (hname _ _ h) (by decide), fun _ => rfl, fun _ h => absurd h (by decide)⟩
    · rcases uses_cases hy with rfl | rfl
      · exact ⟨fun h => absurd (hname _ _ h) (by decide), fun _ => rfl, fun _ h => absurd h (by decide)⟩
      · exact ⟨fun _ => ⟨rfl, rfl⟩, fun _ => rfl, fun _ _ => rfl⟩

end Routing

open Routing in
/-- Two paths that share a table are both written, one at a time and with random draws. -/
theorem every_solution_written_routes :
    let engine := engine (.ideal []) true 1
    engine.solver.Decides ∧ engine.options.numTestCases = none ∧ engine.options.consolidateTables = some 1 ∧
      Batch.Shareable engine [forwarded, dropped] ∧
      ∃ b st₁ b' st₂ c c', (Batch.addAll engine [forwarded, dropped] {}).run {} = .ok (b, st₁) ∧
        (b.flush engine).run st₁ = .ok (b', st₂) ∧ st₂.cases = [c', c] ∧
        Batch.Gives engine (.ofSolution forwarded) c ∧ Batch.Gives engine (.ofSolution dropped) c' := by
  have hsolver : (engine (.ideal []) true 1).solver.Decides := Solver.ideal_decides []
  have hss : Batch.Shareable (engine (.ideal []) true 1) [forwarded, dropped] := shareable rfl rfl
  refine ⟨hsolver, rfl, rfl, hss, ?_⟩
  obtain ⟨⟨b, st₁, b', st₂, cases, hadd, hflush, hcases, hgives⟩, -⟩ :=
    every_solution_written hsolver rfl rfl hss {}
  obtain _ | ⟨hfirst, _ | ⟨hsecond, _ | _⟩⟩ := hgives
  exact ⟨b, st₁, b', st₂, _, _, hadd, hflush, hcases, hfirst, hsecond⟩

theorem Batch.add_refused {engine : Engine}
    (hunlimited : engine.options.consolidateTables = some (-1)) (hts : (ofSolution s).tables = .ok ts)
    (hattempt : ∀ st, ((({} : Batch).push (.ofSolution s)).attempt engine (.ofSolution s) ts).run st =
      .ok ((false, tried), st.called)) (hpop : tried.pop.paths = [])
    (st : Progress) : (({} : Batch).add engine s).run st = .error .violated := by
  have hfull : (({} : Batch).flushFull engine).run st = .ok ({}, st) := by
    rw [flushFull, if_neg (by simp [hunlimited])]
    rfl
  have hflush (st : Progress) : (tried.pop.flush engine).run st = .ok (tried.pop, st) := by
    rw [flush, if_pos (by simp [hpop])]
    rfl
  have hplace : (({} : Batch).place engine (.ofSolution s) ts).run st = .error .violated := by
    rw [place, run_bind_of_ok (hattempt st)]
    rw [run_bind_of_ok (hflush _), run_bind_of_ok (hattempt _)]
    rfl
  rw [add, run_bind_of_ok (lift_eq_ok.mpr ⟨hts, rfl⟩), run_bind_of_ok hfull, run_bind_of_error hplace]

namespace Routing

/-- A table with an action, where the names are told apart only by where one of them ends. -/
def crossing (name action : String) : Table :=
  { (default : Table) with
    name := .text name
    key := [⟨.str "exact", .arr [.str "ip", .str "dst"], .null⟩]
    actions := [(.text action, 0)]
    defaultEntry := some ⟨.int 0, .bool true, .bool true⟩ }

noncomputable def crossingEngine : Engine :=
  let engine := engine (.ideal []) false (-1)
  { engine with
    setting := { engine.setting with
      pipeline := { (default : Pipeline) with
        tables := ⟨[(.text "a$.$b", crossing "a$.$b" "c"), (.text "a", crossing "a" "b$.$c")]⟩ } } }

def crossed : Solution :=
  { solution 1 "a" "b$.$c" [] [] [.not (.rel .eq (byte "src").term (byte "dst").term)] with
    context :=
      { tableKeys := ⟨[(.text "a$.$b", [some (byte "src")]), (.text "a", [some (byte "dst")])]⟩
        tableData := ⟨[(.text "a$.$b", []), (.text "a", [])]⟩
        tableActions := ⟨[(.text "a$.$b", .text "c"), (.text "a", .text "b$.$c")]⟩ } }

noncomputable def crossedBatch : Batch :=
  (((({} : Batch).push (.ofSolution crossed)).attempt crossingEngine (.ofSolution crossed)
    ((ofSolution crossed).tables.toOption.getD [])).run {}).toOption.map (fun r => r.1.2) |>.getD {}

end Routing

open Routing in
/-- Two tables whose entries have one name share their variables. A path that needs different keys at them
can be solved on its own, but it is refused. -/
theorem entries_mixed_up :
    Batch.entryName (.text "a$.$b") (.text "c") = Batch.entryName (.text "a") (.text "b$.$c") ∧
      crossingEngine.solver.Decides ∧ Batch.start crossingEngine = .ok {} ∧ crossed.Ready crossingEngine ∧
      (({} : Batch).add crossingEngine crossed).run {} = .error .violated := by
  have hunsat : ¬ Satisfiable crossedBatch.asserted := by
    rintro ⟨ρ, hρ⟩
    change ρ.Satisfies [.not (.rel .eq (.var "path1/src" 8) (.var "path1/dst" 8)),
      .rel .eq (.var "consolidated_$a$.$b$.$c$.key_0" 8) (.var "path1/src" 8),
      .rel .eq (.var "consolidated_$a$.$b$.$c$.key_0" 8) (.var "path1/dst" 8)] at hρ
    simp [Term.eval, Relation.eval] at hρ
    exact hρ.1 (hρ.2.1.symm.trans hρ.2.2)
  have hsolver : crossingEngine.solver.Decides := Solver.ideal_decides []
  refine ⟨by decide, hsolver, rfl, ?_, ?_⟩
  · refine ⟨by decide, ⟨_, rfl⟩, ⟨Packet.valued [("src", 1), ("dst", 2)], by decide⟩, fun cs ρ _ => ?_⟩
    exact exists_testCase rfl rfl rfl rfl rfl cs ρ
  · have hrefused : (crossingEngine.solver crossedBatch.asserted).isSat = false := by
      rw [Bool.eq_false_iff, Ne, hsolver.isSat_iff]
      exact hunsat
    have hattempt (st : Progress) : ((({} : Batch).push (.ofSolution crossed)).attempt crossingEngine (.ofSolution crossed)
        ((BatchPath.ofSolution crossed).tables.toOption.getD [])).run st = .ok ((false, crossedBatch), st.called) :=
      Batch.attempt_eq_ok.mpr ⟨_, _, rfl, by rw [← hrefused]; rfl⟩
    exact Batch.add_refused rfl rfl hattempt rfl {}

end PacketSmith
