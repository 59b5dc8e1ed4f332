import PacketSmith.Proofs.Consolidate.Writing
import PacketSmith.Proofs.Produced

/-!
# The number of test cases

With shared table entries a solution waits in a batch, and test cases are counted only when the batch is written. A
run may so take more solutions than test cases are wanted, but it writes no more of them (`limit_shared_alone`). A
number that is not positive asks for all, and yet nothing is written if it is zero (`limit_zero_shared`).
-/

namespace PacketSmith

open List

/-- The number of test cases that are wanted of a number of solutions. -/
def Options.caseCount (o : Options) (n : Nat) : Nat :=
  match o.numTestCases with
  | none => n
  | some most => if most ≤ 0 then n else min most.toNat n

/-- With paths that share table entries, so many in a batch, or without. -/
def Engine.sharing (limit : Option Int) (engine : Engine) : Engine :=
  { engine with
    setting := { engine.setting with options := { engine.setting.options with consolidateTables := limit } } }

namespace Batch

theorem upTo_eq_take (most : Int) (n : Nat) (as : List α) :
    upTo (some most) n as = as.take (if most < n then as.length else (most - n).toNat) := by
  induction as generalizing n with
  | nil => simp [upTo]
  | cons a as ih =>
    rw [upTo]
    split
    · next hfull =>
      obtain rfl := Option.some.inj hfull
      simp
    · next hne =>
      replace hne : (n : Int) ≠ most := fun h => hne (congrArg some h)
      rw [ih]
      split
      · rw [if_pos (by omega), take_length, take_length]
      · have hcount : (most - n).toNat = (most - (n + 1 : Nat)).toNat + 1 := by omega
        rw [if_neg (by omega), hcount, take_succ_cons]

theorem Adds.count_le (h : Adds gives (some most) as st st') (hst : (st.statistics.testCases : Int) ≤ most) :
    (st'.statistics.testCases : Int) ≤ most := by
  obtain ⟨cases, hcases, -, hcount⟩ := h
  have hlength := hcases.length_eq
  rw [upTo_eq_take, if_neg (by omega), length_take] at hlength
  omega

end Batch

open Batch

namespace Produce

variable {σ : Type} {engine : Engine} {ss : List Solution} {next : σ → Run (Option Solution × σ)}

/-! ## Taking solutions -/

def Supplies (next : σ → Run (Option Solution × σ)) : σ → List Solution → Prop
  | t, [] => ∀ p, ∃ u q, (next t).run p = .ok ((none, u), q) ∧ q.cases = p.cases ∧
      q.statistics.testCases = p.statistics.testCases
  | t, s :: rest => ∀ p, ∃ u q, (next t).run p = .ok ((some s, u), q) ∧ q.cases = p.cases ∧
      q.statistics.testCases = p.statistics.testCases ∧ Supplies next u rest

def Room (engine : Engine) (p : Progress) : Prop :=
  ∀ most, engine.options.numTestCases = some most → 0 < most → (p.statistics.testCases : Int) < most

theorem exec_enough (engine : Engine) (g : Generation) (p : Progress) :
    ∃ full, (enough engine).exec g p = .ok ((full, g), p) ∧ (full = false → Room engine p) ∧
      (full = true → ∃ most, engine.options.numTestCases = some most ∧ 0 < most ∧
        most ≤ (p.statistics.testCases : Int)) := by
  unfold enough
  cases hmost : engine.options.numTestCases with
  | none => exact ⟨false, rfl, fun _ most h => by simp [hmost] at h, by simp⟩
  | some most =>
    refine ⟨_, rfl, fun h other hother hpos => ?_, fun h => ⟨most, rfl, by simpa using h⟩⟩
    obtain rfl := Option.some.inj (hmost.symm.trans hother)
    simpa [hpos] using h

/-- What a solution that is taken and the end of the run write, where some paths wait to be written. -/
structure Accepts (engine : Engine) (ss : List Solution) (gives : BatchPath → TestCase → Prop) (limit : Option Int)
    (waits : Generation → List BatchPath → Prop) : Prop where
  limit_eq : ∀ most, engine.options.numTestCases = some most → 0 < most → limit = some most
  takes : ∀ g ps s p, s ∈ ss → waits g ps → Room engine p →
    ∃ g' ps' written p', (take engine s).exec g p = .ok (((), g'), p') ∧ waits g' ps' ∧
      ps ++ [.ofSolution s] = written ++ ps' ∧ Adds gives limit written p p'
  leaves : ∀ g ps p, waits g ps → ∃ p', (leave engine).exec g p = .ok (((), g), p') ∧ Adds gives limit ps p p'

/-- Solutions are written in the order they come, after those that waited. -/
theorem Accepts.run (h : Accepts engine ss gives limit waits)
    (hnew : ∀ s ∈ new, s ∈ ss) (hsupply : Supplies next t new)
    (hfuel : new.length < fuel) (hwaits : waits g ps) (hroom : Room engine p) :
    ∃ g' p', (takeFrom engine next fuel t >>= fun _ => leave engine).exec g p = .ok (((), g'), p') ∧
      Adds gives limit (ps ++ new.map .ofSolution) p p' := by
  induction new generalizing t fuel g ps p with
  | nil =>
    obtain ⟨fuel, rfl⟩ := Nat.exists_eq_succ_of_ne_zero (Nat.ne_of_gt hfuel)
    obtain ⟨u, q, hnext, hcases, hcount⟩ := hsupply p
    obtain ⟨p', hleave, hadds⟩ := h.leaves g ps q hwaits
    refine ⟨g, p', exec_bind_ok.mpr ⟨(false, u), g, q, exec_lift_bind_ok.mpr ⟨_, q, hnext, rfl⟩, hleave⟩, ?_⟩
    simpa using (adds_nil hcases hcount).append hadds
  | cons s new ih =>
    obtain ⟨fuel, rfl⟩ := Nat.exists_eq_succ_of_ne_zero (Nat.ne_of_gt (Nat.zero_lt_of_lt hfuel))
    obtain ⟨hs, hnew⟩ := forall_mem_cons.mp hnew
    obtain ⟨u, q, hnext, hcases, hcount, hrest⟩ := hsupply p
    replace hroom : Room engine q := by rwa [Room, hcount]
    obtain ⟨g₁, ps₁, written, p₁, htake, hwaits₁, hpaths, hwritten⟩ := h.takes g ps s q hs hwaits hroom
    have hfirst : Adds gives limit written p p₁ := (adds_nil hcases hcount).append hwritten
    obtain ⟨full, henough, hgoes, hstops⟩ := exec_enough engine g₁ p₁
    rw [map_cons, ← singleton_append, ← append_assoc, hpaths, append_assoc]
    cases full with
    | true =>
      obtain ⟨most, hmost, hpos, hle⟩ := hstops rfl
      obtain rfl := h.limit_eq most hmost hpos
      obtain ⟨p₂, hleave, hadds⟩ := h.leaves g₁ ps₁ p₁ hwaits₁
      refine ⟨g₁, p₂, exec_bind_ok.mpr ⟨(true, u), g₁, p₁, exec_lift_bind_ok.mpr ⟨_, q, hnext, ?_⟩, hleave⟩, ?_⟩
      · exact exec_bind_ok.mpr ⟨_, g₁, p₁, htake, exec_bind_ok.mpr ⟨_, g₁, p₁, henough, rfl⟩⟩
      · -- there are just as many as are wanted, and the other solutions add none
        have hbelow := hadds.count_le (hwritten.count_le (hroom most hmost hpos).le)
        obtain ⟨cases, -, -, hsum⟩ := id hadds
        have hfull : some (p₂.statistics.testCases : Int) = some most := congrArg some (by omega)
        exact hfirst.append (hadds.append (adds_full hfull _))
    | false =>
      obtain ⟨g₂, p₂, hrun, hadds⟩ := ih hnew hrest (Nat.lt_of_succ_lt_succ hfuel) hwaits₁ (hgoes rfl)
      obtain ⟨r, g₃, p₃, htaken, hleave⟩ := exec_bind_ok.mp hrun
      refine ⟨g₂, p₂, exec_bind_ok.mpr ⟨r, g₃, p₃, exec_lift_bind_ok.mpr ⟨_, q, hnext, ?_⟩, hleave⟩, hfirst.append hadds⟩
      exact exec_bind_ok.mpr ⟨_, g₁, p₁, htake, exec_bind_ok.mpr ⟨_, g₁, p₁, henough, htaken⟩⟩

/-! ## With a batch and without -/

theorem accepts_shared (hsolver : engine.solver.Decides) (hss : Shareable engine ss) :
    Accepts engine ss (Gives engine) engine.options.numTestCases
      fun g ps => ∃ b, g.batch = some b ∧ (Batch.Kept engine ss b ∧ b.Within engine) ∧ b.paths = ps where
  limit_eq _ h _ := h
  takes := by
    rintro ⟨_, switches⟩ ps s p hs ⟨b, rfl, ⟨hkept, hwithin⟩, rfl⟩ -
    obtain ⟨b', p', written, hadd, hkept', hpaths, hwrites⟩ := hkept.add hss hsolver hwithin hs p
    refine ⟨⟨some b', switches⟩, b'.paths, written, p', ?_, ⟨b', rfl, hkept', rfl⟩, hpaths, hwrites⟩
    exact exec_bind_ok.mpr ⟨_, _, p, rfl, exec_lift_bind_ok.mpr ⟨b', p', hadd, rfl⟩⟩
  leaves := by
    rintro ⟨_, switches⟩ ps p ⟨b, rfl, ⟨hkept, -⟩, rfl⟩
    obtain ⟨p', hflush, hwrites⟩ := hkept.toSolvable.flush hss hsolver p
    exact ⟨p', exec_bind_ok.mpr ⟨_, _, p, rfl, exec_lift_bind_ok.mpr ⟨_, p', hflush, rfl⟩⟩, hwrites⟩

def Builds (engine : Engine) (q : BatchPath) (t : TestCase) : Prop :=
  TestCase.build engine.setting q.solution.context q.solution.packet q.solution.path (some q.solution.model) = .ok t

end Produce

open Produce

/-- A solution that gives a test case on its own. A switch that it is played on takes its path. -/
def Solution.Alone (engine : Engine) (s : Solution) : Prop :=
  ∃ t, Builds engine (.ofSolution s) t ∧ t.outcome = s.outcome ∧
    (engine.options.runSimpleSwitch = true → ∀ started, (t.play engine.places (engine.switchLog started)).2 = .ok ())

namespace Produce

variable {engine : Engine}

theorem exec_lift {e : Except Fault α} (h : e = .ok a) (g : Generation) (p : Progress) :
    (liftM e : Produce α).exec g p = .ok ((a, g), p) := by
  rw [h]
  rfl

theorem exec_writeCase (h : s.Alone engine) (g : Generation) (p : Progress) :
    ∃ g' t p', (writeCase engine s).exec g p = .ok (((), g'), p') ∧
      g'.batch = g.batch ∧ Builds engine (.ofSolution s) t ∧
      p'.cases = t :: p.cases ∧ p'.statistics.testCases = p.statistics.testCases + 1 := by
  obtain ⟨t, hbuild, houtcome, hplay⟩ := h
  have hcheck : (require (t.outcome == s.outcome) : Produce Unit).exec g p = .ok (((), g), p) := by
    rw [houtcome, BEq.refl]
    rfl
  obtain ⟨p', hadd, hadded⟩ : ∃ p', (∀ g, (liftM (Run.addCase t) : Produce Unit).exec g p = .ok (((), g), p')) ∧
      p'.cases = t :: p.cases ∧ p'.statistics.testCases = p.statistics.testCases + 1 := ⟨_, fun _ => rfl, rfl, rfl⟩
  cases hswitch : engine.options.runSimpleSwitch with
  | false =>
    refine ⟨g, t, p', exec_bind_ok.mpr ⟨t, g, p, exec_lift hbuild g p, exec_bind_ok.mpr ⟨(), g, p, hcheck, ?_⟩⟩, rfl, hbuild,
      hadded⟩
    rw [hswitch]
    exact hadd g
  | true =>
    obtain ⟨g', hbatch, hplayed⟩ : ∃ g', g'.batch = g.batch ∧ (playSwitch engine t).exec g p = .ok (((), g'), p) :=
      ⟨_, rfl, exec_bind_ok.mpr ⟨g, g, p, rfl, exec_bind_ok.mpr ⟨⟨⟩, _, p, rfl, exec_lift (hplay hswitch _) _ p⟩⟩⟩
    refine ⟨g', t, p', exec_bind_ok.mpr ⟨t, g, p, exec_lift hbuild g p, exec_bind_ok.mpr ⟨(), g, p, hcheck, ?_⟩⟩, hbatch,
      hbuild, hadded⟩
    rw [hswitch]
    exact exec_bind_ok.mpr ⟨(), g', p, hplayed, hadd g'⟩

/-- Without shared table entries no path waits. -/
theorem accepts_alone (halone : ∀ s ∈ ss, s.Alone engine) :
    Accepts engine ss (Builds engine) (engine.options.numTestCases.filter (0 < ·))
      fun g ps => g.batch = none ∧ ps = [] where
  limit_eq most h hpos := by simp [h, hpos]
  takes := by
    rintro g ps s p hs ⟨hbatch, rfl⟩ hroom
    obtain ⟨g', t, p', hwrite, hsame, hbuild, hcases, hcount⟩ := exec_writeCase (halone s hs) g p
    refine ⟨g', [], [.ofSolution s], p', ?_, ⟨hsame.trans hbatch, rfl⟩, rfl, adds_one ?_ hbuild hcases hcount⟩
    · refine exec_bind_ok.mpr ⟨g, g, p, rfl, ?_⟩
      rw [hbatch]
      exact hwrite
    · intro hfull
      obtain ⟨hmost, hpos⟩ := Option.filter_eq_some_iff.mp hfull.symm
      exact absurd (hroom _ hmost (by simpa using hpos)) (lt_irrefl _)
  leaves := by
    rintro g ps p ⟨hbatch, rfl⟩
    refine ⟨p, exec_bind_ok.mpr ⟨g, g, p, rfl, ?_⟩, adds_nil rfl rfl⟩
    rw [hbatch]
    rfl

end Produce

/-! ## The limit -/

section Limit

variable {engine : Engine} {ss : List Solution} {n : Int} {next : σ → Run (Option Solution × σ)}
  {next' : τ → Run (Option Solution × τ)} {t : σ} {t' : τ} {fuel : Nat}

theorem room_empty (engine : Engine) : Room engine {} := fun _ _ hpos => hpos

theorem written_shared (hsolver : engine.solver.Decides) (hss : Shareable engine ss) (hnext : Supplies next t ss)
    (hfuel : ss.length < fuel) :
    ∃ g p, (takeFrom engine next fuel t >>= fun _ => leave engine).exec { batch := some {} } {} = .ok (((), g), p) ∧
      Writes engine (ss.map .ofSolution) {} p :=
  (accepts_shared hsolver hss).run (fun _ => id) hnext hfuel (g := { batch := some {} })
    ⟨{}, rfl, ⟨kept_empty engine ss, within_empty engine⟩, rfl⟩ (room_empty engine)

theorem written_alone (halone : ∀ s ∈ ss, s.Alone engine) (hnext : Supplies next t ss) (hfuel : ss.length < fuel) :
    ∃ g p, (takeFrom engine next fuel t >>= fun _ => leave engine).exec { batch := none } {} = .ok (((), g), p) ∧
      Adds (Builds engine) (engine.options.numTestCases.filter (0 < ·)) (ss.map .ofSolution) {} p :=
  (accepts_alone halone).run (fun _ => id) hnext hfuel (g := { batch := none }) ⟨rfl, rfl⟩ (room_empty engine)

theorem upTo_filter (o : Options) (as : List α) :
    upTo (o.numTestCases.filter (0 < ·)) 0 as = as.take (o.caseCount as.length) := by
  rw [Options.caseCount]
  cases o.numTestCases with
  | none => simp [upTo_none]
  | some most =>
    by_cases hpos : 0 < most
    · rw [Option.filter_some, if_pos (by simpa using hpos), upTo_eq_take, if_neg (by omega)]
      simp [not_le.mpr hpos, ← take_take]
    · rw [Option.filter_some, if_neg (by simpa using hpos), upTo_none]
      simp [not_lt.mp hpos]

theorem upTo_numTestCases {o : Options} (hlimit : o.numTestCases ≠ some 0) (as : List α) :
    upTo o.numTestCases 0 as = as.take (o.caseCount as.length) := by
  rw [← upTo_filter]
  cases hmost : o.numTestCases with
  | none => rfl
  | some most =>
    by_cases hpos : 0 < most
    · rw [Option.filter_some, if_pos (by simpa using hpos)]
    · have hne : most ≠ 0 := fun h => hlimit (h ▸ hmost)
      rw [Option.filter_some, if_neg (by simpa using hpos), upTo_none, upTo_eq_take, if_pos (by omega), take_length]

theorem cases_of_adds {gives : BatchPath → TestCase → Prop}
    (hlimit : upTo limit 0 (ss.map BatchPath.ofSolution) = (ss.map BatchPath.ofSolution).take k) (hk : k ≤ ss.length)
    (h : Adds gives limit (ss.map .ofSolution) {} p) :
    p.cases.length = k ∧ List.Forall₂ gives ((ss.take k).map .ofSolution) p.cases.reverse := by
  obtain ⟨cases, hcases, hp, -⟩ := h
  replace hcases : List.Forall₂ gives ((ss.take k).map .ofSolution) p.cases.reverse := by
    rw [hp, append_nil, reverse_reverse, map_take, ← hlimit]
    exact hcases
  refine ⟨?_, hcases⟩
  rw [← length_reverse, ← hcases.length_eq, length_map, length_take, min_eq_left hk]

theorem caseCount_le (o : Options) (n : Nat) : o.caseCount n ≤ n := by
  unfold Options.caseCount
  split
  · exact le_rfl
  · split
    · exact le_rfl
    · exact min_le_right _ _

/-- With shared table entries as without, the first solutions give test cases, as many as are wanted. This takes that
the number that is wanted is not zero. -/
theorem limit_shared_alone (hsolver : engine.solver.Decides) (hlimit : engine.options.numTestCases ≠ some 0)
    (hss : Shareable (engine.sharing (some n)) ss) (halone : ∀ s ∈ ss, s.Alone (engine.sharing none))
    (hnext : Supplies next t ss) (hnext' : Supplies next' t' ss) (hfuel : ss.length < fuel) :
    let k := engine.options.caseCount ss.length
    ∃ g p g' p',
      (takeFrom (engine.sharing (some n)) next fuel t >>= fun _ => leave (engine.sharing (some n))).exec
        { batch := some {} } {} = .ok (((), g), p) ∧
      (takeFrom (engine.sharing none) next' fuel t' >>= fun _ => leave (engine.sharing none)).exec
        { batch := none } {} = .ok (((), g'), p') ∧
      (p.cases.length = k ∧ List.Forall₂ (Gives (engine.sharing (some n))) ((ss.take k).map .ofSolution) p.cases.reverse) ∧
      p'.cases.length = k ∧ List.Forall₂ (Builds (engine.sharing none)) ((ss.take k).map .ofSolution) p'.cases.reverse := by
  have hsolver' : (engine.sharing (some n)).solver.Decides := hsolver
  obtain ⟨g, p, hrun, hwrites⟩ := written_shared hsolver' hss hnext hfuel
  obtain ⟨g', p', hrun', hwrites'⟩ := written_alone halone hnext' hfuel
  have hk := caseCount_le engine.options ss.length
  refine ⟨g, p, g', p', hrun, hrun', cases_of_adds ?_ hk hwrites, cases_of_adds ?_ hk hwrites'⟩
  · rw [← length_map BatchPath.ofSolution]
    exact upTo_numTestCases hlimit _
  · rw [← length_map BatchPath.ofSolution]
    exact upTo_filter engine.options _

end Limit

namespace Routing

def listed (ss : List Solution) : Run (Option Solution × List Solution) := pure (ss.head?, ss.tail)

theorem supplies_listed (ss : List Solution) : Supplies listed ss ss := by
  induction ss with
  | nil => exact fun p => ⟨_, p, rfl, rfl, rfl⟩
  | cons s ss ih => exact fun p => ⟨_, p, rfl, rfl, rfl, ih⟩

noncomputable def wanting (most : Int) : Engine :=
  let engine := engine (.ideal []) true 1
  { engine with
    setting := { engine.setting with options := { engine.setting.options with numTestCases := some most } } }

theorem alone_wanting (most : Int) : ∀ s ∈ [forwarded, dropped], s.Alone ((wanting most).sharing none) := by
  refine forall_mem_cons.mpr ⟨⟨_, rfl, rfl, fun h => ?_⟩, forall_mem_singleton.mpr ⟨_, rfl, rfl, fun h => ?_⟩⟩
  · cases h
  · cases h

end Routing

open Routing in
/-- One test case is wanted, and one is written of two solutions that share a table. -/
theorem limit_shared_alone_routes :
    (wanting 1).solver.Decides ∧ (wanting 1).options.numTestCases ≠ some 0 ∧
      Shareable ((wanting 1).sharing (some (-1))) [forwarded, dropped] ∧
      (∀ s ∈ [forwarded, dropped], s.Alone ((wanting 1).sharing none)) ∧
      Supplies listed [forwarded, dropped] [forwarded, dropped] ∧
      ∃ g p g' p',
        (takeFrom ((wanting 1).sharing (some (-1))) listed 3 [forwarded, dropped] >>=
          fun _ => leave ((wanting 1).sharing (some (-1)))).exec { batch := some {} } {} = .ok (((), g), p) ∧
        (takeFrom ((wanting 1).sharing none) listed 3 [forwarded, dropped] >>=
          fun _ => leave ((wanting 1).sharing none)).exec { batch := none } {} = .ok (((), g'), p') ∧
        p.cases.length = 1 ∧ p'.cases.length = 1 := by
  have hsolver : (wanting 1).solver.Decides := Solver.ideal_decides []
  have hlimit : (wanting 1).options.numTestCases ≠ some 0 := by decide
  have hss : Shareable ((wanting 1).sharing (some (-1))) [forwarded, dropped] := shareable rfl rfl
  have hnext := supplies_listed [forwarded, dropped]
  have hfuel : [forwarded, dropped].length < 3 := by decide
  obtain ⟨g, p, g', p', hrun, hrun', ⟨hcount, -⟩, hcount', -⟩ :=
    limit_shared_alone hsolver hlimit hss (alone_wanting 1) hnext hnext hfuel
  exact ⟨hsolver, hlimit, hss, alone_wanting 1, hnext, g, p, g', p', hrun, hrun', hcount, hcount'⟩

open Routing in
/-- Where no test cases are wanted, all are written, but none with shared table entries. -/
theorem limit_zero_shared :
    ∃ g p g' p',
      (takeFrom ((wanting 0).sharing (some (-1))) listed 3 [forwarded, dropped] >>=
        fun _ => leave ((wanting 0).sharing (some (-1)))).exec { batch := some {} } {} = .ok (((), g), p) ∧
      (takeFrom ((wanting 0).sharing none) listed 3 [forwarded, dropped] >>=
        fun _ => leave ((wanting 0).sharing none)).exec { batch := none } {} = .ok (((), g'), p') ∧
      p.cases = [] ∧ p'.cases.length = 2 ∧ (wanting 0).options.caseCount 2 = 2 := by
  have hsolver : ((wanting 0).sharing (some (-1))).solver.Decides := Solver.ideal_decides []
  have hnext := supplies_listed [forwarded, dropped]
  obtain ⟨g, p, hrun, cases, hcases, hp, -⟩ :=
    written_shared hsolver (shareable rfl rfl) hnext (Nat.lt_succ_self 2)
  obtain ⟨g', p', hrun', hwrites⟩ := written_alone (alone_wanting 0) hnext (Nat.lt_succ_self 2)
  have hcount := cases_of_adds (k := 2) (upTo_filter (wanting 0).options _) (by decide) hwrites
  change List.Forall₂ _ (upTo (some ((0 : Nat) : Int)) 0 _) cases at hcases
  rw [upTo_full] at hcases
  cases hcases
  exact ⟨g, p, g', p', hrun, hrun', hp, hcount.1, by decide⟩

end PacketSmith
