import PacketSmith.Proofs.Backtracking
import PacketSmith.Proofs.Renumbering.Parser

/-!
# Replaying a path

A path solver that has followed many paths and gone back again is compared with a new one that follows only the
current path (`PathSolver.replay`). `PathSolver.standing` is what a path solver knows of its path, and `Trail` says
how a standing has come about: each step counted on from some number that was not below the last one. The new path
solver can follow the same path, and the two standings differ by a renumbering (`Trail.replay`).
-/

namespace PacketSmith

open List
open Numbered (renum)

/-- What a path solver knows of its path. -/
structure Standing where
  base : Context × List Formula
  levels : List (Context × List Formula) := []
  tally : Tally
  packet : Packet

instance : Numbered Standing :=
  ⟨fun σ s => ⟨renum σ s.base, renum σ s.levels, renum σ s.tally, renum σ s.packet⟩⟩

namespace Standing

def context (s : Standing) : Context := (s.levels.headD s.base).1

def constraints (s : Standing) : List (List Formula) :=
  s.base.2 :: s.levels.reverse.map Prod.snd

/-- The state of a symbolic step that counts on from a number. -/
def state (s : Standing) (n : Nat) : SymbolicState :=
  { context := s.context, tally := s.tally, fresh := n, packet := s.packet }

def extended (s : Standing) (added : List Formula) (t : SymbolicState) : Standing :=
  { s with levels := (t.context, added) :: s.levels, tally := t.tally, packet := t.packet }

def shortened (s : Standing) : Standing := { s with levels := s.levels.tail }

variable (σ : ℕ ↪o ℕ) (s : Standing)

@[simp] theorem context_renum : (renum σ s).context = renum σ s.context := by
  obtain ⟨base, levels, tally, packet⟩ := s
  cases levels <;> rfl

theorem constraints_renum : (renum σ s).constraints = renum σ s.constraints := by
  obtain ⟨base, levels, tally, packet⟩ := s
  change renum σ base.2 :: (levels.map (renum σ)).reverse.map Prod.snd =
    renum σ base.2 :: (levels.reverse.map Prod.snd).map (renum σ)
  rw [← map_reverse, map_map, map_map]
  rfl

theorem state_renum (n n' : Nat) : (renum σ s).state n' = (s.state n).renumber σ n' := by
  rw [state, context_renum]
  rfl

@[simp] theorem constraints_extended (added : List Formula) (t : SymbolicState) :
    (s.extended added t).constraints = s.constraints ++ [added] := by
  simp [constraints, extended]

end Standing

/-! ## Mirrored states -/

/-- Two renumberings agree up to a number. -/
def Agree (σ τ : ℕ ↪o ℕ) (d : Nat) : Prop := ∀ k ≤ d, σ k = τ k

variable {d : Nat} {σ τ : ℕ ↪o ℕ}

theorem Agree.mono (h : Agree σ τ e) (hd : d ≤ e) : Agree σ τ d :=
  fun k hk => h k (hk.trans hd)

theorem Agree.trans (h : Agree σ τ d) (h' : Agree τ υ d) : Agree σ υ d :=
  fun k hk => (h k hk).trans (h' k hk)

/-- The renumbering that goes on from a number as before up to another one, and takes the numbers
after that to those after a third one. -/
def continued (σ : ℕ ↪o ℕ) (d c : Nat) (h : σ d ≤ c) : ℕ ↪o ℕ :=
  OrderEmbedding.ofStrictMono (fun k => if k ≤ d then σ k else c + (k - d)) <| by
    intro j k hjk
    dsimp only
    split
    · split
      · exact σ.strictMono hjk
      · have hj : σ j ≤ σ d := σ.monotone (by assumption)
        omega
    · split
      · omega
      · omega

theorem continued_agree (σ : ℕ ↪o ℕ) (d c : Nat) (h : σ d ≤ c) : Agree (continued σ d c h) σ d :=
  fun _ hk => if_pos hk

theorem continued_continues (σ : ℕ ↪o ℕ) (d c : Nat) (h : σ d ≤ c) (e : Nat) : Continues (continued σ d c h) d c e :=
  fun _ hk _ => if_neg (by omega)

/-- A state that is another one under other numbers. Only the numbers that were used matter. -/
structure Mirrors (σ : ℕ ↪o ℕ) (v u : SymbolicState) : Prop where
  bound : σ u.fresh ≤ v.fresh
  image : ∀ τ, Agree τ σ u.fresh → v = u.renumber τ v.fresh

theorem Mirrors.result
    [Numbered α] {m : Symbolic α} (hm : ∀ σ, Regular σ p o c m m) (h : Mirrors σ v u) :
    ∃ τ, Agree τ σ u.fresh ∧ Mirrors τ (m.result v).2 (m.result u).2 ∧
      ∀ υ, Agree υ τ (m.result u).2.fresh → (m.result v).1 = renum υ (m.result u).1 := by
  set τ := continued σ u.fresh v.fresh h.bound
  have hlater := ((hm τ).does u).fresh_le
  have hrun (υ : ℕ ↪o ℕ) (hυ : Agree υ τ (m.result u).2.fresh) : m.result v = (renum υ (m.result u).1,
        (m.result u).2.renumber υ (v.fresh + ((m.result u).2.fresh - u.fresh))) := by
    have himage := h.image υ ((hυ.mono hlater).trans (continued_agree σ _ _ h.bound))
    have hcontinues : Continues υ u.fresh v.fresh (m.result u).2.fresh := by
      intro k hk hd
      rw [hυ k hd]
      exact continued_continues σ _ _ h.bound _ k hk hd
    rw [himage]
    exact (hm υ).run u v.fresh hcontinues
  refine ⟨τ, continued_agree σ _ _ h.bound, ⟨?_, fun υ hυ => ?_⟩, fun υ hυ => ?_⟩
  · rw [hrun τ fun _ _ => rfl]
    change τ (m.result u).2.fresh ≤ v.fresh + ((m.result u).2.fresh - u.fresh)
    rcases hlater.eq_or_lt with heq | hlt
    · rw [← heq, continued_agree σ _ _ h.bound _ le_rfl]
      exact h.bound.trans (Nat.le_add_right _ _)
    · exact (continued_continues σ _ _ h.bound _ _ hlt le_rfl).le
  · rw [hrun υ hυ]
    rfl
  · rw [hrun υ hυ]

theorem Symbolic.parserPath_mirrors (parser : ParserPath)
    (hctx : env.program.startContext env.options = .ok ctx) (c : Nat) :
    ∃ τ, Mirrors τ ((parserPath env parser).result { context := ctx, fresh := c }).2
        ((parserPath env parser).result { context := ctx }).2 ∧
      ∀ υ, Agree υ τ ((parserPath env parser).result { context := ctx }).2.fresh →
        ((parserPath env parser).result { context := ctx, fresh := c }).1 =
          renum υ ((parserPath env parser).result { context := ctx }).1 := by
  have hstart : Mirrors (RelEmbedding.refl _) { context := ctx, fresh := c } { context := ctx } := by
    refine ⟨Nat.zero_le c, fun τ _ => ?_⟩
    have hsame := env.program.startContext_renum τ env.options
    rw [hctx] at hsame
    exact congrArg (fun ctx : Context => ({ context := ctx, fresh := c } : SymbolicState))
      (Except.ok.inj hsame)
  obtain ⟨τ, -, hmirrors⟩ := hstart.result fun σ => parserPath_regular env parser
  exact ⟨τ, hmirrors⟩

/-! ## Constraints of an edge -/

namespace PathSolver

open Symbolic

theorem egressConstraint_regular (o : Options) : Regular σ false o c (egressConstraint o) (egressConstraint o) := by
  refine .bind (read_regular o _) fun a => ?_
  cases a with
  | none => exact .throw' _
  | some a =>
    refine .bind (read_regular o _) fun b => ?_
    cases b <;> exact .pure_of_eq rfl

theorem edgeConstraints_regular (henv : env.UniformAt σ) (e : Option ControlEdge) :
    Regular σ false env.options c (edgeConstraints env e) (edgeConstraints env e) := by
  cases e with
  | none => exact .pure' []
  | some e => exact controlEdge_regular henv e

/-- The last edge of a control path makes single changes only, and its constraints do not depend on
numbers. -/
theorem lastConstraints_regular (henv : env.UniformAt σ) (path : ControlPath) :
    Regular σ false env.options c (lastConstraints env path) (lastConstraints env path) :=
  .bind (edgeConstraints_regular henv path.getLast?) fun added =>
    .bind (egressConstraint_regular env.options) fun f =>
      .pure_of_eq (renum_append σ added [f]).symm

theorem lastConstraints_twin (henv : env.Uniform) (path : ControlPath) :
    Regular σ false env.options false (lastConstraints env path) (lastConstraints env path) :=
  lastConstraints_regular (henv.at σ) path

end PathSolver

/-! ## Histories -/

/-- How a standing has come about, with a bound on the numbers that were used. -/
inductive Trail (env : Setting) (parser : ParserPath) : ControlPath → Standing → Nat → Prop where
  | start {c n : Nat} {ctx : Context} {fs : List Formula} {t : SymbolicState}
    (context : env.program.startContext env.options = .ok ctx)
    (run : (Symbolic.parserPath env parser).result { context := ctx, fresh := c } = (.ok (some fs), t))
    (bound : t.fresh ≤ n) :
    Trail env parser [] { base := (t.context, fs), tally := t.tally, packet := t.packet } n
  | edge {path : ControlPath} {s : Standing} {c n : Nat} {e : ControlEdge} {added : List Formula}
    {t : SymbolicState} (before : Trail env parser path s c)
    (run : (PathSolver.lastConstraints env (path ++ [e])).result (s.state c) = (.ok added, t))
    (bound : t.fresh ≤ n) : Trail env parser (path ++ [e]) (s.extended added t) n

namespace Trail

variable {parser : ParserPath}

theorem mono (h : Trail env parser path s n) (hn : n ≤ n') : Trail env parser path s n' := by
  cases h with
  | start context run bound => exact .start context run (bound.trans hn)
  | edge before run bound => exact .edge before run (bound.trans hn)

theorem length_levels (h : Trail env parser path s n) : s.levels.length = path.length := by
  induction h with
  | start => rfl
  | edge before run bound ih => simp [Standing.extended, ih]

theorem pop (h : Trail env parser path s n) : Trail env parser path.dropLast s.shortened n := by
  cases h with
  | start context run bound => exact .start context run bound
  | @edge path s c _ e added t before run bound =>
    have hregular := PathSolver.lastConstraints_regular (c := false) env.uniformAt_refl (path ++ [e])
    obtain ⟨htally, hpacket⟩ := hregular.outside rfl (s.state c)
    have hlater := (hregular.does (s.state c)).fresh_le
    rw [run] at htally hpacket hlater
    have hsame : (s.extended added t).shortened = s := by
      obtain ⟨base, levels, tally, packet⟩ := s
      dsimp only at htally hpacket
      rw [Standing.extended, Standing.shortened, htally, hpacket]
      rfl
    rw [dropLast_concat, hsame]
    exact before.mono (hlater.trans bound)

end Trail

/-! ## Assertions -/

/-- The frames that belong to a standing if constraints are kept: one for each level, and nothing is
asserted below. -/
def Standing.Layers (s : Standing) (frames : List (List Formula)) : Prop :=
  ∃ low : List (List Formula), low.flatten = [] ∧ frames = s.levels.map Prod.snd ++ s.base.2 :: low

namespace Standing.Layers

variable {s : Standing} {frames : List (List Formula)}

theorem flatten (h : s.Layers frames) : frames.reverse.flatten = s.constraints.flatten := by
  obtain ⟨low, hlow, rfl⟩ := h
  have hempty : low.reverse.flatten = [] := by
    rw [flatten_eq_nil_iff] at hlow ⊢
    exact fun l hl => hlow l (mem_reverse.mp hl)
  simp [constraints, hempty]

theorem extended (h : s.Layers frames) (added : List Formula) (t : SymbolicState) :
    (s.extended added t).Layers (added :: frames) := by
  obtain ⟨low, hlow, rfl⟩ := h
  exact ⟨low, hlow, rfl⟩

theorem shortened (h : s.Layers frames) (hs : s.levels ≠ []) : s.shortened.Layers frames.tail := by
  obtain ⟨low, hlow, rfl⟩ := h
  obtain ⟨base, levels, tally, packet⟩ := s
  cases levels with
  | nil => exact absurd rfl hs
  | cons l levels => exact ⟨low, hlow, rfl⟩

end Standing.Layers

/-! ## Path solvers -/

namespace PathSolver

variable (s : PathSolver)

def standing : Standing where
  base := (s.base.context, s.base.constraints)
  levels := s.levels.map fun l => (l.context, l.constraints)
  tally := s.tally
  packet := s.packet

theorem standing_context : s.standing.context = s.context := by
  rw [standing, context, top]
  cases s.levels <;> rfl

theorem standing_constraints : s.standing.constraints = s.constraints := by
  rw [Standing.constraints, standing, ← map_reverse, map_map]
  rfl

@[simp] theorem standing_pop (o : Options) (s : PathSolver) : (s.pop o).standing = s.standing.shortened := by
  rw [standing, pop, Standing.shortened, standing, map_tail]

theorem run_eq (step : Symbolic α) (s : PathSolver) : s.run step = match step.result (s.standing.state s.fresh) with
      | (.error f, _) => .error f
      | (.ok a, t) => .ok (a, { s.modifyTop (fun l => { l with context := t.context }) with
          tally := t.tally, fresh := t.fresh, packet := t.packet }) := by
  have hstate : s.standing.state s.fresh =
      { context := s.context, tally := s.tally, fresh := s.fresh, packet := s.packet } := by
    rw [Standing.state, standing_context]
    rfl
  rw [hstate, run, Symbolic.result]
  rcases step.run.run { context := s.context, tally := s.tally, fresh := s.fresh, packet := s.packet }
    with ⟨e | a, t⟩ <;> rfl

def followed (frames : List (List Formula)) (added : List Formula) (t : SymbolicState) : PathSolver :=
  { s with
    frames := frames
    answer := none
    levels := { context := t.context, constraints := added } :: s.levels
    pathId := s.pathId + 1
    tally := t.tally
    fresh := t.fresh
    packet := t.packet }

@[simp] theorem standing_followed (frames : List (List Formula)) (added : List Formula) (t : SymbolicState) :
    (s.followed frames added t).standing = s.standing.extended added t := rfl

theorem extend_push (env : Setting) (path : ControlPath) (s : PathSolver) (frames : List (List Formula))
    (hlength : env.options.incremental = true → path.length = s.levels.length + 1) :
    ({ s.push with frames := frames } : PathSolver).extend env path =
      match (lastConstraints env path).result (s.standing.state s.fresh) with
      | (.error f, _) => .error f
      | (.ok added, t) =>
        .ok (s.followed (({ frames := frames } : PathSolver).assert
          (if env.options.incremental then added else s.constraints.flatten ++ added)).frames added t) := by
  have hrequire : (path.length == ({ s.push with frames := frames } : PathSolver).levels.length ||
      !env.options.incremental) = true := by
    cases h : env.options.incremental with
    | false => simp
    | true => simp [hlength h, push]
  have hstate : ({ s.push with frames := frames } : PathSolver).standing.state s.fresh = s.standing.state s.fresh := by
    rw [Standing.state, standing_context, Standing.state, standing_context]
    rfl
  rw [extend, hrequire]
  change (PathSolver.run (lastConstraints env path) { s.push with frames := frames } >>= _) = _
  rw [run_eq, show ({ s.push with frames := frames } : PathSolver).fresh = s.fresh from rfl, hstate]
  rcases (lastConstraints env path).result (s.standing.state s.fresh) with ⟨e | added, t⟩
  · rfl
  · refine congrArg Except.ok ?_
    -- the new level has no constraints of its own yet
    cases hinc : env.options.incremental <;> cases frames <;>
      simp [hinc, addConstraints, modifyTop, push, assert, constraints, followed]

/-- What comes of the constraints of an edge on a new level, once assertions that are not kept are
dropped. -/
theorem extend_refresh (env : Setting) (path : ControlPath) (s : PathSolver)
    (hlength : env.options.incremental = true → path.length = s.levels.length + 1) :
    (s.push.refresh env.options).extend env path =
      match (lastConstraints env path).result (s.standing.state s.fresh) with
      | (.error f, _) => .error f
      | (.ok added, t) =>
        .ok (s.followed (if env.options.incremental then added :: s.frames
          else [s.constraints.flatten ++ added]) added t) := by
  have hrefresh : s.push.refresh env.options =
      { s.push with frames := if env.options.incremental then [] :: s.frames else [[]] } := by
    rw [refresh]
    split <;> rfl
  rw [hrefresh, extend_push env path s _ hlength]
  rcases (lastConstraints env path).result (s.standing.state s.fresh) with ⟨e | added, t⟩
  · rfl
  · cases env.options.incremental <;> rfl

def begun (o : Options) (fs : List Formula) (t : SymbolicState) : PathSolver :=
  { (s.renew o).assert fs with
    base := { context := t.context, constraints := fs }
    tally := t.tally
    fresh := t.fresh
    packet := t.packet }

@[simp] theorem standing_begun (o : Options) (fs : List Formula) (t : SymbolicState) (hs : s.levels = []) :
    (s.begun o fs t).standing = { base := (t.context, fs), tally := t.tally, packet := t.packet } := by
  simp [standing, begun, renew, assert, hs]

variable {env : Setting} {s s' : PathSolver}

theorem extend_refresh_ok (hdepth : s.levels.length = path.length)
    (h : (s.push.refresh env.options).extend env (path ++ [e]) = .ok s') : ∃ added t,
    (lastConstraints env (path ++ [e])).result (s.standing.state s.fresh) = (.ok added, t) ∧
    s' = s.followed (if env.options.incremental then added :: s.frames else [s.constraints.flatten ++ added]) added t := by
  rw [extend_refresh env _ s fun _ => by rw [length_append, hdepth]; rfl] at h
  rcases hrun : (lastConstraints env (path ++ [e])).result (s.standing.state s.fresh) with ⟨f | added, t⟩
  · rw [hrun] at h
    cases h
  · rw [hrun] at h
    exact ⟨added, t, rfl, (Except.ok.inj h).symm⟩

theorem start_eq (parser : ParserPath) (hs : s.levels = []) (hctx : env.program.startContext env.options = .ok ctx) :
    s.start env parser =
      match (Symbolic.parserPath env parser).result { context := ctx, fresh := s.fresh } with
      | (.error f, _) => .error f
      | (.ok none, t) => .ok (false, { s.renew env.options with
          base := { context := t.context }
          tally := t.tally, fresh := t.fresh, packet := t.packet })
      | (.ok (some fs), t) => .ok (true, s.begun env.options fs t) := by
  obtain ⟨frames, answer, base, levels, pathId, tally, fresh, packet⟩ := s
  obtain rfl : levels = [] := hs
  rw [start, hctx]
  change (PathSolver.run (Symbolic.parserPath env parser) _ >>= _) = _
  rw [run_eq, show Standing.state _ _ = { context := ctx, fresh := fresh } from rfl]
  rcases (Symbolic.parserPath env parser).result { context := ctx, fresh := fresh }
    with ⟨e | (_ | fs), t⟩ <;> rfl

theorem start_ok {parser : ParserPath} {possible : Bool}
    (h : s.start env parser = .ok (possible, s')) :
    s.levels = [] ∧ ∃ ctx t, env.program.startContext env.options = .ok ctx ∧
      ((possible = false ∧ s' = { s.renew env.options with
          base := { context := t.context }
          tally := t.tally, fresh := t.fresh, packet := t.packet } ∧
          (Symbolic.parserPath env parser).result { context := ctx, fresh := s.fresh } =
            (.ok none, t)) ∨
        ∃ fs, possible = true ∧ s' = s.begun env.options fs t ∧
          (Symbolic.parserPath env parser).result { context := ctx, fresh := s.fresh } =
            (.ok (some fs), t)) := by
  cases hs : s.levels with
  | cons l rest =>
    rw [start, show (s.renew env.options).levels = l :: rest from hs] at h
    cases h
  | nil =>
    cases hctx : env.program.startContext env.options with
    | error f =>
      rw [start, show (s.renew env.options).levels = [] from hs, hctx] at h
      cases h
    | ok ctx =>
      rw [start_eq parser hs hctx] at h
      rcases hrun : (Symbolic.parserPath env parser).result { context := ctx, fresh := s.fresh }
        with ⟨f | (_ | fs), t⟩
      · rw [hrun] at h
        cases h
      · rw [hrun] at h
        cases h
        exact ⟨rfl, ctx, t, rfl, .inl ⟨rfl, rfl, hrun⟩⟩
      · rw [hrun] at h
        cases h
        exact ⟨rfl, ctx, t, rfl, .inr ⟨fs, rfl, rfl, hrun⟩⟩

/-- A new path solver that follows a parser path, if that is possible, and then the edges of a control
path. -/
def replay (env : Setting) (parser : ParserPath) (control : ControlPath) : Except Fault PathSolver := do
  let (possible, s) ← ({} : PathSolver).start env parser
  require possible
  (trail control).foldlM (fun s path => s.push.extend env path) s

theorem replay_concat (env : Setting) (parser : ParserPath) (control : ControlPath) (e : ControlEdge) :
    replay env parser (control ++ [e]) = replay env parser control
      >>= fun s => s.push.extend env (control ++ [e]) := by
  rw [replay, replay, bind_assoc, trail_concat]
  refine bind_congr fun r => ?_
  obtain ⟨possible, s⟩ := r
  dsimp only
  rw [foldlM_append, bind_assoc]
  simp

end PathSolver

/-- A standing, with the number that was used last, is another one under other numbers. -/
structure Reflects (σ : ℕ ↪o ℕ) (s : Standing) (n : Nat) (r : Standing) (d : Nat) : Prop where
  bound : σ d ≤ n
  image : ∀ τ, Agree τ σ d → s = renum τ r

namespace Reflects

theorem mirrors (h : Reflects σ s n r d) : Mirrors σ (s.state n) (r.state d) := by
  refine ⟨h.bound, fun τ hτ => ?_⟩
  rw [h.image τ hτ]
  exact Standing.state_renum τ r d n

theorem extended (h : Reflects σ s n r d)
    (hτ : Agree τ σ d) {added added' : List Formula} (hlater : d ≤ t'.fresh)
    (ht : Mirrors τ t t') (hadded : ∀ υ, Agree υ τ t'.fresh → added = renum υ added') :
    Reflects τ (s.extended added t) t.fresh (r.extended added' t') t'.fresh := by
  refine ⟨ht.bound, fun υ hυ => ?_⟩
  rw [h.image υ ((hυ.mono hlater).trans hτ), hadded υ hυ, ht.image υ hυ]
  rfl

end Reflects

/-- A new path solver has followed a path, and its standing differs from another one by numbers
only. -/
structure Replayed (env : Setting) (path : ControlPath) (s : Standing) (n : Nat) (σ : ℕ ↪o ℕ)
    (r : PathSolver) : Prop where
  length : r.levels.length = path.length
  layers : env.options.incremental = true → r.standing.Layers r.frames
  reflects : Reflects σ s n r.standing r.fresh

open PathSolver in
theorem Trail.replay {env : Setting} (henv : env.Uniform) {parser : ParserPath} {path : ControlPath}
    {s : Standing} {n : Nat} (h : Trail env parser path s n) :
    ∃ r σ, PathSolver.replay env parser path = .ok r ∧ Replayed env path s n σ r := by
  induction h with
  | @start c n ctx fs t context run bound =>
    obtain ⟨τ, hmirrors, hresult⟩ := Symbolic.parserPath_mirrors parser context c
    rw [run] at hmirrors hresult
    rcases hrun : (Symbolic.parserPath env parser).result { context := ctx } with ⟨f | (_ | fs'), t'⟩
    · rw [hrun] at hresult
      exact absurd (hresult τ fun _ _ => rfl) (by simp)
    · rw [hrun] at hresult
      exact absurd (hresult τ fun _ _ => rfl) (by simp)
    · rw [hrun] at hmirrors hresult
      have hfs (υ : ℕ ↪o ℕ) (hυ : Agree υ τ t'.fresh) : fs = renum υ fs' := by
        simpa using hresult υ hυ
      have hstarted := start_eq (s := {}) parser rfl context
      rw [hrun] at hstarted
      refine ⟨({} : PathSolver).begun env.options fs' t', τ, ?_, rfl, fun hinc => ?_, ?_⟩
      · rw [PathSolver.replay, hstarted]
        rfl
      · refine ⟨[[]], rfl, ?_⟩
        simp [begun, renew, PathSolver.assert, hinc, standing]
      · refine ⟨hmirrors.bound.trans bound, fun υ hυ => ?_⟩
        have ht : t = t'.renumber υ t.fresh := hmirrors.image υ hυ
        rw [standing_begun _ _ _ _ rfl, hfs υ hυ, ht]
        rfl
  | @edge path s c n e added t before run bound ih =>
    obtain ⟨r, σ, hr, hlength, hlayers, href⟩ := ih
    have htwin (σ : ℕ ↪o ℕ) := lastConstraints_twin (σ := σ) henv (path ++ [e])
    obtain ⟨τ, hτ, hmirrors, hresult⟩ := href.mirrors.result htwin
    have hlater := ((htwin τ).does (r.standing.state r.fresh)).fresh_le
    have hextend := extend_push env (path ++ [e]) r ([] :: r.frames) fun _ => by simp [hlength]
    rw [replay_concat, hr]
    change ∃ r' σ, extend env (path ++ [e]) r.push = .ok r' ∧ _
    rw [run] at hmirrors hresult
    rcases hrun : (lastConstraints env (path ++ [e])).result (r.standing.state r.fresh)
      with ⟨f | added', t'⟩
    · rw [hrun] at hresult
      exact absurd (hresult τ fun _ _ => rfl) (by simp)
    · rw [hrun] at hmirrors hresult hlater hextend
      refine ⟨_, τ, hextend, ?_, fun hinc => ?_, ?_⟩
      · simp [followed, hlength]
      · rw [if_pos hinc]
        exact (hlayers hinc).extended added' t'
      · have hadded (υ : ℕ ↪o ℕ) (hυ : Agree υ τ t'.fresh) : added = renum υ added' := by
          simpa using hresult υ hυ
        have hafter := href.extended hτ hlater hmirrors hadded
        exact ⟨hafter.bound.trans bound, hafter.image⟩

open PathSolver in
theorem Trail.replay_error
    {env : Setting} (henv : env.Uniform) {parser : ParserPath} {path : ControlPath} {s : Standing}
    {n : Nat} (h : Trail env parser path s n) {e : ControlEdge} {f : Fault} {t : SymbolicState}
    (hrun : (lastConstraints env (path ++ [e])).result (s.state n) = (.error f, t)) :
    PathSolver.replay env parser (path ++ [e]) = .error f := by
  obtain ⟨r, σ, hr, hlength, -, href⟩ := h.replay henv
  have htwin (σ : ℕ ↪o ℕ) := lastConstraints_twin (σ := σ) henv (path ++ [e])
  obtain ⟨τ, -, -, hresult⟩ := href.mirrors.result htwin
  have hextend := extend_push env (path ++ [e]) r ([] :: r.frames) fun _ => by simp [hlength]
  rw [hrun] at hresult
  rw [replay_concat, hr]
  change extend env (path ++ [e]) r.push = .error f
  refine hextend.trans ?_
  rcases hrun' : (lastConstraints env (path ++ [e])).result (r.standing.state r.fresh)
    with ⟨f' | added, t'⟩
  · rw [hrun'] at hresult
    have hf := hresult τ fun _ _ => rfl
    simp only [renum_error, Except.error.injEq] at hf
    rw [hf]
  · rw [hrun'] at hresult
    exact absurd (hresult τ fun _ _ => rfl) (by simp)

end PacketSmith
