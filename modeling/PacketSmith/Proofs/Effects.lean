import Mathlib.Logic.Relation
import PacketSmith.PathSolver
import PacketSmith.Proofs.Renumbering.Context

/-!
# What a symbolic run changes

All that a symbolic run does to its state is a sequence of single changes (`Change`), whether it fails or not
(`Does`). An invariant of a run follows from what one change does to it (`Does.keeps`): without random draws no
variable has a displacement (`Does.undrawn`), and elements of stacks are counted only where a parser extracts into a
stack (`Does.stackCounts`).

The same step from a state with other numbers makes the same variables under other numbers (`Regular`), and there is a
rule for each way in which steps are put together. `Continues σ c n d` says that the numbers after `c`, up to `d`, are
taken to those after `n`, one by one.
-/

namespace PacketSmith

open List Symbolic Context ExceptT SymbolicState
open Numbered (renum)

variable {α β γ : Type}

/-! ## Symbolic states -/

def SymbolicState.renumber (σ : ℕ ↪o ℕ) (n : Nat) (t : SymbolicState) : SymbolicState :=
  { context := renum σ t.context
    tally := renum σ t.tally
    fresh := n
    packet := renum σ t.packet }

def Continues (σ : ℕ ↪o ℕ) (c n d : Nat) : Prop := ∀ k, c < k → k ≤ d → σ k = n + (k - c)

namespace Continues

theorem first (h : Continues σ c n e) (hd : d ≤ e) : Continues σ c n d :=
  fun k hc hk => h k hc (hk.trans hd)

theorem second (h : Continues σ c n e) (hc : c ≤ d) : Continues σ d (n + (d - c)) e := by
  intro k hd hk
  rw [h k (by omega) hk]
  omega

end Continues

/-- What is recorded of reads and writes stays. -/
structure Context.Grows (c c' : Context) : Prop where
  reads : c.uninitializedReads <+: c'.uninitializedReads
  writes : c.invalidWrites <+: c'.invalidWrites

namespace Context.Grows

theorem refl (c : Context) : Grows c c := ⟨prefix_rfl, prefix_rfl⟩

theorem trans (h : Grows c c') (h' : Grows c' c'') : Grows c c'' :=
  ⟨h.reads.trans h'.reads, h.writes.trans h'.writes⟩

end Context.Grows

def Symbolic.result (m : Symbolic α) (t : SymbolicState) : Except Fault α × SymbolicState :=
  m.run.run t

namespace Symbolic

theorem result_bind_ok (h : m.result t = (.ok a, u)) (f : α → Symbolic β) : (m >>= f).result t = (f a).result u := by
  rw [result, run_bind, StateT.run_bind]
  rw [result] at h
  rw [h]
  rfl

theorem result_bind_error (h : m.result t = (.error e, u)) (f : α → Symbolic β) :
    (m >>= f).result t = (.error e, u) := by
  rw [result, run_bind, StateT.run_bind]
  rw [result] at h
  rw [h]
  rfl

@[simp] theorem result_modify (g : SymbolicState → SymbolicState) (t : SymbolicState) :
    (modify g : Symbolic Unit).result t = (.ok (), g t) := rfl

theorem result_lift (e : Except Fault α) (t : SymbolicState) : (lift e).result t = (e, t) := by
  cases e <;> rfl

theorem result_finally (m : Symbolic α) (g : Context → Context) (t : SymbolicState) :
    (tryFinally m (modifyContext g)).result t = ((m.result t).1,
      { (m.result t).2 with context := g (m.result t).2.context }) := by
  rcases h : m.result t with ⟨r, u⟩
  have hm : (m : SymbolicState → Except Fault α × SymbolicState) t = (r, u) := h
  simp only [result, ExceptT.run, StateT.run, tryFinally, MonadFinally.tryFinally', ExceptT.mk, bind,
    StateT.bind, hm, Functor.map, ExceptT.map]
  cases r <;> rfl

end Symbolic

/-! ## Changes -/

variable {o : Options} {counting : Bool} {t u : SymbolicState} {c : Context}

/-- A single change of the symbolic state. Elements of stacks are counted only if that is said. -/
inductive Change (o : Options) (counting : Bool) : SymbolicState → SymbolicState → Prop
  | put (t : SymbolicState) (ref : FieldRef) (v : Option Bits) :
    Change o counting t { t with context := t.context.put ref v }
  | invalidWrite (t : SymbolicState) (a : Access) :
    Change o counting t { t with context.invalidWrites := t.context.invalidWrites ++ [a] }
  | uninitializedRead (t : SymbolicState) (a : Access) :
    Change o counting t { t with context.uninitializedReads := t.context.uninitializedReads ++ [a] }
  | inputMetadata (t : SymbolicState) (ref : FieldRef) (v : Bits) :
    Change o counting t { t with context.inputMetadata := t.context.inputMetadata.insert ref v }
  | fresh (t : SymbolicState) (n : Nat) : Change o counting t { t with fresh := t.fresh + n }
  | newVariable (t : SymbolicState) {name : Variable} {size : Option Int} {v : Bits}
      {shifts : List (Variable × Nat)} (made : newVariable o.randomize name size = .ok (v, shifts)) :
    Change o counting t { t with context.displacements := t.context.displacements ++ shifts }
  | parameters (t : SymbolicState) (table : Label) (made : List Bits) :
    Change o counting t { t with context.tableData := t.context.tableData.insert table made }
  | action (t : SymbolicState) (table action : Label) :
    Change o counting t { t with context.tableActions := t.context.tableActions.insert table action }
  | keys (t : SymbolicState) (table : Label) (keys : List (Option Bits)) :
    Change o counting t { t with context.tableKeys := t.context.tableKeys.insert table keys }
  | source (t : SymbolicState) (source : Option SourceInfo) :
    Change o counting t { t with context.source := source }
  | currentTable (t : SymbolicState) (table : Label) :
    Change o counting t { t with context.currentTable := table }
  | stackCount (t : SymbolicState) (stack : Label) (n : Nat) (counts : counting = true) :
    Change o counting t { t with tally.stackCounts := t.tally.stackCounts.insert stack n }
  | length (t : SymbolicState) (ref : FieldRef) (length : Bits) :
    Change o counting t { t with tally.lengths := t.tally.lengths.insert ref length }
  | extract (t : SymbolicState) {size : Option Int} {length : Option Bits} {label : Option String}
      {v : Bits} {p : Packet} (read : t.packet.extract o size length label = .ok (v, p)) :
    Change o counting t { t with packet := p }
  | lookahead (t : SymbolicState) {size : Option Int} {v : Bits} {p : Packet}
      (read : t.packet.lookahead o size = .ok (v, p)) : Change o counting t { t with packet := p }
  | maxLength (t : SymbolicState) (length : Bits) :
    Change o counting t { t with packet.maxLength := some length }
  | complete (t : SymbolicState) : Change o counting t { t with packet := (t.packet.constraints o).2 }

abbrev Changes (o : Options) (counting : Bool) : SymbolicState → SymbolicState → Prop :=
  Relation.ReflTransGen (Change o counting)

/-- A step that makes single changes only. -/
def Does (o : Options) (counting : Bool) (m : Symbolic α) : Prop :=
  ∀ t, Changes o counting t (m.result t).2

namespace Does

theorem keeps {P : SymbolicState → Prop} (hm : Does o counting m)
    (hchange : ∀ t u, Change o counting t u → P t → P u) (ht : P t) : P (m.result t).2 := by
  have hsteps := hm t
  generalize (m.result t).2 = u at hsteps ⊢
  induction hsteps with
  | refl => exact ht
  | tail _ hstep ih => exact hchange _ _ hstep ih

theorem stackCounts (hm : Does o false m) (t : SymbolicState) :
    (m.result t).2.tally.stackCounts = t.tally.stackCounts := by
  refine hm.keeps (P := fun u => u.tally.stackCounts = t.tally.stackCounts) (fun u v h hu => ?_) rfl
  cases h with
  | stackCount _ _ counts => cases counts
  | _ => exact hu

/-! ## Putting steps together -/

theorem pure (a : α) : Does o counting (Pure.pure a : Symbolic α) := fun _ => .refl

theorem lift (e : Except Fault α) : Does o counting (lift e) := by
  intro t
  rw [result_lift]

theorem bind (hm : Does o counting m) (hf : ∀ a, Does o counting (f a)) : Does o counting (m >>= f) := by
  intro t
  have hfirst := hm t
  rcases h : m.result t with ⟨e | a, u⟩
  · rw [result_bind_error h]
    rwa [h] at hfirst
  · rw [result_bind_ok h]
    rw [h] at hfirst
    exact hfirst.trans (hf a u)

theorem lift_bind (e : Except Fault α) (hf : ∀ a, Does o counting (f a)) : Does o counting (Symbolic.lift e >>= f) :=
  bind (lift e) hf

theorem modify (hg : ∀ t, Change o counting t (g t)) : Does o counting (modify g : Symbolic Unit) :=
  fun t => .single (hg t)

theorem foldlM (hf : ∀ b c, Does o counting (f b c)) (b : β) (cs : List γ) : Does o counting (cs.foldlM f b) := by
  induction cs generalizing b with
  | nil => exact pure b
  | cons c cs ih => exact bind (hf b c) ih

end Does

/-! ## Contexts -/

namespace Context

theorem write_does (t : SymbolicState) (h : t.context.write o ref v = .ok c) :
    Changes o counting t { t with context := c } := by
  obtain ⟨invalid, -, h⟩ := bind_eq_ok.mp h
  split at h
  · split at h
    · cases h
      exact .refl
    · cases h
      have hrecord : Change o counting t _ := .invalidWrite t (ref, t.context.source)
      exact (Relation.ReflTransGen.single hrecord).tail (.put _ ref v)
  · cases h
    exact .single (.put t ref v)

theorem setAction_does {table action : Label} (t : SymbolicState) (h : t.context.setAction table action = .ok c) :
    Changes o counting t { t with context := c } := by
  rw [setAction] at h
  split at h
  · split at h
    · cases h
      exact .refl
    · cases h
  · cases h
    exact .single (.action t table action)

theorem clear_does (header : Label) (t : SymbolicState) :
    Changes o counting t { t with context := t.context.clear header } := by
  rw [clear]
  generalize t.context.fieldsOf header = refs
  induction refs generalizing t with
  | nil => exact .refl
  | cons ref refs ih =>
    have hput : Change o counting t _ := .put t ref none
    exact .head hput (ih { t with context := t.context.put ref none })

theorem addParameters_go_does (table action : Label)
    (i : Nat) (made : List Bits) (params : List (Label × Int)) (t : SymbolicState) :
    Changes o counting t
      { t with context := (addParameters.go o table action i made params t.context).2 } := by
  induction params generalizing i made t with
  | nil => exact .single (.parameters t table made)
  | cons param params ih =>
    rw [addParameters.go]
    split
    · exact .refl
    · rename_i v shifts hnew
      have hvariable : Change o counting t _ := .newVariable t hnew
      dsimp only
      split
      · exact .single hvariable
      · rename_i c hwrite
        have hwritten : Changes o counting _ _ := write_does
          { t with context.displacements := t.context.displacements ++ shifts } hwrite
        exact .head hvariable (hwritten.trans (ih (i + 1) (made ++ [v]) { t with context := c }))

theorem addParameters_does (table action : Label) (params : List (Label × Int)) (t : SymbolicState) :
    Changes o counting t { t with context := (t.context.addParameters o table action params).2 } := by
  rw [addParameters]
  split
  · exact .refl
  · exact addParameters_go_does table action 0 [] params t

end Context

theorem Changes.grows (h : Changes o counting t u) : t.context.Grows u.context := by
  induction h with
  | refl => exact .refl _
  | tail _ hstep ih =>
    refine ih.trans ?_
    cases hstep with
    | invalidWrite => exact ⟨prefix_rfl, prefix_append _ _⟩
    | uninitializedRead => exact ⟨prefix_append _ _, prefix_rfl⟩
    | _ => exact ⟨prefix_rfl, prefix_rfl⟩

theorem Changes.fresh_le (h : Changes o counting t u) : t.fresh ≤ u.fresh := by
  induction h with
  | refl => exact le_rfl
  | tail _ hstep ih =>
    refine ih.trans ?_
    cases hstep with
    | fresh n => exact Nat.le_add_right _ _
    | _ => exact le_rfl

/-! ## Regular steps -/

/-- Two steps of which the first one does under other numbers what the second one does. That one makes single
changes only, and the packet and the tally are left alone where nothing is parsed. -/
structure Regular [Numbered α] (σ : ℕ ↪o ℕ) (p : Bool) (o : Options) (c : Bool) (m' m : Symbolic α) : Prop where
  does : Does o c m
  outside : p = false → ∀ t, (m.result t).2.tally = t.tally ∧ (m.result t).2.packet = t.packet
  /-- The results and the states afterwards differ by numbers only. -/
  run : ∀ t n, Continues σ t.fresh n (m.result t).2.fresh → m'.result (t.renumber σ n) =
    (renum σ (m.result t).1, (m.result t).2.renumber σ (n + ((m.result t).2.fresh - t.fresh)))

namespace Regular

variable {p c : Bool} [Numbered α] [Numbered β] {m m' : Symbolic α}

theorem still (hdoes : Does o c m)
    (houtside : p = false → ∀ t, (m.result t).2.tally = t.tally ∧ (m.result t).2.packet = t.packet)
    (hfresh : ∀ t, (m.result t).2.fresh = t.fresh)
    (hrun : ∀ t n, m'.result (t.renumber σ n) = (renum σ (m.result t).1, (m.result t).2.renumber σ n)) :
    Regular σ p o c m' m := by
  refine ⟨hdoes, houtside, fun t n _ => ?_⟩
  rw [hrun, hfresh, Nat.sub_self, Nat.add_zero]

theorem pure' (a : α) : Regular σ p o c (Pure.pure (renum σ a)) (Pure.pure a) :=
  still (.pure a) (fun _ _ => ⟨rfl, rfl⟩) (fun _ => rfl) fun _ _ => rfl

theorem pure_of_eq {a' a : α} (h : a' = renum σ a) : Regular σ p o c (Pure.pure a') (Pure.pure a) :=
  h ▸ pure' a

theorem throw' (f : Fault) : Regular σ p o c (throw f : Symbolic α) (throw f) :=
  still (fun _ => .refl) (fun _ _ => ⟨rfl, rfl⟩) (fun _ => rfl) fun _ _ => rfl

theorem lift' {e' e : Except Fault α} (h : e' = renum σ e) : Regular σ p o c (lift e') (lift e) := by
  subst h
  cases e with
  | error f => exact throw' f
  | ok a => exact pure' a

theorem bind {f' f : α → Symbolic β} (hm : Regular σ p o c m' m)
    (hf : ∀ a, Regular σ p o c (f' (renum σ a)) (f a)) : Regular σ p o c (m' >>= f') (m >>= f) := by
  refine ⟨hm.does.bind fun a => (hf a).does, fun hp t => ?_, fun t n hσ => ?_⟩
  · obtain ⟨htally, hpacket⟩ := hm.outside hp t
    rcases h : m.result t with ⟨e | a, u⟩
    · rw [result_bind_error h]
      rw [h] at htally hpacket
      exact ⟨htally, hpacket⟩
    · rw [result_bind_ok h]
      rw [h] at htally hpacket
      exact ⟨((hf a).outside hp u).1.trans htally, ((hf a).outside hp u).2.trans hpacket⟩
  · have hearlier := (hm.does t).fresh_le
    have hrun := hm.run t n
    rcases h : m.result t with ⟨e | a, u⟩
    · rw [result_bind_error h] at hσ ⊢
      rw [h] at hrun
      exact result_bind_error (hrun hσ) f'
    · rw [result_bind_ok h] at hσ ⊢
      rw [h] at hrun hearlier
      have hlater := ((hf a).does u).fresh_le
      rw [result_bind_ok (hrun (hσ.first hlater)) f', (hf a).run u _ (hσ.second hearlier)]
      have hcount : n + (u.fresh - t.fresh) + (((f a).result u).2.fresh - u.fresh) =
          n + (((f a).result u).2.fresh - t.fresh) := by
        dsimp only at hearlier
        omega
      rw [hcount]

/-- A step that fails or has a result that does not depend on numbers, and a step after it. -/
theorem lift_bind (e : Except Fault γ) {f' f : γ → Symbolic α} (hf : ∀ a, Regular σ p o c (f' a) (f a)) :
    Regular σ p o c (lift e >>= f') (lift e >>= f) := by
  cases e with
  | error e => exact throw' e
  | ok a => exact hf a

theorem require_bind (b : Bool) (f : Fault) (hm : Regular σ p o c m' m) :
    Regular σ p o c (require b f >>= fun _ => m') (require b f >>= fun _ => m) := by
  cases b with
  | false => exact throw' f
  | true => exact hm

theorem get_bind {f' f : SymbolicState → Symbolic α}
    (hf : ∀ t n, Regular σ p o c (f' (t.renumber σ n)) (f t)) : Regular σ p o c (get >>= f') (get >>= f) :=
  ⟨fun t => (hf t 0).does t, fun hp t => (hf t 0).outside hp t, fun t n hσ => (hf t n).run t n hσ⟩

theorem context : Regular σ p o c context context :=
  still (fun _ => .refl) (fun _ _ => ⟨rfl, rfl⟩) (fun _ => rfl) fun _ _ => rfl

theorem modifyContext (hg : ∀ t : SymbolicState, Change o c t { t with context := g t.context })
    (hrun : ∀ ctx, g' (renum σ ctx) = renum σ (g ctx)) :
    Regular σ p o c (modifyContext g') (modifyContext g) :=
  still (.modify hg) (fun _ _ => ⟨rfl, rfl⟩) (fun _ => rfl)
    fun t n => congrArg (fun ctx => (Except.ok (), { t.renumber σ n with context := ctx })) (hrun t.context)

theorem modify' (hg : ∀ t, Change o c t (g t)) (hfresh : ∀ t, (g t).fresh = t.fresh)
    (hrun : ∀ t n, g' (t.renumber σ n) = (g t).renumber σ n) : Regular σ true o c (modify g' : Symbolic Unit)
    (modify g) :=
  still (.modify hg) (by simp) hfresh fun t n => congrArg (Prod.mk (Except.ok ())) (hrun t n)

theorem nextFresh_bind {f' f : Nat → Symbolic α} (hf : ∀ k, Regular σ p o c (f' (σ k)) (f k)) :
    Regular σ p o c (nextFresh >>= f') (nextFresh >>= f) := by
  refine ⟨.bind (fun t => .single (.fresh t 1)) fun k => (hf k).does,
    fun hp t => (hf (t.fresh + 1)).outside hp { t with fresh := t.fresh + 1 }, fun t n hσ => ?_⟩
  have hnext : (nextFresh >>= f).result t = (f (t.fresh + 1)).result { t with fresh := t.fresh + 1 } := rfl
  have hlater := ((hf (t.fresh + 1)).does { t with fresh := t.fresh + 1 }).fresh_le
  have hrun := (hf (t.fresh + 1)).run { t with fresh := t.fresh + 1 } (n + 1)
  rw [hnext] at hσ ⊢
  generalize (f (t.fresh + 1)).result { t with fresh := t.fresh + 1 } = r at *
  dsimp only at hlater hrun
  have hnumber : σ (t.fresh + 1) = n + 1 := by
    rw [hσ _ (Nat.lt_succ_self _) hlater]
    omega
  have hσ' : Continues σ (t.fresh + 1) (n + 1) r.2.fresh := by
    intro k hk hd
    rw [hσ k (by omega) hd]
    omega
  rw [hnumber] at hrun
  refine (hrun hσ').trans ?_
  rw [show n + 1 + (r.2.fresh - (t.fresh + 1)) = n + (r.2.fresh - t.fresh) by omega]

theorem finally' (hm : Regular σ p o c m' m) (hg : ∀ t : SymbolicState, Change o c t { t with context := g t.context })
    (hrun : ∀ ctx, g' (renum σ ctx) = renum σ (g ctx)) :
    Regular σ p o c (tryFinally m' (Symbolic.modifyContext g')) (tryFinally m (Symbolic.modifyContext g)) := by
  refine ⟨fun t => ?_, fun hp t => ?_, fun t n hσ => ?_⟩
  · rw [result_finally]
    exact (hm.does t).tail (hg _)
  · rw [result_finally]
    exact hm.outside hp t
  · rw [result_finally] at hσ ⊢
    rw [result_finally, hm.run t n hσ]
    exact congrArg (fun ctx => (renum σ (m.result t).1,
      { (m.result t).2.renumber σ (n + ((m.result t).2.fresh - t.fresh)) with context := ctx })) (hrun _)

theorem update {g' g : Context → Except Fault Context} (hrun : ∀ ctx, g' (renum σ ctx) = renum σ (g ctx))
    (hdoes : ∀ (t : SymbolicState) ctx, g t.context = .ok ctx → Changes o c t { t with context := ctx }) :
    Regular σ p o c (do let ctx ← Symbolic.lift (g' (← Symbolic.context)); Symbolic.modifyContext fun _ => ctx)
      (do let ctx ← Symbolic.lift (g (← Symbolic.context)); Symbolic.modifyContext fun _ => ctx) := by
  have hresult (g : Context → Except Fault Context) (t : SymbolicState) :
      (do let ctx ← Symbolic.lift (g (← Symbolic.context)); Symbolic.modifyContext fun _ => ctx).result t =
        ((g t.context).map fun _ => (), { t with context := (g t.context).toOption.getD t.context }) := by
    change (lift (g t.context) >>= _).result t = _
    cases g t.context <;> rfl
  refine still (fun t => ?_) (fun _ t => ?_) (fun t => ?_) fun t n => ?_
  · rw [hresult]
    cases hg : g t.context with
    | error e => exact .refl
    | ok ctx => exact hdoes t ctx hg
  · rw [hresult]
    exact ⟨rfl, rfl⟩
  · rw [hresult]
  · rw [hresult, hresult, show (t.renumber σ n).context = renum σ t.context from rfl, hrun]
    cases g t.context <;> rfl

theorem reading (f' f : Packet → Except Fault (Bits × Packet)) (hrun : ∀ q, f' (renum σ q) = renum σ (f q))
    (hdoes : ∀ (t : SymbolicState) v q, f t.packet = .ok (v, q) → Change o c t { t with packet := q }) :
    Regular σ true o c (do
      let (v, q) ← lift (f' (← get).packet)
      modify fun s => { s with packet := q }
      return v) (do
      let (v, q) ← lift (f (← get).packet)
      modify fun s => { s with packet := q }
      return v) := by
  refine still (fun t => ?_) (by simp) (fun t => ?_) fun t n => ?_
  · change Changes o c t ((lift (f t.packet) >>= _).result t).2
    cases h : f t.packet with
    | error e => exact .refl
    | ok r => exact .single (hdoes t r.1 r.2 h)
  · change ((lift (f t.packet) >>= _).result t).2.fresh = t.fresh
    cases f t.packet <;> rfl
  · change (lift (f' (renum σ t.packet)) >>= _).result _ =
      (renum σ ((lift (f t.packet) >>= _).result t).1, ((lift (f t.packet) >>= _).result t).2.renumber σ n)
    rw [hrun]
    cases f t.packet <;> rfl

theorem mapM_same {f' f : γ → Symbolic β} (hf : ∀ a, Regular σ p o c (f' a) (f a)) (as : List γ) :
    Regular σ p o c (as.mapM f') (as.mapM f) := by
  induction as with
  | nil => exact pure' []
  | cons a as ih =>
    rw [mapM_cons, mapM_cons]
    exact bind (hf a) fun b => bind ih fun bs => pure' (b :: bs)

theorem forM_same (hf : ∀ a, Regular σ p o c (f' a) (f a)) (as : List γ) :
    Regular σ p o c (as.forM f') (as.forM f) := by
  induction as with
  | nil => exact pure' ()
  | cons a as ih => exact bind (hf a) fun _ => ih

theorem forM_zip (hf : ∀ b a, Regular σ p o c (f' (b, renum σ a)) (f (b, a))) (bs : List γ) (as : List α) :
    Regular σ p o c ((bs.zip (renum σ as)).forM f') ((bs.zip as).forM f) := by
  induction bs generalizing as with
  | nil => exact pure' ()
  | cons b bs ih =>
    cases as with
    | nil => exact pure' ()
    | cons a as => exact bind (hf b a) fun _ => ih as

theorem foldlM (hf : ∀ b a, Regular σ p o c (f' (renum σ b) (renum σ a)) (f b a)) (b : β) (as : List α) :
    Regular σ p o c ((renum σ as).foldlM f' (renum σ b)) (as.foldlM f b) := by
  induction as generalizing b with
  | nil => exact pure' b
  | cons a as ih => exact bind (hf b a) ih

theorem foldlM_same (hf : ∀ b a, Regular σ p o c (f' (renum σ b) a) (f b a))
    (b : β) (as : List γ) : Regular σ p o c (as.foldlM f' (renum σ b)) (as.foldlM f b) := by
  induction as generalizing b with
  | nil => exact pure' b
  | cons a as ih => exact bind (hf b a) ih

end Regular

namespace Symbolic

variable {p c : Bool}

/-! ## Fields and tables -/

theorem write_regular (o : Options) (ref : FieldRef) (v : Option Bits) :
    Regular σ p o c (write o ref (renum σ v)) (write o ref v) :=
  .update (fun ctx => ctx.write_renum σ o ref v) fun t _ h => Context.write_does t h

theorem setValid_regular (o : Options) (header : Label) (b : Bool) :
    Regular σ p o c (setValid o header b) (setValid o header b) :=
  write_regular o (header, valid) (some (Bits.ofInt b.toNat 1))

theorem setAction_regular (table action : Label) : Regular σ p o c (setAction table action) (setAction table action) :=
  .update (fun ctx => ctx.setAction_renum σ table action) fun t _ h => Context.setAction_does t h

theorem setKeys_regular (table : Label) (keys : List (Option Bits)) :
    Regular σ p o c (setKeys table (renum σ keys)) (setKeys table keys) :=
  .modifyContext (fun t => .keys t table keys) fun ctx =>
    congrArg (fun d => { renum σ ctx with tableKeys := d })
      (Dict.insert_renum σ ctx.tableKeys table keys)

theorem setSource_regular (source : Option SourceInfo) : Regular σ p o c (setSource source) (setSource source) :=
  .modifyContext (fun t => .source t source) fun _ => rfl

theorem putField_regular (ref : FieldRef) (b : Bits) :
    Regular σ p o c (modifyContext fun ctx => ctx.put ref (some (renum σ b)))
      (modifyContext fun ctx => ctx.put ref (some b)) :=
  .modifyContext (fun t => .put t ref (some b)) fun ctx => ctx.put_renum σ ref (some b)

theorem newVariable_regular (o : Options) (x : Variable) (size : Option Int) :
    Regular σ p o c (newVariable o (renum σ x) size) (newVariable o x size) := by
  rw [newVariable, newVariable, newVariable_renum]
  cases h : PacketSmith.newVariable o.randomize x size with
  | error f => exact .throw' f
  | ok r =>
    have hmade : Regular σ p o c
        (do modifyContext fun ctx => { ctx with displacements := ctx.displacements ++ renum σ r.2 }
            return renum σ r.1)
        (do modifyContext fun ctx => { ctx with displacements := ctx.displacements ++ r.2 }
            return r.1) :=
      .bind (.modifyContext (fun t => .newVariable t h) fun ctx => congrArg (fun ds => { renum σ ctx with
        displacements := ds }) (renum_append σ ctx.displacements r.2).symm) fun _ => .pure' r.1
    exact hmade

theorem clear_regular (header : Label) : Regular σ p o c (clear header) (clear header) := by
  have hresult (t : SymbolicState) : (clear header).result t = (.ok (), { t with
      fresh := t.fresh + (t.context.fieldsOf header).length
      context := t.context.clear header }) := rfl
  refine ⟨fun t => (clear_does header t).tail (.fresh _ (t.context.fieldsOf header).length),
    fun _ _ => ⟨rfl, rfl⟩, fun t n _ => ?_⟩
  rw [hresult, hresult]
  simp only [renumber, fieldsOf_renum, clear_renum,
    Nat.add_sub_cancel_left]
  rfl

theorem addParameters_regular (o : Options) (table action : Label) (params : List (Label × Int)) :
    Regular σ p o c (addParameters o table action params) (addParameters o table action params) := by
  have hresult (t : SymbolicState) : (addParameters o table action params).result t =
      ((t.context.addParameters o table action params).1,
        { t with context := (t.context.addParameters o table action params).2 }) := by
    have hcontext : context.result t = (.ok t.context, t) := rfl
    rw [addParameters, result_bind_ok hcontext]
    rcases t.context.addParameters o table action params with ⟨e | a, ctx⟩ <;> rfl
  refine .still (fun t => ?_) (fun _ t => ?_) (fun t => ?_) fun t n => ?_
  · rw [hresult]
    exact addParameters_does table action params t
  · rw [hresult]
    exact ⟨rfl, rfl⟩
  · rw [hresult]
  · rw [hresult, hresult]
    simp only [renumber, addParameters_renum]
    rfl

theorem read_regular (o : Options) (ref : FieldRef) : Regular σ p o c (read o ref) (read o ref) := by
  refine .bind .context fun ctx => ?_
  rw [Context.values_renum, Dict.get?_renum]
  cases ctx.values.get? ref with
  | some v => exact .pure' v
  | none =>
    refine .bind .context fun ctx => ?_
    cases ctx.fields.get? ref with
    | none => exact .throw' _
    | some info =>
      refine .nextFresh_bind fun k => ?_
      refine .bind (newVariable_regular o (Context.freshName ref k) info.size) fun v => ?_
      split
      · refine .bind (write_regular o ref (some v)) fun _ => ?_
        refine .bind (.modifyContext (fun t => .inputMetadata t ref v) fun ctx =>
          congrArg (fun d => { renum σ ctx with inputMetadata := d })
            (Dict.insert_renum σ ctx.inputMetadata ref v)) fun _ => ?_
        refine .bind .context fun ctx => ?_
        rw [Context.values_renum, Dict.get?_renum]
        cases ctx.values.get? ref with
        | some v => exact .pure' v
        | none => exact .throw' _
      · split
        · exact .bind (.lift' (Bits.constant_renum σ 0 info.size).symm) fun b =>
            .pure' (some b)
        · exact .bind (.modifyContext (fun t => .uninitializedRead t (ref, t.context.source))
            fun _ => rfl) fun _ => .pure' (some v)

theorem lastElement_regular (stack : Label) (size : Int) :
    Regular σ p o c (lastElement stack size) (lastElement stack size) := by
  refine .bind .context fun ctx => ?_
  rw [lastValid_renum]
  refine .lift_bind _ fun found => ?_
  cases found <;> exact .pure' (α := Label) _

theorem stackCount_regular (stack : Label) : Regular σ p o c (stackCount stack) (stackCount stack) :=
  .get_bind fun t _ => .pure' (t.tally.stackCounts.getD stack 0)

/-! ## The packet -/

theorem nextElement_regular (stack : Label) : Regular σ true o true (nextElement stack) (nextElement stack) :=
  .bind (stackCount_regular stack) fun n =>
    .bind (.modify' (fun t => .stackCount t stack (n + 1) rfl) (fun _ => rfl) fun _ _ => rfl) fun _ => .pure' (α := Label) _

theorem recordLength_regular (ref : FieldRef) (length : Bits) :
    Regular σ true o c (recordLength ref (renum σ length)) (recordLength ref length) := by
  refine .get_bind fun t n => ?_
  rw [show (t.renumber σ n).tally.lengths = renum σ t.tally.lengths from rfl,
    Dict.contains_renum]
  refine .require_bind _ _ (.modify' (fun t => .length t ref length) (fun _ => rfl) fun t n => ?_)
  exact congrArg (fun d => { t.renumber σ n with tally.lengths := d })
    (Dict.insert_renum σ t.tally.lengths ref length)

theorem extract_regular (o : Options) (size : Option Int) (length : Option Bits) (label : Option String) :
    Regular σ true o c (extract o size (renum σ length) label) (extract o size length label) :=
  .reading (·.extract o size (renum σ length) label) (·.extract o size length label)
    (fun q => q.extract_renum σ o size length label) fun t _ _ h => .extract t h

theorem setMaxLength_regular (length : Bits) :
    Regular σ true o c (setMaxLength (renum σ length)) (setMaxLength length) :=
  .modify' (fun t => .maxLength t length) (fun _ => rfl) fun _ _ => rfl

theorem lookahead_regular (o : Options) (offset size : Json) :
    Regular σ true o c (lookahead o offset size) (lookahead o offset size) :=
  .lift_bind _ fun _ => .lift_bind _ fun _ => .lift_bind _ fun n =>
    .reading (·.lookahead o (some n)) (·.lookahead o (some n)) (fun q => q.lookahead_renum σ o (some n))
      fun t _ _ h => .lookahead t h

theorem result_packetConstraints (o : Options) (t : SymbolicState) :
    (packetConstraints o).result t = ((t.packet.constraints o).1,
      { t with packet := (t.packet.constraints o).2 }) := by
  change (lift (t.packet.constraints o).1).result { t with packet := (t.packet.constraints o).2 } = _
  rw [result_lift]

theorem packetConstraints_regular (o : Options) : Regular σ true o c (packetConstraints o) (packetConstraints o) := by
  refine .still (fun t => ?_) (by simp) (fun t => ?_) fun t n => ?_
  · rw [result_packetConstraints]
    exact .single (.complete t)
  · rw [result_packetConstraints]
  · rw [result_packetConstraints, result_packetConstraints,
      show (t.renumber σ n).packet = renum σ t.packet from rfl, Packet.constraints_renum]
    rfl

end Symbolic

/-! ## Displacements -/

def SymbolicState.Undrawn (t : SymbolicState) : Prop :=
  t.context.displacements = [] ∧ t.packet.displacements = []

theorem newVariable_undrawn {randomize : Bool} {shifts : List (Variable × Nat)} (hdraw : randomize = false)
    (h : newVariable randomize name size = .ok (v, shifts)) : shifts = [] := by
  subst hdraw
  obtain ⟨b, -, h⟩ := bind_eq_ok.mp h
  cases h
  rfl

theorem Packet.constraints_displacements (p : Packet) (o : Options) :
    (p.constraints o).2.displacements = p.displacements := by
  rw [constraints]
  split
  · rfl
  · split
    · rfl
    · split <;> rfl

theorem Change.undrawn (hdraw : o.randomize = false) (h : Change o counting t u) (ht : t.Undrawn) : u.Undrawn := by
  cases h with
  | newVariable made =>
    obtain rfl := newVariable_undrawn hdraw made
    exact ⟨(append_nil _).trans ht.1, ht.2⟩
  | extract read =>
    obtain ⟨length, -, h⟩ := bind_eq_ok.mp read
    obtain ⟨⟨data, shifts⟩, hnew, h⟩ := bind_eq_ok.mp h
    cases h
    obtain rfl := newVariable_undrawn hdraw hnew
    exact ⟨ht.1, (append_nil _).trans ht.2⟩
  | lookahead read =>
    obtain ⟨_, -, h⟩ := bind_eq_ok.mp read
    obtain ⟨⟨data, shifts⟩, hnew, h⟩ := bind_eq_ok.mp h
    cases h
    obtain rfl := newVariable_undrawn hdraw hnew
    exact ⟨ht.1, (append_nil _).trans ht.2⟩
  | complete => exact ⟨ht.1, (Packet.constraints_displacements t.packet o).trans ht.2⟩
  | _ => exact ht

theorem Context.write_displacements (h : c.write o ref v = .ok c') : c'.displacements = c.displacements := by
  obtain ⟨invalid, -, h⟩ := bind_eq_ok.mp h
  split at h
  · split at h <;> cases h <;> rfl
  · cases h
    rfl

theorem Program.startContext_undrawn {p : Program} (h : p.startContext o = .ok c) : c.displacements = [] := by
  have hwrite (c : Context) (ref : FieldRef) (v : Option Bits) (c' : Context)
      (hc : c.displacements = []) (h : c.write o ref v = .ok c') : c'.displacements = [] :=
    (write_displacements h).trans hc
  obtain ⟨declared, hdeclared, h⟩ := bind_eq_ok.mp h
  obtain ⟨elements, helements, h⟩ := bind_eq_ok.mp h
  obtain ⟨standard, hstandard, h⟩ := bind_eq_ok.mp h
  obtain ⟨error, -, h⟩ := bind_eq_ok.mp h
  have hd : declared.displacements = [] := by
    refine foldlM_keeps (P := fun c : Context => c.displacements = []) (fun c h' c' hc hfields => ?_) rfl
      hdeclared
    refine foldlM_keeps (P := fun c : Context => c.displacements = []) (fun c f c' hc hf => ?_) hc
      hfields
    split at hf
    · exact hwrite c _ _ c' hc hf
    · cases hf
      exact hc
  have he : elements.displacements = [] := by
    refine foldlM_keeps (P := fun c : Context => c.displacements = []) (fun c s c' hc hstack => ?_) hd
      helements
    exact foldlM_keeps (P := fun c : Context => c.displacements = [])
      (fun c i c' hc hi => hwrite c _ _ c' hc hi) hc hstack
  have hs : standard.displacements = [] :=
    foldlM_keeps (P := fun c : Context => c.displacements = [])
      (fun c f c' hc hf => hwrite c _ _ c' hc hf) he hstandard
  exact hwrite standard _ _ c hs h

theorem Does.undrawn (hm : Does o counting m) (hdraw : o.randomize = false) (ht : t.Undrawn) : (m.result t).2.Undrawn :=
  hm.keeps (fun _ _ h => h.undrawn hdraw) ht

end PacketSmith
