import PacketSmith.Proofs.Parser.Arrivals
import PacketSmith.Proofs.Parser.PathLength

/-!
# Extractions into stacks

The elements of stacks are counted twice: for a path through the graph state by state (`Program.countExtracts`), and
in a symbolic run operation by operation, which goes on only while no stack is too small. `Counted` is what the
operations of a state do to the numbers of the run, and `Tracks` says that the numbers for the graph are not ahead of
them and that all of them fit.
-/

namespace PacketSmith

open List

namespace Symbolic

variable {parser : Parser} {t u v : SymbolicState}

inductive Counted (p : Program) : List Json → SymbolicState → SymbolicState → Prop where
  | none {t u : SymbolicState} (same : u.tally.stackCounts = t.tally.stackCounts) : Counted p [] t u
  | next {name : Json} {names : List Json} {key : Label} {s : Stack} {t u v : SymbolicState}
    (named : name.key = .ok key) (found : p.stack key = .ok s)
    (room : (t.tally.stackCounts.getD key 0 : Int) < s.size)
    (step : u.tally.stackCounts = t.tally.stackCounts.insert key (t.tally.stackCounts.getD key 0 + 1))
    (rest : Counted p names u v) : Counted p (name :: names) t v

variable {p : Program} {names names' : List Json} {key fail : Label} {s : Stack}

theorem Counted.of_eq_left (h : Counted p names t u) (heq : t.tally.stackCounts = t'.tally.stackCounts) :
    Counted p names t' u := by
  cases h with
  | none same => exact .none (same.trans heq)
  | next named found room step rest =>
    rw [heq] at room step
    exact .next named found room step rest

theorem Counted.trans (h : Counted p names t u) (h' : Counted p names' u v) : Counted p (names ++ names') t v := by
  induction h with
  | none same => exact h'.of_eq_left same
  | next named found room step rest ih => exact .next named found room step (ih h')

theorem Counted.le (h : Counted p names t u) (key : Label) :
    t.tally.stackCounts.getD key 0 ≤ u.tally.stackCounts.getD key 0 := by
  induction h with
  | none same => rw [same]
  | @next name names key' s t u v named found room step rest ih =>
    refine Nat.le_trans ?_ ih
    rw [step, Dict.getD_insert]
    split
    · rename_i hkey
      exact hkey ▸ Nat.le_succ _
    · exact Nat.le_refl _

/-! ## Operations -/

theorem stackOf_inv (h : stackOf p name = .ok (key, s)) : name.key = .ok key ∧ p.headerStacks.get? key = some s := by
  obtain ⟨key', hkey, h⟩ := bind_eq_ok.mp h
  split at h
  · next found =>
    cases h
    exact ⟨hkey, found⟩
  · cases h

theorem result_stackCount (key : Label) (t : SymbolicState) :
    (stackCount key).result t = (.ok (t.tally.stackCounts.getD key 0), t) := rfl

theorem result_require_inv (h : (require b f : Symbolic Unit).result t = (.ok a, u)) : b = true ∧ u = t := by
  cases b with
  | false => cases h
  | true =>
    cases h
    exact ⟨rfl, rfl⟩

/-- An operation within bounds finds each stack that it names, with an element before the limit. -/
theorem outOfBounds_false (h : (outOfBounds.go env vs).result t = (.ok false, u)) :
    u = t ∧ ∀ v ∈ vs, ∃ name key s, v.headerName = .ok name ∧ stackOf env.program name = .ok (key, s) ∧
      (t.tally.stackCounts.getD key 0 : Int) ≤ s.size ∧
      (t.tally.stackCounts.getD key 0 : Int) ≠ match v with | .stack _ => s.size | _ => 0 := by
  induction vs with
  | nil =>
    cases h
    exact ⟨rfl, by simp⟩
  | cons v vs ih =>
    obtain ⟨name, _, hname, h₁⟩ := result_bind_inv h
    obtain ⟨hheader, rfl⟩ := result_lift_inv hname
    obtain ⟨key, _, hkey, h₂⟩ := result_bind_inv h₁
    obtain ⟨hlabel, rfl⟩ := result_lift_inv hkey
    rw [result_bind_ok (result_stackCount key _)] at h₂
    obtain ⟨⟨key', s⟩, _, hstack, h₃⟩ := result_bind_inv h₂
    obtain ⟨hfound, rfl⟩ := result_lift_inv hstack
    obtain ⟨_, _, hrequire, h₄⟩ := result_bind_inv h₃
    obtain ⟨hle, rfl⟩ := result_require_inv hrequire
    cases hlabel.symm.trans (stackOf_inv hfound).1
    dsimp only at h₄
    split_ifs at h₄ with hlimit
    · cases h₄
    · obtain ⟨hstate, hrest⟩ := ih h₄
      exact ⟨hstate, forall_mem_cons.mpr ⟨⟨name, _, s, hheader, hfound, of_decide_eq_true hle, hlimit⟩, hrest⟩⟩

theorem stackCounts_eq (o : Options) (hm : Does o false m)
    (h : m.result t = (.ok a, u)) : u.tally.stackCounts = t.tally.stackCounts := by
  have hsame := hm.stackCounts t
  rwa [h] at hsame

variable {counts : Dict Label Nat}

theorem extractHeader_enters (h : (extractHeader env w (.text "") pos).result t = (.ok pos', u)) :
    ∃ key type name t' u', extractedType env.program w = .ok (key, type) ∧
      t'.tally.stackCounts = t.tally.stackCounts ∧ (enter env w key).result t' = (.ok name, u') ∧
      u.tally.stackCounts = u'.tally.stackCounts := by
  rw [extractHeader] at h
  obtain ⟨⟨key, type⟩, t₁, htype, h₁⟩ := result_bind_inv h
  obtain ⟨hok, rfl⟩ := result_lift_inv htype
  obtain ⟨name, u', henter, h₂⟩ := result_bind_inv h₁
  refine ⟨key, type, name, _, u', hok, rfl, henter, stackCounts_eq env.options ?_ h₂⟩
  refine Does.bind (Does.foldlM (fun offset e => ?_) (Bits.ofInt 0 32) _) fun length => Does.lift _
  refine Does.bind (extract_regular (σ := RelEmbedding.refl _) env.options e.2.size none _).does fun data => ?_
  refine Does.bind (Does.modify fun t => .put t _ (some data)) fun _ => ?_
  exact Does.lift_bind _ fun b => Does.lift _

theorem extractVaryingHeader_enters
    (h : (extractVaryingHeader env w size (.text "") pos).result t = (.ok r, u)) :
    ∃ key type name t' u', extractedType env.program w = .ok (key, type) ∧
      t'.tally.stackCounts = t.tally.stackCounts ∧ (enter env w key).result t' = (.ok name, u') ∧
      u.tally.stackCounts = u'.tally.stackCounts := by
  rw [extractVaryingHeader] at h
  obtain ⟨n, t₁, hn, h₁⟩ := result_bind_inv h
  obtain ⟨length, t₂, hlength, h₂⟩ := result_bind_inv h₁
  obtain ⟨-, rfl⟩ := result_lift_inv hlength
  obtain ⟨⟨key, type⟩, t₃, htype, h₃⟩ := result_bind_inv h₂
  obtain ⟨hok, rfl⟩ := result_lift_inv htype
  obtain ⟨name, u', henter, h₄⟩ := result_bind_inv h₃
  refine ⟨key, type, name, _, u', hok, stackCounts_eq env.options
    (value_regular (σ := RelEmbedding.refl _) env size).does hn, henter, stackCounts_eq env.options ?_ h₄⟩
  refine Does.bind (extractVarying_regular (σ := RelEmbedding.refl _) env name length (Bits.ofInt 0 32)
    type.fields.entries).does fun r => ?_
  exact Does.bind (Does.lift _) fun beyond => Does.pure _

theorem extractedType_stack
    (h : extractedType p (.stack n) = .ok (key, type)) (hstack : stackOf p n = .ok (key', s)) : key = key' := by
  simp only [extractedType, hstack] at h
  obtain ⟨_, hok, h⟩ := bind_eq_ok.mp h
  cases hok
  split at h
  · cases h
    rfl
  · cases h

theorem counted_of_enter (htype : extractedType env.program w = .ok (key, type))
    (henter : (enter env w key).result t = (.ok name, u))
    (hnames : (∃ n, w = .stack n ∧ names = [n]) ∨ (∀ n, w ≠ .stack n) ∧ names = [])
    (hroom : ∀ n, w = .stack n → ∃ key s, stackOf env.program n = .ok (key, s) ∧
      (t.tally.stackCounts.getD key 0 : Int) < s.size) :
    Counted env.program names t u := by
  rcases hnames with ⟨n, rfl, rfl⟩ | ⟨hother, rfl⟩
  · obtain ⟨key', s, hstack, hless⟩ := hroom n rfl
    obtain rfl := extractedType_stack htype hstack
    obtain ⟨hkey, found⟩ := stackOf_inv hstack
    have hnext : (nextElement key).result t = (.ok (Context.elementName key (t.tally.stackCounts.getD key 0)),
        { t with tally.stackCounts := t.tally.stackCounts.insert key (t.tally.stackCounts.getD key 0 + 1) }) := rfl
    rw [enter, result_bind_ok hnext] at henter
    refine .next hkey (by rw [Program.stack, found]) hless rfl (.none (stackCounts_eq env.options ?_ henter))
    exact Does.bind (setValid_regular (σ := RelEmbedding.refl _) (p := true) env.options _ true).does fun _ => Does.pure _
  · refine .none (stackCounts_eq env.options ?_ henter)
    unfold enter
    split
    · exact absurd rfl (hother _)
    · split
      · exact Does.pure key
      · exact Does.bind (setValid_regular (σ := RelEmbedding.refl _) (p := true) env.options key true).does fun _ => Does.pure key

theorem names_of_stackExtract (h : ParseState.stackExtract (.plain .extract (w :: rest)) = .ok names) :
    (∃ n, w = .stack n ∧ names = [n]) ∨ (∀ n, w ≠ .stack n) ∧ names = [] := by
  cases w with
  | stack n =>
    cases h
    exact .inl ⟨n, rfl, rfl⟩
  | _ =>
    cases h
    exact .inr ⟨by simp, rfl⟩

theorem counted_of_parseOp (hout : (outOfBounds env op).result t = (.ok false, t'))
    (hop : (parseOp env op (.text "") pos).result t' = (.ok r, u)) (hnames : ParseState.stackExtract op = .ok names) :
    Counted env.program names t u := by
  obtain ⟨rfl, hwithin⟩ := outOfBounds_false hout
  have hroom (n : Json) (hn : .stack n ∈ op.stackParts) : ∃ key s, stackOf env.program n = .ok (key, s) ∧
      (t'.tally.stackCounts.getD key 0 : Int) < s.size := by
    obtain ⟨_, key, s, hname, hstack, hle, hlimit⟩ := hwithin _ hn
    cases hname
    exact ⟨key, s, hstack, lt_of_le_of_ne hle hlimit⟩
  have henters {w : Operand} {rest : List Operand} (hw : w.stackParts ⊆ op.stackParts)
      (hnames : ParseState.stackExtract (.plain .extract (w :: rest)) = .ok names)
      (h : ∃ key type name t₁ u₁, extractedType env.program w = .ok (key, type) ∧
        t₁.tally.stackCounts = t'.tally.stackCounts ∧ (enter env w key).result t₁ = (.ok name, u₁) ∧
        u.tally.stackCounts = u₁.tally.stackCounts) : Counted env.program names t' u := by
    obtain ⟨key, type, name, t₁, u₁, htype, hbefore, henter, hafter⟩ := h
    have hcounted := counted_of_enter htype henter (names_of_stackExtract hnames) fun n hn => by
      subst hn
      rw [hbefore]
      exact hroom n (hw mem_cons_self)
    have hall := (hcounted.of_eq_left hbefore).trans (.none hafter)
    rwa [append_nil] at hall
  have hstill (hop' : ∀ values, op ≠ .plain .extract values ∧ op ≠ .plain .extractVL values) (hnil : names = []) :
      Counted env.program names t' u :=
    hnil ▸ .none (stackCounts_eq env.options (parseOp_regular_of_ne (σ := RelEmbedding.refl _) env _ pos hop').does hop)
  cases op with
  | primitive call =>
    cases hnames
    exact hstill (by simp) rfl
  | plain kind values =>
    cases kind with
    | extract =>
      rcases values with _ | ⟨w, _ | ⟨w', rest⟩⟩
      · cases hnames
      · obtain ⟨_, t₁, hrequire, h₁⟩ := result_bind_inv hop
        obtain ⟨-, rfl⟩ := result_require_inv hrequire
        obtain ⟨pos', u₁, hextract, h₂⟩ := result_bind_inv h₁
        cases h₂
        exact henters (by simp [ParseOp.stackParts]) hnames (extractHeader_enters hextract)
      · cases hop
    | extractVL =>
      rcases values with _ | ⟨w, _ | ⟨size, _ | ⟨w', rest⟩⟩⟩
      · cases hnames
      · cases hop
      · obtain ⟨_, t₁, hrequire, h₁⟩ := result_bind_inv hop
        obtain ⟨-, rfl⟩ := result_require_inv hrequire
        exact henters (by simp [ParseOp.stackParts]) hnames (extractVaryingHeader_enters h₁)
      · cases hop
    | _ =>
      cases hnames
      exact hstill (by simp) rfl

/-! ## States -/

theorem counted_of_stateOps (hlabel : e.label = .transition tr) (hparts : ops.mapM ParseState.stackExtract = .ok parts)
    (h : (stateOps env e i (.text "") pos ops).result t = (.ok (.reached pos' fail added), u)) :
    fail = .text "" ∧ Counted env.program parts.flatten t u := by
  induction ops generalizing i pos added parts t with
  | nil =>
    cases hparts
    cases h
    exact ⟨rfl, .none rfl⟩
  | cons op ops ih =>
    rw [mapM_cons] at hparts
    obtain ⟨names, hnames, hparts⟩ := bind_eq_ok.mp hparts
    obtain ⟨rest, hrest, hparts⟩ := bind_eq_ok.mp hparts
    cases hparts
    obtain ⟨out, t₁, hout, h₁⟩ := result_bind_inv h
    have hfail : failAt e i = none := by simp [failAt, hlabel]
    cases out with
    | true =>
      simp [hfail, stackOutOfBounds] at h₁
      cases h₁
    | false =>
      simp only [hfail, Option.isSome_none, Bool.false_and, Option.getD_none, Bool.false_eq_true, if_false] at h₁
      obtain ⟨⟨pos₁, added₁⟩, t₂, hop, h₂⟩ := result_bind_inv h₁
      obtain ⟨r, t₃, hops, h₃⟩ := result_bind_inv h₂
      cases r with
      | impossible => cases h₃
      | reached pos₂ fail₂ more =>
        cases h₃
        obtain ⟨hend, hcounted⟩ := ih hrest hops
        exact ⟨hend, (counted_of_parseOp hout hop hnames).trans hcounted⟩

/-- The numbers for a path through the graph are not ahead of those of a run, and all of them fit. -/
structure Tracks (p : Program) (counts : Dict Label Nat) (t : SymbolicState) : Prop where
  le : ∀ key, counts.getD key 0 ≤ t.tally.stackCounts.getD key 0
  fits : ∀ x ∈ counts.entries, ∃ s, p.stack x.1 = .ok s ∧ (x.2 : Int) ≤ s.size

theorem Tracks.empty (p : Program) (t : SymbolicState) : Tracks p {} t :=
  ⟨fun _ => Nat.zero_le _, by simp⟩

theorem Tracks.mono (h : Tracks p counts t) (hcounted : Counted p names t u) : Tracks p counts u :=
  ⟨fun key => (h.le key).trans (hcounted.le key), h.fits⟩

theorem Counted.tracks (h : Counted p names t u) (htracks : Tracks p counts t) :
    ∃ counts', names.foldlM (fun (counts : Dict Label Nat) name => do
      return counts.alter (← name.key) 0 (· + 1)) counts = (.ok counts' : Except Fault _) ∧ Tracks p counts' u := by
  induction h generalizing counts with
  | none same => exact ⟨counts, rfl, ⟨fun key => by rw [same]; exact htracks.le key, htracks.fits⟩⟩
  | @next name names key s t u v named found room step rest ih =>
    have hnext : Tracks p (counts.alter key 0 (· + 1)) u := by
      have hle := htracks.le key
      constructor
      · intro key'
        rw [step, Dict.alter, Dict.getD_insert, Dict.getD_insert]
        split
        · exact Nat.succ_le_succ hle
        · exact htracks.le key'
      · intro x hx
        rcases Dict.mem_put_eq hx with rfl | hx
        · refine ⟨s, found, ?_⟩
          push_cast
          omega
        · exact htracks.fits x hx
    obtain ⟨counts', hfold, htracks'⟩ := ih hnext
    refine ⟨counts', ?_, htracks'⟩
    rw [foldlM_cons, named]
    exact hfold

theorem tracks_of_arrive (hlabel : e.label = .transition tr) (hparser : env.program.parser = .ok parser)
    (hwell : parser.WellFormed) (htracks : Tracks env.program counts t) {s : ParseState}
    (h : (arrive env parser pos e).result t = (.ok (.onward s pos' fail added), u)) :
    ∃ counts', env.program.countExtracts counts e.src = .ok counts' ∧ Tracks env.program counts' u := by
  obtain ⟨hs, -, -, v, hops, hunder⟩ := arrive_onward h
  obtain ⟨parts, hparts, hextracts⟩ :=
    (hwell.states s (mem_map.mpr ⟨_, Dict.mem_entries_of_get? hs, rfl⟩)).extracts
  have hcounted : Counted env.program parts.flatten t u := by
    have hall := (counted_of_stateOps hlabel hparts hops).2.trans
      (.none (stackCounts_eq env.options (keyUnderflow_regular (σ := RelEmbedding.refl _) s.stackKeys).does hunder))
    rwa [append_nil] at hall
  by_cases hsink : e.src = Transition.sink
  · exact ⟨counts, if_pos hsink, htracks.mono hcounted⟩
  · obtain ⟨counts', hfold, htracks'⟩ := hcounted.tracks htracks
    refine ⟨counts', ?_, htracks'⟩
    have hstate : env.program.parseState e.src = .ok s := by
      simp [Program.parseState, hparser, hs, bind, Except.bind, pure, Except.pure]
    rw [Program.countExtracts, if_neg hsink, hstate, ← hfold, ← hextracts]
    rfl

end Symbolic

end PacketSmith
