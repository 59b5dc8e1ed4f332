import PacketSmith.Program.PathItem

/-!
# Edges as keys

Edges are compared by what they are: a transition by its parts, an action by its number, a branch by its value and its
place, and edges of other kinds by identity (`Kin`). Comparing two edges says whether they are of a kin, and is fit for
the keys of a dictionary, where none of them is taken for one of another kind or cannot be compared with it (`Fit`).
-/

namespace PacketSmith.PathItem

/-- What an edge is compared by. -/
inductive Kin where
  | transition (t : Transition)
  | composite (id : Nat)
  | error (id : Nat)
  | action (number : Int)
  | branch (value : Bool) (source : Option SourceInfo)
  | noop
deriving DecidableEq

def kin? : PathItem → Option Kin
  | transition _ _ t => some (.transition t)
  | composite id _ _ _ => some (.composite id)
  | error id _ _ _ => some (.error id)
  | action _ _ _ number => some (.action number)
  | branch _ _ v source => some (.branch v source)
  | noop _ _ => some .noop
  | _ => none

/-- The names that an action must have to be taken for an edge of another kind. -/
def names : PathItem → List String
  | action _ _ _ _ => []
  | noop _ _ => ["'No-Op'", "No-Op"]
  | branch _ _ v (some s) =>
    [Edge.displayBranch v (some s), (pair (branchParts v s).1 (some (branchParts v s).2)).display]
  | a => [a.display]

/-- Edges that can be compared with each other. -/
structure Fit (E : PathItem → Prop) : Prop where
  edge : ∀ a, E a → a.kin? ≠ none
  object : ∀ a b, E a → E b → a.identical b = true → a = b
  composite : ∀ i src dst parts, E (.composite i src dst parts) → ∀ src dst t, ¬E (.transition src dst t)
  unplaced : ∀ src dst v, E (.branch src dst v none) → ∀ b, E b → ∃ src dst v source, b = .branch src dst v source
  column : ∀ src dst v s, E (.branch src dst v (some s)) → s.column ≠ .null
  number : ∀ src dst name n src' dst' name', E (.action src dst name n) → E (.action src' dst' name' n) → name = name'
  name : ∀ src dst name n, E (.action src dst name n) → ∀ b, E b → ∀ text ∈ b.names, name ≠ .text text

variable {E : PathItem → Prop}

theorem samePlace_eq (hs : ∀ p ∈ s, SourceInfo.column p ≠ .null) (ht : ∀ p ∈ t, SourceInfo.column p ≠ .null) :
    samePlace s t = decide (s = t) := by
  rcases s with _ | ⟨file, line, fragment, column⟩ <;> rcases t with _ | ⟨file', line', fragment', column'⟩
  · rfl
  · rfl
  · rfl
  · simp only [Option.mem_some_iff, forall_eq', ne_eq] at hs ht
    grind [samePlace, SourceInfo.same]

/-- The edges that have a rule for all others. -/
def isJudge : PathItem → Bool
  | transition _ _ _ | action _ _ _ _ | branch _ _ _ _ | noop _ _ => true
  | _ => false

theorem Fit.rule_eq (h : Fit E) (ha : E a) (hb : E b) (hjudge : a.isJudge = true) :
    a.rule b = .ok (some (decide (a.kin? = b.kin?))) := by
  have hkb := h.edge b hb
  cases a with
  | transition src dst t => cases b <;> simp [rule, kin?] <;> rfl
  | action src dst name n =>
    have hname := h.name src dst name n ha b hb
    cases b with
    | action => simp [rule, kin?] <;> rfl
    | branch src' dst' v source => cases source <;> simp_all [rule, kin?, names, display]
    | _ => simp_all [rule, kin?, names, display]
  | branch src dst v source =>
    cases source with
    | none =>
      obtain ⟨src', dst', v', source', rfl⟩ := h.unplaced src dst v ha b hb
      cases source' <;> simp [rule, kin?, samePlace] <;> rfl
    | some s =>
      cases b with
      | branch src' dst' v' source' =>
        have hsame := samePlace_eq (s := some s) (t := source') (by simpa using h.column _ _ _ _ ha) (by
          rintro s' rfl
          exact h.column _ _ _ _ hb)
        simp [rule, kin?, hsame, Bool.beq_eq_decide_eq]
      | action src' dst' name n =>
        have hname := h.name _ _ _ _ hb _ ha
        simp [names] at hname
        simp [rule, kin?, pairEqual, hname]
      | _ => simp_all [rule, kin?, pairEqual]
  | noop src dst =>
    cases b with
    | action src' dst' name n =>
      have hname := h.name _ _ _ _ hb _ ha
      simp [names] at hname
      simp [rule, kin?, isNoop, hname]
    | _ => simp_all [rule, kin?, isNoop]
  | _ => cases hjudge

/-- The other edges are objects, and have a rule for themselves alone. -/
theorem Fit.rule_object (h : Fit E) (ha : E a) (hb : E b) (hobject : a.isJudge = false) :
    a.rule b = .ok (if a.identical b then some true else none) := by
  have hka := h.edge a ha
  cases a with
  | composite id src dst parts =>
    cases b with
    | transition src' dst' t => exact absurd hb (h.composite _ _ _ _ ha _ _ _)
    | _ => rfl
  | error id src dst e => rfl
  | _ => simp_all [isJudge, kin?]

theorem Fit.identical_eq (h : Fit E) (ha : E a) (hobject : a.isJudge = false) :
    a.identical b = decide (a.kin? = b.kin?) := by
  have hka := h.edge a ha
  cases a <;> simp_all [isJudge, kin?] <;> cases b <;> simp [identical] <;> rfl

theorem Fit.equal_eq (h : Fit E) (ha : E a) (hb : E b) : a.equal b = .ok (decide (a.kin? = b.kin?)) := by
  have hka := h.edge a ha
  have hplain : a.isPlain = false := by cases a <;> simp_all [isPlain, kin?]
  cases hjudge : a.isJudge with
  | true => simp [equal, hplain, h.rule_eq ha hb hjudge, bind, Except.bind, pure, Except.pure]
  | false =>
    have hsame := h.identical_eq (b := b) ha hjudge
    have hrule := h.rule_object ha hb hjudge
    by_cases hkin : a.kin? = b.kin?
    · simp [equal, hplain, hrule, hsame, hkin, bind, Except.bind, pure, Except.pure]
    · have hback : b.rule a = .ok none ∨ b.rule a = .ok (some false) := by
        cases hjudge' : b.isJudge with
        | true => simp [h.rule_eq hb ha hjudge', Ne.symm hkin]
        | false => simp [h.rule_object hb ha hjudge', h.identical_eq hb hjudge', Ne.symm hkin]
      rcases hback with hback | hback <;>
        simp [equal, hplain, hrule, hback, hsame, hkin, bind, Except.bind, pure, Except.pure]

theorem Fit.digest_eq (h : Fit E) (ha : E a) (hb : E b) (heq : a.kin? = b.kin?) : a.digest = b.digest := by
  have hka := h.edge a ha
  cases a with
  | composite id src dst parts =>
    cases b <;> simp [kin?] at heq
    rw [h.object _ _ ha hb (by simp [identical, heq])]
  | action src dst name n =>
    cases b <;> simp [kin?] at heq
    subst heq
    rw [digest, digest, h.number _ _ _ _ _ _ _ ha hb]
  | _ => cases b <;> simp_all [kin?, digest]

/-- Edges that are fit for each other can be compared, comparing them is an equivalence, and equal ones are hashed
alike. -/
theorem equal_fit (h : Fit E) : (∀ a b, E a → E b → ∃ r, a.equal b = .ok r) ∧
    Equivalence (fun a b : { a // E a } => a.1.equal b.1 = .ok true) ∧
    ∀ a b, E a → E b → a.equal b = .ok true → a.digest = b.digest := by
  refine ⟨fun a b ha hb => ⟨_, h.equal_eq ha hb⟩, ⟨fun a => ?_, fun {a b} hab => ?_, fun {a b c} hab hbc => ?_⟩,
    fun a b ha hb heq => h.digest_eq ha hb ?_⟩
  · simp [h.equal_eq a.2 a.2]
  · simp_all [h.equal_eq a.2 b.2, h.equal_eq b.2 a.2]
  · simp_all [h.equal_eq a.2 b.2, h.equal_eq b.2 c.2, h.equal_eq a.2 c.2]
  · simpa [h.equal_eq ha hb] using heq

/-- An action, a placed branch and an empty pipeline are keys together. -/
theorem equal_fit_pipeline : Equivalence fun a b : { a // a ∈ [.action "t" "d" "act" 1,
    .branch "c" "d" true (some ⟨"f.p4", "a == b", .int 7, .int 5⟩), .noop "a" "b"] } => equal a.1 b.1 = .ok true := by
  refine (equal_fit ⟨by simp [kin?], ?_, by simp, by simp, ?_, ?_, fun _ _ _ _ ha => ?_⟩).2.1
  · simp +contextual [or_imp, identical]
  · simp +contextual
  · simp +contextual
  · simp only [List.mem_cons, List.not_mem_nil, action.injEq, reduceCtorEq, or_false] at ha
    obtain ⟨rfl, rfl, rfl, rfl⟩ := ha
    simp only [List.forall_mem_cons, names]
    decide

/-- A composite is not compared with a transition, and a branch without a place not with an action. -/
theorem equal_fails : equal (.composite 0 "a" "b" [default]) (.transition "a" "b" default) = .error .noPart ∧
    equal (.branch "c" "d" true none) (.action "t" "d" "act" 1) = .error .wrongKind := by
  constructor <;> rfl

end PacketSmith.PathItem
