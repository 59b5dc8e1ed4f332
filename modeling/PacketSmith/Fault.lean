import PacketSmith.Json.Display

/-!
# Faults

Why a step of the library fails. `Fault.kind` sorts the causes, and `Fault.message` words those that carry a message.
A key that is a text is its own message.
-/

namespace PacketSmith

inductive FaultKind where
  | missingKey
  | wrongKind
  | badValue
  | noPart
  | outOfRange
  | violation
  | failure
  | sortMismatch
  | noWidth
  | overflow
  | endless
  | unset
  | exit
  | fileMissing
  | fileExists
  | packing
  | unreadable
deriving DecidableEq, Repr

inductive Fault where
  | missing (key : Label)
  | missingPair
  | wrongKind
  | malformed
  | noPart
  | outOfRange
  | violated
  | refuted (text : String)
  | overflow
  | sortMismatch
  | noWidth
  | endless
  | unset
  | fileMissing
  | fileExists
  | packing
  | unreadable
  | unreachable
  | exit (code : Nat)
  | lacking (owner part : String)
  | lackingFields
  | unexpectedOp (shown : String)
  | unknownType (shown : String)
  | repeatedAction (action table : Label)
  | straySuccessors (table : Label)
  | keylessEntries (table : Label) (count : Nat)
  | priorityGap (priority previous : Int)
  | unknownOperator (shown : String)
  | unknownExpression (shown : String)
  | unsupported (text : String)
deriving DecidableEq

namespace Fault

def kind : Fault → FaultKind
  | missing _ | missingPair => .missingKey
  | wrongKind => .wrongKind
  | noPart => .noPart
  | outOfRange => .outOfRange
  | violated | refuted _ => .violation
  | overflow => .overflow
  | sortMismatch => .sortMismatch
  | noWidth => .noWidth
  | endless => .endless
  | unset => .unset
  | fileMissing => .fileMissing
  | fileExists => .fileExists
  | packing => .packing
  | unreadable => .unreadable
  | exit _ => .exit
  | unexpectedOp _ | unknownType _ | unsupported _ | unreachable => .failure
  | malformed | lacking _ _ | lackingFields | repeatedAction _ _ | straySuccessors _ => .badValue
  | keylessEntries _ _ | priorityGap _ _ | unknownOperator _ | unknownExpression _ => .badValue

def message : Fault → Option String
  | missing (.text s) => some s
  | refuted text => some text
  | exit code => some (toString code)
  | lacking owner part => some s!"Missing {owner} {part} value"
  | lackingFields => some "Missing fields value in header type"
  | unexpectedOp shown => some s!"Unexpected op: {shown}"
  | unknownType shown => some s!"{shown} not supported"
  | repeatedAction action table =>
    some ("('Same action name %s appears twice for table %s', " ++ action.inner ++ ", " ++
      table.inner ++ ")")
  | straySuccessors table =>
    some ("Table '" ++ table.display ++ "' has set of keys for 'next_tables' that is neither " ++
      "\x7b'__HIT__', '__MISS__'\x7d nor")
  | keylessEntries table count =>
    some ("Table '" ++ table.display ++ "' has 0 key fields, but " ++ toString count ++
      " const entries.  This seems like it should be impossible.")
  | priorityGap priority previous =>
    some s!"Expected const entry '<object>' with priority {priority} to be one more than prev const entry '<object>' but it has priority {previous}"
  | unknownOperator shown => some ("Unknown epxression op '" ++ shown ++ "'")
  | unknownExpression shown => some ("Unknown epxression type '" ++ shown ++ "'")
  | unsupported text => some text
  | _ => none

end Fault

def require {m : Type → Type} [Monad m] [MonadExceptOf Fault m] (p : Bool) (fault : Fault := .violated) :
    m Unit :=
  if p then pure () else throw fault

theorem bind_eq_ok {ε α β : Type} {m : Except ε α} {f : α → Except ε β} {b : β} :
    (m >>= f) = .ok b ↔ ∃ a, m = .ok a ∧ f a = .ok b := by
  cases m <;> simp [bind, Except.bind]

theorem pure_eq_ok {ε α : Type} {a b : α} : (pure a : Except ε α) = .ok b ↔ b = a := by
  constructor
  · intro h
    cases h
    rfl
  · intro h
    rw [h]
    rfl

/-- What comes after a condition gives a result if the condition holds. -/
theorem require_bind_eq_ok {α : Type} {b : Bool} {f : Fault} {m : Unit → Except Fault α} {a : α} :
    (require b f >>= m) = .ok a ↔ b = true ∧ m () = .ok a := by
  cases b <;> simp [require, throw, throwThe, MonadExceptOf.throw, bind, Except.bind, pure, Except.pure]

theorem foldlM_keeps_of_mem {ε β γ : Type} {P : β → Prop} {f : β → γ → Except ε β} {cs : List γ}
    (hf : ∀ c ∈ cs, ∀ b b', P b → f b c = .ok b' → P b') {b b' : β} (hb : P b) (h : cs.foldlM f b = .ok b') : P b' := by
  induction cs generalizing b with
  | nil =>
    cases h
    exact hb
  | cons c cs ih =>
    rw [List.foldlM_cons] at h
    obtain ⟨d, hd, h⟩ := bind_eq_ok.mp h
    obtain ⟨hfirst, hrest⟩ := List.forall_mem_cons.mp hf
    exact ih hrest (hfirst b d hb hd) h

theorem foldlM_keeps {ε β γ : Type} {P : β → Prop} {f : β → γ → Except ε β}
    (hf : ∀ b c b', P b → f b c = .ok b' → P b') {cs : List γ} {b b' : β} (hb : P b)
    (h : cs.foldlM f b = .ok b') : P b' :=
  foldlM_keeps_of_mem (fun c _ b b' => hf b c b') hb h

theorem mem_mapM {ε α β : Type} {f : α → Except ε β} {as : List α} {bs : List β}
    (h : as.mapM f = .ok bs) {a : α} (ha : a ∈ as) : ∃ b ∈ bs, f a = .ok b := by
  induction as generalizing bs with
  | nil => cases ha
  | cons a' as ih =>
    rw [List.mapM_cons] at h
    obtain ⟨b, hb, h⟩ := bind_eq_ok.mp h
    obtain ⟨bs', hbs, h⟩ := bind_eq_ok.mp h
    cases h
    rcases List.mem_cons.mp ha with rfl | ha
    · exact ⟨b, List.mem_cons_self, hb⟩
    · obtain ⟨c, hc, hfc⟩ := ih hbs ha
      exact ⟨c, List.mem_cons_of_mem _ hc, hfc⟩

theorem mem_of_mapM {ε α β : Type} {f : α → Except ε β} {as : List α} {bs : List β}
    (h : as.mapM f = .ok bs) : ∀ b ∈ bs, ∃ a ∈ as, f a = .ok b := by
  induction as generalizing bs with
  | nil =>
    cases h
    simp
  | cons a as ih =>
    rw [List.mapM_cons] at h
    obtain ⟨b, hb, h⟩ := bind_eq_ok.mp h
    obtain ⟨rest, hrest, h⟩ := bind_eq_ok.mp h
    cases h
    intro b' hb'
    rcases List.mem_cons.mp hb' with rfl | hb'
    · exact ⟨a, List.mem_cons_self, hb⟩
    · obtain ⟨a', ha', hf⟩ := ih hrest b' hb'
      exact ⟨a', List.mem_cons_of_mem _ ha', hf⟩

theorem mapM_of_forall {ε α β : Type} {f : α → Except ε β} {Q : β → Prop} {as : List α}
    (h : ∀ a ∈ as, ∃ b, f a = .ok b ∧ Q b) : ∃ bs, as.mapM f = .ok bs ∧ ∀ b ∈ bs, Q b := by
  induction as with
  | nil => exact ⟨[], rfl, by simp⟩
  | cons a as ih =>
    obtain ⟨b, hb, hQ⟩ := h a List.mem_cons_self
    obtain ⟨bs, hbs, hQs⟩ := ih fun a ha => h a (List.mem_cons_of_mem _ ha)
    refine ⟨b :: bs, ?_, List.forall_mem_cons.mpr ⟨hQ, hQs⟩⟩
    rw [List.mapM_cons, hb, hbs]
    rfl

theorem exists_mapM_eq_ok {ε α β : Type} {f : α → Except ε β} {as : List α} (h : ∀ a ∈ as, ∃ b, f a = .ok b) :
    ∃ bs, as.mapM f = .ok bs := by
  obtain ⟨bs, hbs, -⟩ := mapM_of_forall (Q := fun _ => True) fun a ha => (h a ha).imp fun b hb => ⟨hb, trivial⟩
  exact ⟨bs, hbs⟩

theorem map_of_mapM {ε α β γ : Type} {f : α → Except ε β} {g : β → γ} {h : α → γ}
    (hf : ∀ a b, f a = .ok b → g b = h a) {as : List α} {bs : List β} (hok : as.mapM f = .ok bs) :
    bs.map g = as.map h := by
  induction as generalizing bs with
  | nil =>
    cases hok
    rfl
  | cons a as ih =>
    rw [List.mapM_cons] at hok
    obtain ⟨b, hb, hok⟩ := bind_eq_ok.mp hok
    obtain ⟨bs', hbs, hok⟩ := bind_eq_ok.mp hok
    cases hok
    rw [List.map_cons, List.map_cons, hf a b hb, ih hbs]

theorem mapM_eq_ok_iff {ε α β : Type} {f : α → Except ε β} {P : α → Prop} {g : α → β}
    (hf : ∀ a b, f a = .ok b ↔ P a ∧ b = g a) {as : List α} {bs : List β} :
    as.mapM f = .ok bs ↔ (∀ a ∈ as, P a) ∧ bs = as.map g := by
  induction as generalizing bs with
  | nil => simp [pure, Except.pure, eq_comm]
  | cons a as ih =>
    rw [List.mapM_cons, bind_eq_ok]
    constructor
    · rintro ⟨b, hb, h⟩
      obtain ⟨bs', hbs, h⟩ := bind_eq_ok.mp h
      cases h
      obtain ⟨ha, rfl⟩ := (hf a b).mp hb
      obtain ⟨has, rfl⟩ := ih.mp hbs
      exact ⟨List.forall_mem_cons.mpr ⟨ha, has⟩, rfl⟩
    · rintro ⟨h, rfl⟩
      obtain ⟨ha, has⟩ := List.forall_mem_cons.mp h
      refine ⟨g a, (hf a _).mpr ⟨ha, rfl⟩, ?_⟩
      exact bind_eq_ok.mpr ⟨as.map g, ih.mpr ⟨has, rfl⟩, rfl⟩

end PacketSmith
