import PacketSmith.Console.Tables

/-!
# What dialogs do

`Says` is a dialog that prints, and may look at the catalog, but asks nothing. `Asks` is one
that makes exactly one request: it complains neither before nor after it, so that it has a value
if the switch answers with one. Each step of a dialog has a rule for one of them.
-/

namespace PacketSmith.Console.Dialog

open Dialog

variable {α β : Type} {p : Peer} {c : Catalog}

theorem run_bind (m : Dialog α) (f : α → Dialog β) (t : Terminal) : (m >>= f).run p t = match m.run p t with
    | (.ok a, t') => (f a).run p t'
    | (.error e, t') => (.error e, t') := by
  simp only [run, bind, ReaderT.bind, ReaderT.run, ExceptT.bind, ExceptT.run, ExceptT.mk, ExceptT.bindCont,
    StateT.bind, StateT.run]
  cases m p t with
  | mk result t' => cases result <;> rfl

theorem run_get (t : Terminal) : (get : Dialog Terminal).run p t = (.ok t, t) := rfl

theorem run_modify (f : Terminal → Terminal) (t : Terminal) : (modify f : Dialog Unit).run p t = (.ok (), f t) := rfl

theorem run_read (t : Terminal) : (read : Dialog Peer).run p t = (.ok p, t) := rfl

theorem run_tryCatch (m : Dialog α) (h : Complaint → Dialog α) (t : Terminal) : (tryCatch m h).run p t =
    match m.run p t with
    | (.ok a, t') => (.ok a, t')
    | (.error e, t') => (h e).run p t' := by
  have hbody : (tryCatch m h).run p t = (match m p t with
    | (.ok a, t') => (.ok a, t')
    | (.error e, t') => h e p t') := by
    simp only [run, tryCatch, tryCatchThe, MonadExceptOf.tryCatch, ReaderT.run, ExceptT.run, ExceptT.tryCatch,
      ExceptT.mk, StateT.run, bind, StateT.bind]
    cases m p t with
    | mk result t' => cases result <;> rfl
  exact hbody

theorem run_minded_error (h : m.run p t = (.error e, t')) :
    ∃ e' out, (minded m).run p t = (.error e', { t' with out := out }) := by
  rw [minded, run_tryCatch, h]
  dsimp only
  split
  · exact ⟨_, t'.out, rfl⟩
  · split
    · exact ⟨_, t'.out, rfl⟩
    · exact ⟨_, _, rfl⟩

def Says (p : Peer) (c : Catalog) (m : Dialog α) (a : α) : Prop :=
  ∀ t, t.catalog = c → ∃ out, m.run p t = (.ok a, { t with out := out })

def Asks (p : Peer) (c : Catalog) (m : Dialog α) (r : Request) : Prop :=
  ∀ t, t.catalog = c → ∃ result out,
    m.run p t = (result, { t with requests := r :: t.requests, out := out }) ∧
      ∀ v, p.answer t.requests r = .value v → ∃ a, result = .ok a

/-! ## Steps that print -/

namespace Says

theorem pure (a : α) : Says p c (Pure.pure a) a := fun t _ => ⟨t.out, rfl⟩

theorem bind (hm : Says p c m a) (hf : Says p c (f a) b) : Says p c (m >>= f) b := by
  intro t ht
  obtain ⟨out, hrun⟩ := hm t ht
  obtain ⟨out', hrun'⟩ := hf { t with out := out } ht
  refine ⟨out', ?_⟩
  rw [run_bind, hrun]
  exact hrun'

theorem say (s : String) : Says p c (say s) () := fun t _ => ⟨(s ++ "\n") :: t.out, rfl⟩

variable {params : List String}

theorem part (h : r = .ok x) : Says p c (part r) x := by
  subst h
  exact pure x

theorem told (h : r = .ok x) : Says p c (told r) x := by
  subst h
  exact pure x

theorem atLeast (h : n ≤ args.length) : Says p c (atLeast args n) () := by
  rw [Dialog.atLeast, if_neg (by omega)]
  exact pure ()

theorem argument (h : args[i]? = some s) : Says p c (argument args i) s := by
  rw [Dialog.argument, h]
  exact pure s

theorem catalog : Says p c catalog c := by
  rintro t rfl
  exact ⟨t.out, rfl⟩

theorem table (h : c.table? name = some t) : Says p c (table name) t := by
  refine bind catalog ?_
  rw [h]
  exact pure t

theorem tableAction {action : String} (h : c.actionAmong? t.actions action = some a) :
    Says p c (tableAction t name action) a := by
  refine bind catalog ?_
  rw [h]
  exact pure a

theorem actionData {called : String} (hlength : params.length = a.params.length)
    (h : a.data params = .ok data) : Says p c (actionData a called params) data := by
  have hbody : Dialog.actionData a called params = Dialog.told (a.data params) := by
    rw [Dialog.actionData]
    simp [hlength]
  rw [hbody]
  exact told h

theorem splitPriority (hlast : Text.int? last = some n) :
    Says p c (splitPriority t (args ++ if t.kind.hasPriority then [last] else [])) (args,
      if t.kind.hasPriority then n else 0) := by
  unfold Dialog.splitPriority
  cases t.kind.hasPriority with
  | false => simpa using pure (args, (0 : Int))
  | true => simpa [hlast] using pure (args, n)

theorem arrow {first second : String} {fields : List String} (h : "=>" ∉ fields) :
    Says p c (arrow 2 (first :: second :: (fields ++ "=>" :: params))) (2 + fields.length) := by
  have hbefore : (fields ++ "=>" :: params).takeWhile (· != "=>") = fields := by
    rw [List.takeWhile_append_of_pos]
    · simp
    · intro s hs
      simpa using fun heq : s = "=>" => h (heq ▸ hs)
  have hbody : Dialog.arrow 2 (first :: second :: (fields ++ "=>" :: params)) = Pure.pure (2 + fields.length) := by
    simp [Dialog.arrow, hbefore]
  rw [hbody]
  exact pure _

theorem sayAction (action : String) (data : List (List UInt8)) : Says p c (sayAction action data) () :=
  bind (say _) (say _)

end Says

/-! ## Steps that ask -/

namespace Asks

theorem request (name : String) (args : List Argument) : Asks p c (request name args) (.first name args) := by
  intro t _
  cases hanswer : p.answer t.requests (.first name args) with
  | value v =>
    refine ⟨.ok v, t.out, ?_, fun _ _ => ⟨v, rfl⟩⟩
    simp only [Dialog.request, Dialog.ask, run_bind, run_get, run_modify, run_read, hanswer]
    rfl
  | refusal o code =>
    refine ⟨.error (.refused o code), t.out, ?_, by simp⟩
    simp only [Dialog.request, Dialog.ask, run_bind, run_get, run_modify, run_read, hanswer]
    rfl

theorem after (hm : Says p c m a) (hf : Asks p c (f a) r) : Asks p c (m >>= f) r := by
  intro t ht
  obtain ⟨out, hrun⟩ := hm t ht
  obtain ⟨result, out', hrun', hanswer⟩ := hf { t with out := out } ht
  refine ⟨result, out', ?_, hanswer⟩
  rw [run_bind, hrun]
  exact hrun'

theorem before (hm : Asks p c m r) (hf : ∀ a, ∃ b, Says p c (f a) b) : Asks p c (m >>= f) r := by
  intro t ht
  obtain ⟨result, out, hrun, hanswer⟩ := hm t ht
  cases result with
  | error e =>
    refine ⟨.error e, out, ?_, ?_⟩
    · rw [run_bind, hrun]
    · intro v hv
      obtain ⟨a, ha⟩ := hanswer v hv
      cases ha
  | ok a =>
    obtain ⟨b, hb⟩ := hf a
    obtain ⟨out', hrun'⟩ := hb { t with requests := r :: t.requests, out := out } ht
    refine ⟨.ok b, out', ?_, fun _ _ => ⟨b, rfl⟩⟩
    rw [run_bind, hrun]
    exact hrun'

theorem minded (hm : Asks p c m r) : Asks p c (minded m) r := by
  intro t ht
  obtain ⟨result, out, hrun, hanswer⟩ := hm t ht
  cases result with
  | ok a =>
    refine ⟨.ok a, out, ?_, fun _ _ => ⟨a, rfl⟩⟩
    rw [Dialog.minded, run_tryCatch, hrun]
  | error e =>
    obtain ⟨e', out', hrun'⟩ := run_minded_error hrun
    refine ⟨.error e', out', hrun', ?_⟩
    intro v hv
    obtain ⟨a, ha⟩ := hanswer v hv
    cases ha

theorem discard (hm : Asks p c m r) : Asks p c (Functor.discard m) r := by
  exact before hm fun _ => ⟨_, Says.pure _⟩

theorem order (name : String) (args : List Argument) : Asks p c (order name args) (.first name args) :=
  before (request name args) fun _ => ⟨.null, Says.pure _⟩

end Asks

end PacketSmith.Console.Dialog
