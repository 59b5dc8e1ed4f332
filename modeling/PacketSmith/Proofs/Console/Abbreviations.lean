import PacketSmith.Console.Command
import PacketSmith.Proofs.Console.Conversing
import PacketSmith.Proofs.Console.Texts

/-!
# Abbreviated names

A suffix that stands for a resource is an ending of its name at a point, and then the full name stands for it too
(`Catalog.resolve_full`). What a command asks the switch is about the resource that it looked up, so two lines that
differ only in how they name it make the same requests (`Command.requests_abbreviated`). The commands on value sets,
and the one that writes a counter, ask with the name as it was typed (`Command.requests_as_typed`).
-/

namespace PacketSmith

open List Text

namespace Console

namespace Catalog

theorem endings_append (as : List String) (h : s ∈ endings bs) : s ∈ endings (as ++ bs) := by
  induction as with
  | nil => exact h
  | cons a as ih => exact mem_cons_of_mem _ ih

theorem of_mem_endings (h : s ∈ endings parts) :
    s = ".".intercalate parts ∨ ∃ a, ".".intercalate parts = a ++ "." ++ s := by
  induction parts with
  | nil => cases h
  | cons part rest ih =>
    rcases mem_cons.mp h with rfl | h
    · exact .inl rfl
    · cases rest with
      | nil => cases h
      | cons next rest =>
        right
        rw [String.intercalate_cons_cons]
        rcases ih h with rfl | ⟨a, ha⟩
        · exact ⟨part, rfl⟩
        · exact ⟨part ++ "." ++ a, by rw [ha]; simp [String.append_assoc]⟩

theorem mem_suffixes_self (s : String) : s ∈ suffixes s := by
  rw [suffixes]
  cases hparts : split "." s with
  | nil => rw [split_char rfl] at hparts; simp at hparts
  | cons part rest => rw [endings, ← hparts, intercalate_split rfl]; exact mem_cons_self

def EndsIn (name suffix : String) : Prop := name = suffix ∨ ∃ front, name = front ++ "." ++ suffix

theorem mem_suffixes_iff : s ∈ suffixes name ↔ EndsIn name s := by
  constructor
  · intro h
    have hending := of_mem_endings h
    rw [intercalate_split rfl] at hending
    exact hending.imp Eq.symm id
  · rintro (rfl | ⟨front, rfl⟩)
    · exact mem_suffixes_self name
    · rw [suffixes, split_append rfl]
      exact endings_append _ (mem_suffixes_self s)

theorem mem_suffixes_trans (hab : a ∈ suffixes b) (hbc : b ∈ suffixes c) : a ∈ suffixes c := by
  rcases mem_suffixes_iff.mp hbc with rfl | ⟨u, rfl⟩
  · exact hab
  · rw [suffixes, split_append rfl]
    exact endings_append _ hab

theorem nodup_endings (parts : List String) : (endings parts).Nodup := by
  induction parts with
  | nil => exact nodup_nil
  | cons part rest ih =>
    refine nodup_cons.mpr ⟨fun h => ?_, ih⟩
    -- an ending of the rest is shorter than the whole
    have hshorter : (".".intercalate (part :: rest)).length ≤ (".".intercalate rest).length := by
      rcases of_mem_endings h with heq | ⟨a, ha⟩
      · rw [heq]
      · rw [ha]
        simp
    cases rest with
    | nil => cases h
    | cons next rest =>
      simp at hshorter

theorem nodup_suffixes (name : String) : (suffixes name).Nodup := nodup_endings _

theorem resolveAmong_eq_some_iff {names : List String} :
    resolveAmong names suffix = some full ↔ (names.filter fun n => (suffixes n).contains suffix) = [full] := by
  have hfilter : ((occurrences names).filter fun o => o.1 == suffix) =
      (names.filter fun n => (suffixes n).contains suffix).map fun n => (suffix, n) := by
    induction names with
    | nil => rfl
    | cons n names ih =>
      rw [occurrences, flatMap_cons, filter_append, filter_map, Function.comp_def]
      change _ ++ (occurrences names).filter _ = _
      rw [ih, filter_beq, (nodup_suffixes n).count]
      by_cases hn : suffix ∈ suffixes n <;> simp [hn]
  rw [resolveAmong, hfilter]
  rcases names.filter fun n => (suffixes n).contains suffix with _ | ⟨n, _ | ⟨n', ns⟩⟩ <;> simp

theorem resolve_full {c : Catalog} {suffix full : String}
    (h : c.resolve kind suffix = some full) : c.resolve kind full = some full := by
  unfold resolve at h ⊢
  split at h
  · next hcomplete =>
    rw [if_pos hcomplete]
    rw [resolveAmong_eq_some_iff] at h ⊢
    -- a name that ends in the full name ends in the suffix
    have hsuffix : suffix ∈ suffixes full := by
      have hmem : full ∈ (c.names kind).filter fun n => (suffixes n).contains suffix := h ▸ mem_singleton_self full
      simpa using (mem_filter.mp hmem).2
    have hfilter : ((c.names kind).filter fun n => (suffixes n).contains full) =
        ((c.names kind).filter fun n => (suffixes n).contains suffix).filter fun n => (suffixes n).contains full := by
      rw [filter_filter]
      refine filter_congr fun n _ => ?_
      simpa using mem_suffixes_trans hsuffix
    rw [hfilter, h]
    simp [mem_suffixes_self]
  · cases h

end Catalog

/-! ## Requests of two dialogs -/

namespace Dialog

variable {α β : Type} {p : Peer} {c : Catalog}

def Alike (p : Peer) (m m' : Dialog α) : Prop := ∀ t, (m.run p t).2.requests = (m'.run p t).2.requests

def AlikeIn (p : Peer) (c : Catalog) (m m' : Dialog α) : Prop :=
  ∀ t, t.catalog = c → (m.run p t).2.requests = (m'.run p t).2.requests

/-- What a dialog does, apart from what it prints, does not depend on what was printed before. -/
def Blind (p : Peer) (m : Dialog α) : Prop :=
  ∀ t out, ∃ out', m.run p { t with out := out } = ((m.run p t).1, { (m.run p t).2 with out := out' })

namespace Blind

theorem pure (a : α) : Blind p (Pure.pure a) := fun _ out => ⟨out, rfl⟩

theorem say (s : String) : Blind p (say s) := fun _ out => ⟨(s ++ "\n") :: out, rfl⟩

theorem bind (hm : Blind p m) (hf : ∀ a, Blind p (f a)) : Blind p (m >>= f) := by
  intro t out
  obtain ⟨out', hrun⟩ := hm t out
  rw [run_bind, run_bind, hrun]
  cases m.run p t with
  | mk result t' =>
    cases result with
    | error e => exact ⟨out', rfl⟩
    | ok a => exact hf a t' out'

theorem request (name : String) (args : List Argument) : Blind p (Dialog.request name args) := by
  intro t out
  refine ⟨out, ?_⟩
  simp only [Dialog.request, Dialog.ask, run_bind, run_get, run_modify, run_read]
  cases p.answer t.requests (.first name args) <;> rfl

theorem order (name : String) (args : List Argument) : Blind p (order name args) :=
  bind (request name args) fun _ => pure _

theorem sayAction (action : String) (data : List (List UInt8)) : Blind p (sayAction action data) :=
  bind (say _) fun _ => say _

end Blind

namespace Alike

theorem refl (m : Dialog α) : Alike p m m := fun _ => rfl

theorem bind (m : Dialog α) (h : ∀ a, Alike p (f a) (f' a)) : Alike p (m >>= f) (m >>= f') := by
  intro t
  rw [run_bind, run_bind]
  split
  · exact h _ _
  · rfl

theorem refuse : Alike p (refuse s >>= f) (refuse s' >>= f') :=
  fun _ => rfl

theorem ite [Decidable b] (h : Alike p m m') (h' : Alike p n n') :
    Alike p (if b then m else n) (if b then m' else n') := by
  split
  · exact h
  · exact h'

theorem say (s s' : String) (h : Blind p m) : Alike p (say s >>= fun _ => m) (say s' >>= fun _ => m) := by
  intro t
  obtain ⟨out, hrun⟩ := h t ((s ++ "\n") :: t.out)
  obtain ⟨out', hrun'⟩ := h t ((s' ++ "\n") :: t.out)
  calc ((Dialog.say s >>= fun _ => m).run p t).2.requests
    _ = (m.run p { t with out := (s ++ "\n") :: t.out }).2.requests := rfl
    _ = (m.run p { t with out := (s' ++ "\n") :: t.out }).2.requests := by rw [hrun, hrun']

end Alike

def lookUp (find : Catalog → Option α) (e : Complaint) : Dialog α := do
  match find (← catalog) with
  | some a => return a
  | none => throw e

theorem run_lookUp (find : Catalog → Option α) (e : Complaint) (t : Terminal) :
    (lookUp find e).run p t = (match find t.catalog with
      | some a => .ok a
      | none => .error e, t) := by
  have hrun : (lookUp find e).run p t = (match find t.catalog with
      | some a => Pure.pure a
      | none => throw e : Dialog α).run p t := rfl
  rw [hrun]
  cases find t.catalog <;> rfl

theorem Alike.lookUp (find : Catalog → Option α) (e e' : Complaint) (h : ∀ a, Alike p (f a) (f' a)) :
    Alike p (lookUp find e >>= f) (lookUp find e' >>= f') := by
  intro t
  rw [run_bind, run_bind, run_lookUp, run_lookUp]
  cases find t.catalog with
  | some a => exact h a t
  | none => rfl

theorem tableAction_eq (t : TableInfo) (s action : String) :
    tableAction t s action = lookUp
      (fun c => c.actionAmong? t.actions action) (.input s!"Table {s} has no action {action}") :=
  bind_congr fun c => by dsimp only; cases c.actionAmong? t.actions action <;> rfl

theorem profileAction_eq (a : ProfileInfo) (s action : String) :
    profileAction a s action = lookUp (fun c => c.actionAmong? a.actions action)
      (.input ("Action profile '" ++ s ++ "' has no action '" ++ action ++ "'")) :=
  bind_congr fun c => by dsimp only; cases c.actionAmong? a.actions action <;> rfl

namespace AlikeIn

variable {f f' : α → Dialog β}

theorem minded {m' : Dialog α} (h : AlikeIn p c m m') : AlikeIn p c (minded m) (minded m') := by
  have hrequests (m : Dialog α) (t : Terminal) : ((Dialog.minded m).run p t).2.requests = (m.run p t).2.requests := by
    cases hrun : m.run p t with
    | mk result t' =>
      cases result with
      | ok a => rw [Dialog.minded, run_tryCatch, hrun]
      | error e =>
        obtain ⟨e', out, hreport⟩ := run_minded_error hrun
        rw [hreport]
  intro t ht
  rw [hrequests, hrequests]
  exact h t ht

theorem resource {g : Catalog → String → Option α} (hsame : c.resolve kind s = c.resolve kind full)
    (h : ∀ a, (c.resolve kind s).bind (g c) = some a → Alike p (f a) (f' a)) :
    AlikeIn p c (resource (fun c s => (c.resolve kind s).bind (g c)) kind' s
      >>= f) (resource (fun c s => (c.resolve kind s).bind (g c)) kind' full >>= f') := by
  have hlookUp (s : String) : Dialog.resource (fun c s => (c.resolve kind s).bind (g c)) kind' s =
      lookUp (fun c => (c.resolve kind s).bind (g c)) (.resource kind'.noun s) := rfl
  intro t ht
  rw [run_bind, run_bind, hlookUp, hlookUp, run_lookUp, run_lookUp, ht, ← hsame]
  cases hfound : (c.resolve kind s).bind (g c) with
  | some a => exact h a hfound t
  | none => rfl

theorem quiet (hm : ∀ t, (m.run p t).2 = t) (h : ∀ a, AlikeIn p c (f a) (f' a)) : AlikeIn p c (m >>= f) (m >>= f') := by
  intro t ht
  have hsame := hm t
  rw [run_bind, run_bind]
  cases hrun : m.run p t with
  | mk result t' =>
    rw [hrun] at hsame
    obtain rfl : t' = t := hsame
    cases result with
    | ok a => exact h a t' ht
    | error e => rfl

variable {g : Catalog → String → Option α}

theorem argument (i : Nat) {f f' : String → Dialog β} (h : ∀ a, AlikeIn p c (f a) (f' a)) :
    AlikeIn p c (argument (s :: rest) (i + 1) >>= f) (argument (full :: rest) (i + 1) >>= f') := by
  refine quiet (fun t => ?_) h
  unfold Dialog.argument
  split <;> rfl

theorem exactly (h : AlikeIn p c m m') : AlikeIn p c (Dialog.minded (Dialog.exactly (s :: rest) n >>= fun _ => m))
    (Dialog.minded (Dialog.exactly (full :: rest) n >>= fun _ => m')) := by
  refine minded (quiet (fun t => ?_) fun _ => h)
  unfold Dialog.exactly
  split <;> rfl

theorem atLeast (h : n ≤ rest.length + 1 → AlikeIn p c m m') :
    AlikeIn p c (Dialog.minded (Dialog.atLeast (s :: rest) n >>= fun _ => m))
      (Dialog.minded (Dialog.atLeast (full :: rest) n >>= fun _ => m')) := by
  simp only [Dialog.atLeast, length_cons]
  by_cases hn : rest.length + 1 < n
  · rw [if_pos hn]
    exact minded fun _ _ => rfl
  · rw [if_neg hn]
    exact minded (h (Nat.le_of_not_lt hn))

theorem named (hsame : c.resolve kind s = c.resolve kind full) {f f' : String → α → Dialog β}
    (h : ∀ a, (c.resolve kind s).bind (g c) = some a → Alike p (f s a) (f' full a)) :
    AlikeIn p c (Dialog.argument (s :: rest) 0 >>= fun name => Dialog.resource
      (fun c s => (c.resolve kind s).bind (g c)) kind' name >>= f name) (Dialog.argument (full :: rest) 0
      >>= fun name => Dialog.resource (fun c s => (c.resolve kind s).bind (g c)) kind' name >>= f' name) :=
  resource hsame h

end AlikeIn

/-! ## Commands -/

section Commands

theorem splitPriority_alike (t : TableInfo) (hrest : rest ≠ [])
    (h : ∀ rest n, Alike p (f (s :: rest, n)) (f' (full :: rest, n))) :
    Alike p (splitPriority t (s :: rest) >>= f) (splitPriority t (full :: rest) >>= f') := by
  obtain ⟨last, hlast⟩ : ∃ last, rest.getLast? = some last := ⟨_, List.getLast?_eq_some_getLast hrest⟩
  simp only [splitPriority, List.getLast?_cons, hlast, Option.getD_some, Option.bind_some,
    dropLast_cons_of_ne_nil hrest]
  cases t.kind.hasPriority with
  | false => exact h rest 0
  | true =>
    cases int? last with
    | some n => exact h _ n
    | none => exact .refuse

end Commands

/-- The requests of a command do not depend on which of two names for its first argument a line has, where the
name and the other arguments are allowed. -/
def Keeps (kind : ResourceKind) (allowed : Catalog → String → List String → Prop) (run : String → Dialog Reply) : Prop :=
  ∀ p c s full rest line line', c.resolve kind s = c.resolve kind full → allowed c s rest →
    words line = s :: rest → words line' = full :: rest → AlikeIn p c (run line) (run line')

abbrev Any (_ : Catalog) (_ : String) (_ : List String) : Prop := True

section Kept

variable {allowed : Catalog → String → List String → Prop}

theorem Keeps.taking (h : ∀ {p c s full rest}, c.resolve kind s = c.resolve kind full → allowed c s rest →
    AlikeIn p c (m (s :: rest)) (m (full :: rest))) : Keeps kind allowed (taking n m) := by
  intro p c s full rest line line' hsame hallowed hline hline'
  simp only [Dialog.taking, hline, hline']
  exact .exactly (h hsame hallowed)

theorem Keeps.takingMore (h : ∀ {p c s full rest}, c.resolve kind s = c.resolve kind full → allowed c s rest →
    n ≤ rest.length + 1 → AlikeIn p c (m (s :: rest)) (m (full :: rest))) :
    Keeps kind allowed (takingMore n m) := by
  intro p c s full rest line line' hsame hallowed hline hline'
  simp only [Dialog.takingMore, hline, hline']
  exact .atLeast (h hsame hallowed)

end Kept

theorem setDefault_keeps : Keeps .table Any setDefault := by
  refine .takingMore fun hsame _ _ => ?_
  simp only [tableAction_eq]
  refine .argument 0 fun action => .resource hsame fun t _ => .lookUp _ _ _ fun a => .bind _ fun data => ?_
  exact .say _ _ (.bind (.sayAction _ _) fun _ => .order _ _)

theorem addEntry_keeps : Keeps .table Any addEntry := by
  refine .takingMore fun hsame _ hn => ?_
  simp only [tableAction_eq]
  refine .argument 0 fun action => .resource hsame fun t _ => .lookUp _ _ _ fun a => ?_
  refine splitPriority_alike t (by rintro rfl; simp at hn) fun rest n => .bind _ fun i => ?_
  simp only [drop_take, drop_succ_cons]
  refine .ite .refuse (.bind _ fun data => .bind _ fun key => .say _ _ ?_)
  exact .bind (.say _) fun _ => .bind (.sayAction _ _) fun _ => .bind (.request _ _) fun _ => .bind (.say _) fun _ => .pure _

theorem setTimeout_keeps : Keeps .table Any setTimeout :=
  .taking fun hsame _ => .named hsame fun _ _ => .ite .refuse (.refl _)

theorem modifyEntry_keeps : Keeps .table Any modifyEntry := by
  refine .takingMore fun hsame _ _ => ?_
  simp only [tableAction_eq]
  refine .named hsame fun t _ => .bind _ fun action => .lookUp _ _ _ fun a => .bind _ fun text => ?_
  exact .bind _ fun entry => .bind _ fun params => .bind _ fun data => .say _ _ (.order _ _)

theorem deleteEntry_keeps : Keeps .table Any deleteEntry :=
  .taking fun hsame _ => .named hsame fun _ _ => .bind _ fun _ => .bind _ fun _ => .say _ _ (.order _ _)

theorem createMember_keeps : Keeps .profile Any createMember := by
  refine .takingMore fun hsame _ _ => ?_
  simp only [profileAction_eq]
  exact .named hsame fun t _ => .bind _ fun action => .lookUp _ _ _ fun a => .refl _

theorem modifyMember_keeps : Keeps .profile Any modifyMember := by
  refine .takingMore fun hsame _ _ => ?_
  simp only [profileAction_eq]
  exact .named hsame fun t _ => .bind _ fun action => .lookUp _ _ _ fun a => .refl _

theorem addIndirect_keeps (selecting : Bool) (name : String) : Keeps .table Any (addIndirect selecting name) := by
  refine .takingMore fun hsame _ hn => .named hsame fun t _ => ?_
  refine .ite (.bind _ fun _ => ?_) (.bind _ fun _ => ?_)
  all_goals
    refine splitPriority_alike t (by rintro rfl; simp at hn) fun rest n => .bind _ fun i => ?_
    simp only [drop_take, drop_succ_cons]
    exact .refl _

theorem deleteIndirect_keeps : Keeps .table Any deleteIndirect :=
  .taking fun hsame _ => .named hsame fun _ _ => .bind _ fun _ => .bind _ fun _ => .bind _ fun _ => .say _ _ (.order _ _)

theorem byTable_keeps (newer : String) (command : Handler) (selecting inUse : Bool) :
    Keeps .table Any (byTable newer command selecting inUse) :=
  .takingMore fun hsame _ _ => .named hsame fun _ _ => .refl _

theorem readCounter_keeps : Keeps .counter Any readCounter := by
  refine .taking fun hsame _ => .named hsame fun t _ => .bind _ fun text => .bind _ fun i => .ite (.bind _ fun _ => ?_) ?_
  all_goals
    exact .bind _ fun value => .bind _ fun _ => .bind _ fun _ => .bind _ fun _ => .bind _ fun _ => .say _ _ (.pure _)

theorem readRegister_keeps : Keeps .register Any readRegister := by
  refine .takingMore fun hsame _ _ => .named hsame fun r _ => .ite ?_ ?_
  · exact .bind _ fun _ => .bind _ fun text => .bind _ fun i => .bind _ fun value => .say _ _ (.pure _)
  · exact .bind _ fun _ => .bind _ fun values => .bind _ fun shown => .say _ _ (.pure _)

theorem writeCounter_keeps :
    Keeps .counter (fun c s _ => ∀ i, c.counter? s = some i → i.direct.truth = true) writeCounter := by
  refine .taking fun hsame hdirect => .named hsame fun i hi => .bind _ fun _ => .bind _ fun n => .bind _ fun _ => ?_
  refine .bind _ fun packets => .bind _ fun _ => .bind _ fun bytes => ?_
  rw [if_pos (hdirect i hi), if_pos (hdirect i hi)]
  exact .bind _ fun _ => .bind _ fun _ => .say _ _ (.pure _)

theorem dumpEntryByKey_keeps : Keeps .table (fun _ _ rest => rest ≠ []) dumpEntryByKey := by
  refine .takingMore fun hsame hrest _ => .named hsame fun t _ => splitPriority_alike t hrest fun rest n => ?_
  exact .ite .refuse (.refl _)

end Dialog

/-! ## All commands -/

def Completion.kind? : Completion → Option ResourceKind
  | tables | tableActions => some .table
  | profiles | profileActions => some .profile
  | meters => some .meter
  | counters => some .counter
  | registers => some .register
  | valueSets => some .valueSet
  | nothing | checksums _ | commands => none

namespace Command

open Dialog

/-- A command does not ask with the name as it was typed, and does not take it for a priority. -/
structure Resolves (k : Command) (c : Catalog) (s : String) (args : List String) : Prop where
  values : k.completion ≠ .valueSets
  write : k.name = "counter_write" → ∀ i, c.counter? s = some i → i.direct.truth = true
  priority : k.name = "table_dump_entry_from_key" → args ≠ []

/-- The requests of a command do not depend on how its first argument is named. -/
def Abbreviable (k : Command) : Prop := ∀ kind, k.completion.kind? = some kind → Keeps kind k.Resolves k.run

variable {k : Command} {kind : ResourceKind}

theorem Abbreviable.of {allowed : Catalog → String → List String → Prop} (hk : k.completion.kind? = some kind)
    (hallowed : ∀ {c s rest}, k.Resolves c s rest → allowed c s rest) (h : Keeps kind allowed k.run) :
    k.Abbreviable := by
  intro kind' hk'
  obtain rfl := Option.some.inj (hk.symm.trans hk')
  exact fun _ _ _ _ _ _ _ hsame hresolves => h _ _ _ _ _ _ _ hsame (hallowed hresolves)

theorem Abbreviable.any (hk : k.completion.kind? = some kind) (h : Keeps kind Any k.run) :
    k.Abbreviable := .of hk (fun _ => trivial) h

theorem abbreviable_ofTables : ∀ k ∈ ofTables, k.Abbreviable := by
  simp only [ofTables, doc, forall_mem_cons, not_mem_nil, false_imp_iff, implies_true, and_true]
  refine ⟨nofun, nofun, .any rfl ?_, .any rfl ?_, .any rfl setDefault_keeps, .any rfl ?_, .any rfl ?_, .any rfl ?_,
    .any rfl addEntry_keeps, .any rfl setTimeout_keeps, .any rfl modifyEntry_keeps, .any rfl deleteEntry_keeps⟩
  all_goals
    simp only [tableActions, tableInfo, resetDefault, entryCount, clearTable, on]
    exact .taking fun hsame _ => .named hsame fun _ _ => .refl _

theorem abbreviable_ofProfiles : ∀ k ∈ ofProfiles, k.Abbreviable := by
  simp only [ofProfiles, doc, forall_mem_cons, not_mem_nil, false_imp_iff, implies_true, and_true]
  refine ⟨.any rfl createMember_keeps, .any rfl ?_, .any rfl modifyMember_keeps, .any rfl ?_, .any rfl ?_, .any rfl ?_,
    .any rfl ?_, .any rfl (addIndirect_keeps _ _), .any rfl (addIndirect_keeps _ _), .any rfl deleteIndirect_keeps,
    .any rfl ?_, .any rfl ?_, .any rfl ?_⟩
  all_goals
    simp only [deleteMember, createGroup, deleteGroup, addToGroup, removeFromGroup, changeGroup, defaultMember, defaultGroup,
      defaultIndirect, resetIndirect, on]
    exact .taking fun hsame _ => .named hsame fun _ _ => .refl _

theorem abbreviable_ofProfilesByTable : ∀ k ∈ ofProfilesByTable, k.Abbreviable := by
  simp only [ofProfilesByTable, forall_mem_cons, not_mem_nil, false_imp_iff, implies_true, and_true]
  refine ⟨?_, ?_, ?_, ?_, ?_, ?_, ?_⟩ <;> exact .any rfl (byTable_keeps _ _ _ _)

theorem abbreviable_ofCells : ∀ k ∈ ofCells, k.Abbreviable := by
  simp only [ofCells, doc, forall_mem_cons, not_mem_nil, false_imp_iff, implies_true, and_true]
  refine ⟨.any rfl ?_, .any rfl ?_, .any rfl ?_, .any rfl readCounter_keeps,
    .of rfl (fun h => h.write rfl) writeCounter_keeps, .any rfl ?_, .any rfl readRegister_keeps, .any rfl ?_, .any rfl ?_⟩
  iterate 2
    simp only [setArrayRates, setRates]
    exact .takingMore fun hsame _ _ => .named hsame fun _ _ => .refl _
  all_goals
    simp only [getRates, resetCounter, writeRegister, resetRegister, on]
    exact .taking fun hsame _ => .named hsame fun _ _ => .refl _

theorem abbreviable_ofEntries : ∀ k ∈ ofEntries, k.Abbreviable := by
  simp only [ofEntries, doc, forall_mem_cons, not_mem_nil, false_imp_iff, implies_true, and_true]
  refine ⟨.any rfl ?_, .any rfl ?_, .any rfl (byTable_keeps _ _ _ _), .any rfl ?_, .any rfl (byTable_keeps _ _ _ _),
    .any rfl ?_, .any rfl ?_, .of rfl (fun h => h.priority rfl) dumpEntryByKey_keeps⟩
  all_goals
    simp only [dumpEntry, dumpMember, dumpGroup, dumpProfile, dumpTable, on]
    exact .taking fun hsame _ => .named hsame fun _ _ => .refl _

theorem abbreviable_all : ∀ k ∈ all, k.Abbreviable := by
  have hconsole : ∀ k ∈ ofConsole, k.Abbreviable := by
    simp only [ofConsole, forall_mem_cons, not_mem_nil, false_imp_iff, implies_true, and_true]
    exact ⟨nofun, nofun, nofun⟩
  have hmulticast : ∀ k ∈ ofMulticast, k.Abbreviable := by
    simp only [ofMulticast, forall_mem_cons, not_mem_nil, false_imp_iff, implies_true, and_true]
    exact ⟨nofun, nofun, nofun, nofun, nofun, nofun, nofun, nofun, nofun⟩
  have hvalues {k : Command} (hk : k.completion = .valueSets) : k.Abbreviable :=
    fun _ _ _ _ _ _ _ _ _ _ h => absurd hk h.values
  have hswitch : ∀ k ∈ ofSwitch, k.Abbreviable := by
    simp only [ofSwitch, forall_mem_cons, not_mem_nil, false_imp_iff, implies_true, and_true]
    exact ⟨nofun, nofun, nofun, hvalues rfl, hvalues rfl, hvalues rfl, hvalues rfl, nofun, nofun, nofun, nofun, nofun,
      nofun, nofun, nofun, nofun⟩
  intro k hk
  rcases mem_cons.mp hk with rfl | hk
  · nofun
  · simp only [others, mem_append, or_assoc] at hk
    rcases hk with hk | hk | hk | hk | hk | hk | hk | hk
    · exact hconsole k hk
    · exact abbreviable_ofTables k hk
    · exact abbreviable_ofProfiles k hk
    · exact abbreviable_ofProfilesByTable k hk
    · exact hmulticast k hk
    · exact abbreviable_ofCells k hk
    · exact abbreviable_ofEntries k hk
    · exact hswitch k hk

/-- A command makes the same requests whether a resource is named in full or by a suffix that stands for it. -/
theorem requests_abbreviated {k : Command} (hk : k ∈ all) {kind : ResourceKind} (hkind : k.completion.kind? = some kind)
    {t : Terminal} {suffix full : String} (hsuffix : t.catalog.resolve kind suffix = some full) {args : List String}
    (hresolves : k.Resolves t.catalog suffix args) {line line' : String} (hline : Text.words line = suffix :: args)
    (hline' : Text.words line' = full :: args) (p : Peer) :
    (t.turn p (k.run line)).1.requests = (t.turn p (k.run line')).1.requests := by
  have hsame : t.catalog.resolve kind suffix = t.catalog.resolve kind full :=
    hsuffix.trans (Catalog.resolve_full hsuffix).symm
  have halike : AlikeIn p t.catalog (k.run line) (k.run line') :=
    abbreviable_all k hk kind hkind _ _ _ _ _ _ _ hsame hresolves hline hline'
  have hmade (m : Dialog Reply) : (t.turn p m).1.requests = ((m.run p { t with out := [], warnings := [] }).2.requests.take
      ((m.run p { t with out := [], warnings := [] }).2.requests.length - t.requests.length)).reverse := rfl
  have hrequests := halike { t with out := [], warnings := [] } rfl
  rw [hmade, hmade, hrequests]

/-- A switch with two tables, a counter and a set of values, whose names have two parts. -/
def parted : Terminal :=
  { catalog :=
      { tables := .ofList [("ingress.route", { name := "ingress.route", id := .int 0 }),
          ("ingress.5", { name := "ingress.5", id := .int 1, kind := .ternary })]
        counters := .ofList [("ingress.hits", { name := "ingress.hits", id := .int 0 })]
        valueSets := .ofList [("parser.kinds", { name := "parser.kinds", id := .int 0 })]
        complete := true } }

/-- A switch that answers every request. -/
def obliging : Peer := ⟨.plain, fun _ _ => .value .null, fun _ => ""⟩

/-- An entry is deleted by a suffix of the name of its table. -/
theorem requests_abbreviated_delete :
    ∃ k ∈ all, k.name = "table_delete" ∧ k.completion.kind? = some .table ∧
      parted.catalog.resolve .table "route" = some "ingress.route" ∧ k.Resolves parted.catalog "route" ["3"] ∧
      (parted.turn obliging (k.run "ingress.route 3")).1.requests =
        [⟨"bm_mt_delete_entry", [.int 0, .text "ingress.route", .int 3]⟩] ∧
      (parted.turn obliging (k.run "route 3")).1.requests =
        (parted.turn obliging (k.run "ingress.route 3")).1.requests := by
  have hfound : ∃ k, find? "table_delete" = some k ∧ k.name = "table_delete" ∧ k.completion = .tables ∧
      k.run = deleteEntry := ⟨_, rfl, rfl, rfl, rfl⟩
  obtain ⟨k, hfind, hname, hcompletion, hrun⟩ := hfound
  have hk : k ∈ all := mem_of_find?_eq_some hfind
  have hkind : k.completion.kind? = some .table := by rw [hcompletion]; rfl
  have hsuffix : parted.catalog.resolve .table "route" = some "ingress.route" := by decide
  have hresolves : k.Resolves parted.catalog "route" ["3"] :=
    ⟨by rw [hcompletion]; decide, fun h => by simp [hname] at h, fun _ => by simp⟩
  refine ⟨k, hk, hname, hkind, hsuffix, hresolves, by rw [hrun]; rfl, ?_⟩
  exact requests_abbreviated hk hkind hsuffix hresolves (by decide) (by decide) obliging

/-- The commands on sets of values ask with the name as it was typed, and so does the one that writes a counter of its
own. The name of a table that is looked into by a key may be taken for a priority. -/
theorem requests_as_typed :
    (parted.catalog.resolve .valueSet "kinds" = some "parser.kinds" ∧
      (parted.turn obliging (start "pvs_clear" "kinds")).1.requests =
        [⟨"bm_parse_vset_clear", [.int 0, .text "kinds"]⟩] ∧
      (parted.turn obliging (start "pvs_clear" "parser.kinds")).1.requests =
        [⟨"bm_parse_vset_clear", [.int 0, .text "parser.kinds"]⟩]) ∧
    (parted.catalog.resolve .counter "hits" = some "ingress.hits" ∧
      (parted.turn obliging (start "counter_write" "hits 0 1 2")).1.requests =
        [⟨"bm_counter_write", [.int 0, .text "hits", .int 0, .count 2 1]⟩] ∧
      (parted.turn obliging (start "counter_write" "ingress.hits 0 1 2")).1.requests =
        [⟨"bm_counter_write", [.int 0, .text "ingress.hits", .int 0, .count 2 1]⟩]) ∧
    parted.catalog.resolve .table "5" = some "ingress.5" ∧
      (parted.turn obliging (start "table_dump_entry_from_key" "5")).1.requests =
        [⟨"bm_mt_get_entry_from_key", [.int 0, .text "ingress.5", .key [], .priority 5]⟩] ∧
      (parted.turn obliging (start "table_dump_entry_from_key" "ingress.5")).1.requests = [] :=
  ⟨⟨by decide, rfl, rfl⟩, ⟨by decide, rfl, rfl⟩, by decide, rfl, rfl⟩

end Command

end Console

end PacketSmith
