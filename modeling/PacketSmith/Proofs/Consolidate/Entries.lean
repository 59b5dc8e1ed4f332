import PacketSmith.Consolidate.Batch
import PacketSmith.Proofs.Packet.BitStrings

/-!
# Entries that paths share

A path that is added to a batch uses an entry that is there for the action, or another one is made and kept apart from
those that are there. Under the assignments that satisfy the formulas, the key and the parameters of an entry are
those of the path (`Tied`). `commit_find?` says which entries there are once the pending ones are added.
-/

namespace PacketSmith

open List Dict Bits TestCase Term
open Assignment (satisfies_append)

/-! ## Looking up entries -/

namespace SharedEntries

variable {es es' : SharedEntries} {t t' a a' : Label} {e : SharedEntry} {d : Dict Label SharedEntry}

def find? (es : SharedEntries) (table action : Label) : Option SharedEntry :=
  (es.getD table {}).get? action

def put (es : SharedEntries) (table action : Label) (e : SharedEntry) : SharedEntries :=
  es.insert table ((es.getD table {}).insert action e)

theorem find?_put : (es.put t a e).find? t' a' = if t = t' ∧ a = a' then some e else es.find? t' a' := by
  by_cases ht : t = t'
  · subst ht
    simp [find?, put, Dict.getD]
  · simp [find?, put, Dict.getD, ht]

@[simp] theorem find?_empty : find? {} t a = none := rfl

theorem mem_of_find? (h : es.find? t a = some e) : ∃ d, (t, d) ∈ es.entries ∧ (a, e) ∈ d.entries := by
  rw [find?, Dict.getD] at h
  cases hget : es.get? t with
  | none =>
    rw [hget] at h
    cases h
  | some d =>
    rw [hget] at h
    exact ⟨d, mem_entries_of_get? hget, mem_entries_of_get? h⟩

theorem mem_values_of_find? (h : es.find? t a = some e) : e ∈ (es.getD t {}).values :=
  mem_map.mpr ⟨_, mem_entries_of_get? h, rfl⟩

/-- No table comes twice, and no action of a table. Every table has an action. -/
structure WellFormed (es : SharedEntries) : Prop where
  tables : es.keys.Nodup
  actions : ∀ d ∈ es.values, d.keys.Nodup
  nonempty : ∀ d ∈ es.values, ∃ a, d.get? a ≠ none

theorem wellFormed_empty : WellFormed {} := ⟨nodup_nil, by simp [values], by simp [values]⟩

theorem WellFormed.getD (h : es.WellFormed) (t : Label) : (es.getD t {}).keys.Nodup := by
  rw [Dict.getD]
  cases hget : es.get? t with
  | none => exact nodup_nil
  | some d => exact h.actions d (mem_map.mpr ⟨_, mem_entries_of_get? hget, rfl⟩)

theorem WellFormed.insert (h : es.WellFormed) (hd : d.keys.Nodup) (hne : ∃ a, d.get? a ≠ none) (t : Label) :
    WellFormed (insert es t d) := by
  refine ⟨nodup_keys_insert h.tables t d, fun d' hd' => ?_, fun d' hd' => ?_⟩
  · obtain rfl | hold := mem_values_insert hd'
    · exact hd
    · exact h.actions d' hold
  · obtain rfl | hold := mem_values_insert hd'
    · exact hne
    · exact h.nonempty d' hold

theorem WellFormed.find?_of_mem (h : es.WellFormed) (hd : (t, d) ∈ es.entries) (he : (a, e) ∈ d.entries) :
    es.find? t a = some e := by
  rw [find?, Dict.getD, Dict.get?_of_mem h.tables hd]
  exact get?_of_mem (h.actions d (mem_map.mpr ⟨_, hd, rfl⟩)) he

theorem WellFormed.put (h : es.WellFormed) : WellFormed (es.put t a e) :=
  h.insert (nodup_keys_insert (h.getD t) a e) ⟨a, by simp⟩ t

end SharedEntries

/-! ## What the formulas say -/

abbrev Bits.values (ρ : Assignment) (bs : List Bits) : List EntryValue := bs.map (entryValue ρ)

structure SharedEntry.Agrees (ρ : Assignment) (e like : SharedEntry) : Prop where
  key : values ρ e.key = values ρ like.key
  params : values ρ e.params = values ρ like.params

namespace Batch

variable {ρ : Assignment}

theorem eval_equation (x y : Bits) : (equation x y).eval ρ = true ↔ entryValue ρ x = entryValue ρ y := by
  obtain ⟨w, x⟩ := x
  obtain ⟨v, y⟩ := y
  by_cases h : v = w
  · subst h
    simp [equation, entryValue, eval, Relation.eval, evalNat, BitVec.toNat_inj]
  · simp [equation, entryValue, eval, h, Ne.symm h]

/-- An entry that a path needs, of a table and for one of its actions. -/
abbrev TableUse := Label × Label × SharedEntry

variable {ts : List TableUse} {e like : SharedEntry} {name : String}
  {o : Options} {a t : Label} {b b' : Batch} {fs : List Formula}

theorem length_of_sameWidths (h : sameWidths xs ys = true) : xs.length = ys.length := by
  have hwidths : xs.map width = ys.map width := by simpa [sameWidths] using h
  simpa using congrArg List.length hwidths

theorem satisfies_equations (h : xs.length = ys.length) :
    ρ.Satisfies ((xs.zip ys).map fun (x, y) => equation x y) ↔ values ρ xs = values ρ ys := by
  induction xs generalizing ys with
  | nil =>
    cases ys with
    | nil => simp
    | cons y ys => cases h
  | cons x xs ih =>
    cases ys with
    | nil => cases h
    | cons y ys =>
      have hrest := ih (Nat.succ.inj h)
      rw [zip_cons_cons, map_cons, Assignment.satisfies_cons]
      exact (and_congr (eval_equation x y) hrest).trans (by simp)

theorem values_ne_of_different (h : (different xs ys).eval ρ = true) : values ρ xs ≠ values ρ ys := by
  rw [different, eval_any, any_map, any_eq_true] at h
  obtain ⟨⟨x, y⟩, hmem, hne⟩ := h
  intro heq
  have hvalues : ∀ p ∈ xs.zip ys, entryValue ρ p.1 = entryValue ρ p.2 := by
    clear hmem hne
    induction xs generalizing ys with
    | nil => simp
    | cons x xs ih =>
      cases ys with
      | nil => simp
      | cons y ys =>
        obtain ⟨hfirst, hrest⟩ := List.cons.inj heq
        simpa using ⟨hfirst, fun a b hab => ih hrest (a, b) hab⟩
  have hequal := (eval_equation x y).mpr (hvalues _ hmem)
  simp [eval, hequal] at hne

def ties (e like : SharedEntry) : List Formula :=
  ((e.key.zip like.key) ++ (e.params.zip like.params)).map fun (x, y) => equation x y

theorem satisfies_ties (hkey : e.key.length = like.key.length) (hparams : e.params.length = like.params.length) :
    ρ.Satisfies (ties e like) ↔ e.Agrees ρ like := by
  rw [ties, map_append, satisfies_append, satisfies_equations hkey, satisfies_equations hparams]
  exact ⟨fun h => ⟨h.1, h.2⟩, fun h => ⟨h.1, h.2⟩⟩

/-! ## New variables -/

def Legal (w : Nat) : Prop := 0 < w ∧ w < widthLimit

/-- A variable, combined with its displacement if there are random draws. -/
def entryBits (o : Options) (name : String) (w : Nat) : Bits :=
  if o.randomize then ⟨w, .arith .xor (.var name w) (.var (.shift name) w)⟩ else ⟨w, .var name w⟩

def entryShift (o : Options) (name : String) (w : Nat) : List (Variable × Nat) :=
  if o.randomize then [(.shift name, w)] else []

@[simp] theorem width_entryBits (o : Options) (name : String) (w : Nat) : (entryBits o name w).width = w := by
  rw [entryBits]
  split <;> rfl

theorem newVariable_eq_ok {w : Nat} :
    newVariable o.randomize name (some (w : Int)) = .ok r ↔
      Legal w ∧ r = (entryBits o name w, entryShift o name w) := by
  have hlegal : (0 < (w : Int) ∧ (w : Int) < widthLimit) ↔ Legal w := by
    rw [Legal]
    omega
  by_cases hw : Legal w
  · have hnamed : named name (some (w : Int)) = .ok ⟨w, .var name w⟩ := by
      simp only [named, widthOf, if_pos (hlegal.mpr hw)]
      rfl
    cases hr : o.randomize with
    | false => simp [newVariable, hnamed, entryBits, entryShift, hr, hw, bind, Except.bind, pure, Except.pure, eq_comm]
    | true => simp [newVariable, hnamed, entryBits, entryShift, hr, hw, bind, Except.bind, pure, Except.pure, eq_comm]
  · have hnamed : Bits.named name (some (w : Int)) = .error .sortMismatch := by
      simp only [named, widthOf, if_neg fun h => hw (hlegal.mp h)]
      rfl
    simp [newVariable, hnamed, hw, bind, Except.bind]

/-- The names of the variables that are made for some widths, with the widths. -/
def namesFor (name : String) (ws : List Nat) : List (String × Nat) :=
  ws.zipIdx.map fun (w, i) => (name ++ toString i, w)

theorem newVariables_eq_ok {like : List Bits} :
    newVariables o name like = .ok r ↔ (∀ b ∈ like, Legal b.width) ∧
      r = ((namesFor name (like.map Bits.width)).map fun v => entryBits o v.1 v.2,
      (namesFor name (like.map Bits.width)).flatMap fun v => entryShift o v.1 v.2) := by
  have hmade (made : List (Bits × List (Variable × Nat))) : (like.zipIdx.mapM fun x =>
        newVariable o.randomize (.plain (name ++ toString x.2)) (some (x.1.width : Int))) = .ok made ↔
      (∀ x ∈ like.zipIdx, Legal x.1.width) ∧ made = like.zipIdx.map fun x =>
        (entryBits o (name ++ toString x.2) x.1.width, entryShift o (name ++ toString x.2) x.1.width) :=
    mapM_eq_ok_iff fun _ _ => newVariable_eq_ok
  have hlegal : (∀ x ∈ like.zipIdx, Legal x.1.width) ↔ ∀ b ∈ like, Legal b.width := by
    rw [← forall_mem_map (f := Prod.fst) (P := fun b : Bits => Legal b.width), zipIdx_map_fst]
  rw [newVariables, bind_eq_ok]
  constructor
  · rintro ⟨made, hok, hr⟩
    obtain ⟨hw, rfl⟩ := (hmade made).mp hok
    cases hr
    refine ⟨hlegal.mp hw, ?_⟩
    simp [namesFor, zipIdx_map, flatMap_def, Function.comp_def]
  · rintro ⟨hw, rfl⟩
    refine ⟨_, (hmade _).mpr ⟨hlegal.mpr hw, rfl⟩, ?_⟩
    simp [namesFor, zipIdx_map, flatMap_def, Function.comp_def, pure, Except.pure]

def entryNames (table action : Label) (like : SharedEntry) : List (String × Nat) × List (String × Nat) :=
  (namesFor (entryName table action ++ "key_") (like.key.map width),
    namesFor (entryName table action ++ "param_") (like.params.map width))

def newEntry (o : Options) (table action : Label) (like : SharedEntry) : SharedEntry :=
  let names := entryNames table action like
  ⟨names.1.map fun v => entryBits o v.1 v.2, names.2.map fun v => entryBits o v.1 v.2⟩

def newShifts (o : Options) (table action : Label) (like : SharedEntry) : List (Variable × Nat) :=
  let names := entryNames table action like
  names.1.flatMap (fun v => entryShift o v.1 v.2) ++ names.2.flatMap fun v => entryShift o v.1 v.2

@[simp] theorem map_width_namesFor (o : Options) (name : String) (ws : List Nat) :
    ((namesFor name ws).map fun v => entryBits o v.1 v.2).map width = ws := by
  simp [namesFor, Function.comp_def, zipIdx_map_fst]

theorem map_width_newEntry (o : Options) (table action : Label) (like : SharedEntry) :
    (newEntry o table action like).key.map width = like.key.map width ∧
    (newEntry o table action like).params.map width = like.params.map width :=
  ⟨map_width_namesFor .., map_width_namesFor ..⟩

/-! ## Entries for a path -/

def withEntry (o : Options) (table action : Label) (like : SharedEntry) (b : Batch) : Batch :=
  { b with
    pending := b.pending.put table action (newEntry o table action like)
    displacements := b.displacements ++ newShifts o table action like }

theorem find?_withEntry (o : Options) (t a : Label) (like : SharedEntry) (b : Batch) (t' a' : Label) :
    (b.withEntry o t a like).pending.find? t' a' = if t = t' ∧
      a = a' then some (newEntry o t a like) else b.pending.find? t' a' :=
  SharedEntries.find?_put

section EntryFor

variable {table action : Label}

theorem entryFor_of_some (h : b.entries.find? table action = some e) : entryFor o table action like b = .ok r ↔
    (sameWidths e.key like.key = true ∧ sameWidths e.params like.params = true) ∧ r = (e, [], b) := by
  rw [SharedEntries.find?] at h
  simp only [entryFor, h]
  rw [require_bind_eq_ok, require_bind_eq_ok, and_assoc, pure_eq_ok]

theorem entryFor_of_none (h : b.entries.find? table action = none) :
    entryFor o table action like b = .ok r ↔
      ((∀ other ∈ (b.entries.getD table {}).values, sameWidths other.key like.key = true) ∧
      (∀ x ∈ like.key, Legal x.width) ∧
      (∀ x ∈ like.params, Legal x.width) ∧ b.pending.find? table action = none) ∧
      r = (newEntry o table action like, (b.entries.getD table {}).values.map (fun other =>
      different (newEntry o table action like).key other.key), b.withEntry o table action like) := by
  have hpending : (!(b.pending.getD table {}).contains action) = true ↔ b.pending.find? table action = none := by
    simp [Dict.contains, SharedEntries.find?]
  rw [SharedEntries.find?] at h
  simp only [entryFor, h]
  constructor
  · intro hok
    obtain ⟨hothers, hok⟩ := require_bind_eq_ok.mp hok
    obtain ⟨keys, hkeys, hok⟩ := bind_eq_ok.mp hok
    obtain ⟨hkey, rfl⟩ := newVariables_eq_ok.mp hkeys
    obtain ⟨params, hparams, hok⟩ := bind_eq_ok.mp hok
    obtain ⟨hparam, rfl⟩ := newVariables_eq_ok.mp hparams
    obtain ⟨hnew, hok⟩ := require_bind_eq_ok.mp hok
    cases hok
    refine ⟨⟨by simpa using hothers, hkey, hparam, hpending.mp hnew⟩, ?_⟩
    simp [withEntry, newEntry, newShifts, entryNames, SharedEntries.put]
  · rintro ⟨⟨hothers, hkey, hparam, hnew⟩, rfl⟩
    refine require_bind_eq_ok.mpr ⟨by simpa using hothers, ?_⟩
    refine bind_eq_ok.mpr ⟨_, newVariables_eq_ok.mpr ⟨hkey, rfl⟩, ?_⟩
    refine bind_eq_ok.mpr ⟨_, newVariables_eq_ok.mpr ⟨hparam, rfl⟩, ?_⟩
    refine require_bind_eq_ok.mpr ⟨hpending.mpr hnew, ?_⟩
    simp [withEntry, newEntry, newShifts, entryNames, SharedEntries.put, pure, Except.pure]

end EntryFor

/-! ## Tables of a path -/

/-- What is known of the tables of a path and a batch once they are tied together by some formulas. -/
structure Tied (o : Options) (ts : List TableUse) (b : Batch) (fs : List Formula) (b' : Batch) : Prop where
  paths : b'.paths = b.paths
  formulas : b'.formulas = b.formulas
  frames : b'.frames = b.frames
  entries : b'.entries = b.entries
  wellFormed : b.pending.WellFormed → b'.pending.WellFormed
  older : ∀ t a e, b.pending.find? t a = some e → b'.pending.find? t a = some e
  /-- What is pending now was so before, or is new and apart from the entries of its table. -/
  newer : ∀ t a e, b'.pending.find? t a = some e → b.pending.find? t a = some e ∨
    b.entries.find? t a = none ∧ (∃ like, (t, a, like) ∈ ts ∧ e = newEntry o t a like) ∧
      ∀ a' e', b.entries.find? t a' = some e' → ∀ ρ : Assignment, ρ.Satisfies fs →
        values ρ e.key ≠ values ρ e'.key
  /-- Each table of the path has an entry with its key and parameters. -/
  tied : ∀ t a like, (t, a, like) ∈ ts → ∃ e, (b.entries.find? t a = some e ∨ b'.pending.find? t a = some e) ∧
    ∀ ρ : Assignment, ρ.Satisfies fs → e.Agrees ρ like

theorem Tied.cons_found (h : Tied o ts b fs b') (hfound : b.entries.find? t a = some e)
    (hagrees : ∀ ρ : Assignment, ρ.Satisfies (ties e like) → e.Agrees ρ like) :
    Tied o ((t, a, like) :: ts) b (ties e like ++ fs) b' := by
  refine ⟨h.paths, h.formulas, h.frames, h.entries, h.wellFormed, h.older, ?_, ?_⟩
  · intro t' a' e' hpending
    obtain hold | ⟨hnone, ⟨like', hmem, hnew⟩, hapart⟩ := h.newer t' a' e' hpending
    · exact .inl hold
    · refine .inr ⟨hnone, ⟨like', mem_cons_of_mem _ hmem, hnew⟩, ?_⟩
      intro a'' e'' hother ρ hρ
      exact hapart a'' e'' hother ρ (satisfies_append.mp hρ).2
  · intro t' a' like' hmem
    obtain heq | hmem := mem_cons.mp hmem
    · cases heq
      exact ⟨e, .inl hfound, fun ρ hρ => hagrees ρ (satisfies_append.mp hρ).1⟩
    · obtain ⟨e', hfind, hagrees'⟩ := h.tied t' a' like' hmem
      exact ⟨e', hfind, fun ρ hρ => hagrees' ρ (satisfies_append.mp hρ).2⟩

theorem Tied.cons_made (h : Tied o ts (b.withEntry o t a like) fs b')
    (hnone : b.entries.find? t a = none) (hpending : b.pending.find? t a = none) :
    Tied o ((t, a, like) :: ts) b ((b.entries.getD t {}).values.map (fun other =>
      different (newEntry o t a like).key other.key) ++ ties (newEntry o t a like) like ++ fs) b' := by
  have hput := find?_withEntry o t a like b
  obtain ⟨hkey, hparams⟩ := map_width_newEntry o t a like
  refine ⟨h.paths, h.formulas, h.frames, h.entries, fun hwell => h.wellFormed hwell.put, ?_, ?_, ?_⟩
  · intro t' a' e' hold
    refine h.older t' a' e' ?_
    rw [hput, if_neg, hold]
    rintro ⟨rfl, rfl⟩
    rw [hpending] at hold
    cases hold
  · intro t' a' e' hnow
    obtain hold | ⟨hnone', ⟨like', hmem, hnew⟩, hapart⟩ := h.newer t' a' e' hnow
    · rw [hput] at hold
      split at hold
      · next heq =>
        obtain ⟨rfl, rfl⟩ := heq
        cases hold
        refine .inr ⟨hnone, ⟨like, mem_cons_self, rfl⟩, ?_⟩
        intro a'' e'' hother ρ hρ
        have hdifferent := (satisfies_append.mp (satisfies_append.mp hρ).1).1
        exact values_ne_of_different (hdifferent _ (mem_map_of_mem (SharedEntries.mem_values_of_find? hother)))
      · exact .inl hold
    · refine .inr ⟨hnone', ⟨like', mem_cons_of_mem _ hmem, hnew⟩, ?_⟩
      intro a'' e'' hother ρ hρ
      exact hapart a'' e'' hother ρ (satisfies_append.mp hρ).2
  · intro t' a' like' hmem
    obtain heq | hmem := mem_cons.mp hmem
    · cases heq
      refine ⟨newEntry o t a like, .inr (h.older t a _ (by rw [hput, if_pos ⟨rfl, rfl⟩])), fun ρ hρ => ?_⟩
      have hties := (satisfies_append.mp (satisfies_append.mp hρ).1).2
      exact (satisfies_ties (by simpa using congrArg List.length hkey)
        (by simpa using congrArg List.length hparams)).mp hties
    · obtain ⟨e', hfind, hagrees'⟩ := h.tied t' a' like' hmem
      exact ⟨e', hfind, fun ρ hρ => hagrees' ρ (satisfies_append.mp hρ).2⟩

theorem tie_ok (h : tie o ts b = .ok r) : Tied o ts b r.1 r.2 := by
  induction ts generalizing b r with
  | nil =>
    cases h
    exact ⟨rfl, rfl, rfl, rfl, id, fun _ _ _ => id, fun _ _ _ => .inl, by simp⟩
  | cons x ts ih =>
    obtain ⟨t, a, like⟩ := x
    obtain ⟨⟨e, needed, b₁⟩, hentry, h⟩ := bind_eq_ok.mp h
    obtain ⟨⟨more, b₂⟩, hrest, h⟩ := bind_eq_ok.mp h
    cases h
    have htied := ih hrest
    cases hfind : b.entries.find? t a with
    | some e' =>
      obtain ⟨⟨hkey, hparams⟩, heq⟩ := (entryFor_of_some hfind).mp hentry
      cases heq
      exact htied.cons_found hfind fun ρ hρ =>
        (satisfies_ties (length_of_sameWidths hkey) (length_of_sameWidths hparams)).mp hρ
    | none =>
      obtain ⟨⟨-, -, -, hpending⟩, heq⟩ := (entryFor_of_none hfind).mp hentry
      cases heq
      exact htied.cons_made hfind hpending

/-! ## Pending entries -/

section Commit

variable {known known' : Dict Label SharedEntry} {entries entries' : SharedEntries}

theorem commitEntry_eq_ok : commitEntry known new = .ok known' ↔
    known.get? new.1 = none ∧ known' = known.insert new.1 new.2 := by
  have hcontains : (!known.contains new.1) = true ↔ known.get? new.1 = none := by
    simp [Dict.contains]
  rw [commitEntry, require_bind_eq_ok, hcontains, pure_eq_ok]

theorem get?_commitEntries (h : new.foldlM commitEntry known = .ok known')
    (a : Label) : known'.get? a = (known.get? a).or (Dict.lookup a new) := by
  induction new generalizing known with
  | nil =>
    cases h
    simp [Dict.lookup]
  | cons x new ih =>
    obtain ⟨next, hnext, h⟩ := bind_eq_ok.mp h
    obtain ⟨hnone, rfl⟩ := commitEntry_eq_ok.mp hnext
    rw [ih h, Dict.lookup]
    by_cases hx : x.1 = a
    · subst hx
      simp [hnone]
    · simp [hx]

theorem find?_commitTables (hnodup : (new.map Prod.fst).Nodup) (h : new.foldlM commitTable entries = .ok entries')
    (t a : Label) : entries'.find? t a = (entries.find? t a).or ((Dict.lookup t new).bind fun d => d.get? a) := by
  induction new generalizing entries with
  | nil =>
    cases h
    simp [Dict.lookup]
  | cons x new ih =>
    obtain ⟨hfirst, hrest⟩ := nodup_cons.mp hnodup
    obtain ⟨next, hnext, h⟩ := bind_eq_ok.mp h
    obtain ⟨known, hknown, hnext⟩ := bind_eq_ok.mp hnext
    cases hnext
    rw [ih hrest h, Dict.lookup]
    by_cases hx : x.1 = t
    · subst hx
      have hlater : Dict.lookup x.1 new = none := by
        cases hlookup : Dict.lookup x.1 new with
        | none => rfl
        | some d => exact absurd (mem_map_of_mem (mem_of_lookup hlookup)) hfirst
      have hvalue := get?_commitEntries hknown a
      simp only [SharedEntries.find?, Dict.getD, Dict.get?_insert, if_true, Option.getD_some, hlater] at hvalue ⊢
      rw [hvalue]
      simp [Dict.get?]
    · simp [SharedEntries.find?, Dict.getD, hx]

theorem commit_find? (hpending : b.pending.WellFormed) (h : b.commit = .ok b') (t a : Label) :
    b'.entries.find? t a = (b.entries.find? t a).or (b.pending.find? t a) := by
  obtain ⟨entries, hentries, h⟩ := bind_eq_ok.mp h
  cases h
  rw [find?_commitTables hpending.tables hentries t a]
  simp only [SharedEntries.find?, Dict.getD, Dict.get?]
  cases Dict.lookup t b.pending.entries <;> rfl

theorem commit_ok (h : b.commit = .ok b') : b' = { b with entries := b'.entries, pending := {} } := by
  obtain ⟨entries, hentries, h⟩ := bind_eq_ok.mp h
  cases h
  rfl

theorem commit_wellFormed (hentries : b.entries.WellFormed) (hpending : b.pending.WellFormed)
    (h : b.commit = .ok b') : b'.entries.WellFormed := by
  have hknown (new : List (Label × SharedEntry)) (known known' : Dict Label SharedEntry)
      (hnodup : known.keys.Nodup) (hok : new.foldlM commitEntry known = .ok known') : known'.keys.Nodup := by
    refine foldlM_keeps (P := fun d : Dict Label SharedEntry => d.keys.Nodup) ?_ hnodup hok
    intro d x d' hd hx
    obtain ⟨-, rfl⟩ := commitEntry_eq_ok.mp hx
    exact nodup_keys_insert hd _ _
  obtain ⟨entries, hok, h⟩ := bind_eq_ok.mp h
  cases h
  refine foldlM_keeps_of_mem (P := SharedEntries.WellFormed) ?_ hentries hok
  intro x hx es es' hes hcommit
  obtain ⟨known, hk, hcommit⟩ := bind_eq_ok.mp hcommit
  cases hcommit
  refine hes.insert (hknown _ _ _ (hes.getD x.1) hk) ?_ x.1
  obtain ⟨a, ha⟩ := hpending.nonempty x.2 (mem_map_of_mem hx)
  refine ⟨a, fun hnone => ha ?_⟩
  rw [get?_commitEntries hk, Option.or_eq_none_iff] at hnone
  exact hnone.2

end Commit

end Batch

end PacketSmith
