import Mathlib.Data.List.Nodup
import PacketSmith.Proofs.Consolidate.Batches
import PacketSmith.Proofs.Console.Texts

/-!
# Entries that can be solved

The variables of an entry have names of their own (`nodup_slots`, `entryName_of_mem_slots`), so that they can be given
any values (`realize`). So the formulas that tie a path to new entries rule nothing out that the path allows
(`satisfies_ties_realize`), and the displacements can be drawn at random afterwards (`satisfies_fixed_redraw`).
-/

namespace PacketSmith

open TestCase Bits Term Dict BatchPath

open BatchPath (ofSolution)
open List (mem_map mem_map_of_mem map_append map_map forall_mem_cons)

namespace Batch

/-! ## Names -/

theorem append_number_inj {i j : Nat} (h : x ++ "_" ++ toString i = y ++ "_" ++ toString j) : x = y ∧ i = j := by
  obtain ⟨htext, hnumber⟩ := Text.append_toDigits_inj (c := '_') (by decide)
    (by simpa [Nat.toList_repr] using congrArg String.toList h)
  exact ⟨String.toList_injective htext, hnumber⟩

variable {t a t' a' : Label} {like : SharedEntry} {n : String}
  {o : Options} {b : Batch}

theorem entryName_inj (ht : '$' ∉ t.display.toList) (ht' : '$' ∉ t'.display.toList)
    (h : entryName t a = entryName t' a') : t.display = t'.display ∧ a.display = a'.display := by
  have htoList (t a : Label) : (entryName t a).toList.drop 14 =
      t.display.toList ++ '$' :: '.' :: '$' :: (a.display ++ "$.").toList := by
    simp [entryName]
  have hplain {cs : List Char} (hcs : '$' ∉ cs) : ∀ c ∈ cs, (c != '$') = true := fun c hc =>
    bne_iff_ne.mpr fun heq => hcs (heq ▸ hc)
  have hlists := (htoList t a).symm.trans (h ▸ htoList t' a')
  constructor
  · have htake := congrArg (List.takeWhile (· != '$')) hlists
    rw [List.takeWhile_append_of_pos (hplain ht), List.takeWhile_append_of_pos (hplain ht')] at htake
    exact String.toList_injective (by simpa using htake)
  · have hdrop := congrArg (List.dropWhile (· != '$')) hlists
    rw [List.dropWhile_append_of_pos (hplain ht), List.dropWhile_append_of_pos (hplain ht')] at hdrop
    exact String.toList_injective (by simpa using hdrop)

/-- The variables that are made for some bit vectors, each with the one that it is tied to. -/
def slotsFor (name : String) (bs : List Bits) : List (String × Bits) :=
  bs.zipIdx.map fun (b, i) => (name ++ toString i, b)

/-- The variables of a new entry, each with what it is tied to. -/
def slots (table action : Label) (like : SharedEntry) : List (String × Bits) :=
  slotsFor (entryName table action ++ "key" ++ "_") like.key ++
    slotsFor (entryName table action ++ "param" ++ "_") like.params

theorem map_namesFor (f : String → Nat → β) (name : String) (bs : List Bits) :
    (namesFor name (bs.map width)).map (fun v => f v.1 v.2) = (slotsFor name bs).map fun s => f s.1 s.2.width := by
  simp [namesFor, slotsFor, List.zipIdx_map, Function.comp_def]

theorem map_fst_slotsFor (name : String) (bs : List Bits) :
    (slotsFor name bs).map Prod.fst = (List.range' 0 bs.length).map fun i => name ++ toString i := by
  rw [← List.zipIdx_map_snd 0 bs, slotsFor, map_map, map_map]
  rfl

theorem map_snd_slotsFor (name : String) (bs : List Bits) : (slotsFor name bs).map Prod.snd = bs := by
  simp [slotsFor, Function.comp_def, List.zipIdx_map_fst]

theorem zip_slotsFor (f : String × Bits → Bits) (name : String) (bs : List Bits) :
    ((slotsFor name bs).map f).zip bs = (slotsFor name bs).map fun s => (f s, s.2) :=
  calc ((slotsFor name bs).map f).zip bs
    _ = ((slotsFor name bs).map f).zip ((slotsFor name bs).map Prod.snd) := by rw [map_snd_slotsFor]
    _ = (slotsFor name bs).map fun s => (f s, s.2) := List.zip_map' ..

theorem entryNames_eq (t a : Label) (like : SharedEntry) : entryNames t a like =
    (namesFor (entryName t a ++ "key" ++ "_") (like.key.map width),
      namesFor (entryName t a ++ "param" ++ "_") (like.params.map width)) := by
  have hname (x : String) : x ++ "key_" = x ++ "key" ++ "_" ∧ x ++ "param_" = x ++ "param" ++ "_" :=
    ⟨(@String.append_assoc x "key" "_").symm,
      (@String.append_assoc x "param" "_").symm⟩
  rw [entryNames, (hname _).1, (hname _).2]

theorem ties_newEntry (o : Options) (t a : Label) (like : SharedEntry) :
    ties (newEntry o t a like) like =
      (slots t a like).map fun s => equation (entryBits o s.1 s.2.width) s.2 := by
  rw [ties, newEntry, entryNames_eq]
  simp only [map_namesFor (entryBits o), zip_slotsFor, slots, map_append, map_map]
  rfl

theorem newShifts_eq (o : Options) (t a : Label) (like : SharedEntry) :
    newShifts o t a like =
      if o.randomize then (slots t a like).map fun s => (.shift s.1, s.2.width) else [] := by
  rw [newShifts, entryNames_eq]
  cases hrandom : o.randomize with
  | false => simp [entryShift, hrandom]
  | true =>
    simp only [entryShift, hrandom, if_true, ← List.map_eq_flatMap, slots, map_append,
      map_namesFor fun n w => (Variable.shift n, w)]

theorem mem_names_slots (h : n ∈ (slots t a like).map Prod.fst) :
    ∃ i : Nat, n = entryName t a ++ "key" ++ "_" ++ toString i ∨ n = entryName t a ++ "param" ++ "_" ++ toString i := by
  rw [slots, map_append, map_fst_slotsFor, map_fst_slotsFor, List.mem_append, mem_map, mem_map] at h
  obtain ⟨i, -, hi⟩ | ⟨i, -, hi⟩ := h
  · exact ⟨i, .inl hi.symm⟩
  · exact ⟨i, .inr hi.symm⟩

theorem append_key_ne_append_param (x y : String) : x ++ "key" ≠ y ++ "param" := by
  intro h
  have hlast := congrArg (fun s : String => s.toList.getLast?) h
  simp at hlast

theorem mem_of_mem_slots (h : s ∈ slots t a like) : s.2 ∈ like.key ++ like.params := by
  have hsnd : (slots t a like).map Prod.snd = like.key ++ like.params := by
    simp [slots, map_snd_slotsFor]
  exact hsnd ▸ mem_map_of_mem h

theorem entryName_of_mem_slots (h : n ∈ (slots t a like).map Prod.fst) (h' : n ∈ (slots t' a' like').map Prod.fst) :
    entryName t a = entryName t' a' := by
  obtain ⟨i, rfl | rfl⟩ := mem_names_slots h
  · obtain ⟨j, hj | hj⟩ := mem_names_slots h'
    · exact String.append_left_inj _ |>.mp (append_number_inj hj).1
    · exact absurd (append_number_inj hj).1 (append_key_ne_append_param _ _)
  · obtain ⟨j, hj | hj⟩ := mem_names_slots h'
    · exact absurd (append_number_inj hj).1.symm (append_key_ne_append_param _ _)
    · exact String.append_left_inj _ |>.mp (append_number_inj hj).1

theorem nodup_slots (t a : Label) (like : SharedEntry) : ((slots t a like).map Prod.fst).Nodup := by
  have hpart (x : String) (bs : List Bits) : ((slotsFor (x ++ "_") bs).map Prod.fst).Nodup := by
    rw [map_fst_slotsFor]
    exact List.Nodup.map (fun i j h => (append_number_inj h).2) (List.nodup_range' ..)
  rw [slots, map_append, List.nodup_append]
  refine ⟨hpart _ _, hpart _ _, ?_⟩
  rw [map_fst_slotsFor, map_fst_slotsFor]
  intro n hn n' hn' heq
  obtain ⟨i, -, rfl⟩ := mem_map.mp hn
  obtain ⟨j, -, rfl⟩ := mem_map.mp hn'
  exact append_key_ne_append_param _ _ (append_number_inj heq).1

theorem exists_of_mem_newShifts (h : d ∈ newShifts o t a like) :
    ∃ n ∈ (slots t a like).map Prod.fst, d.1 = .shift (.plain n) := by
  rw [newShifts_eq] at h
  split at h
  · obtain ⟨s, hs, rfl⟩ := mem_map.mp h
    exact ⟨s.1, mem_map_of_mem hs, rfl⟩
  · cases h

theorem entryName_of_mem_newShifts (h : d ∈ newShifts o t a like) (h' : d ∈ newShifts o t' a' like') :
    entryName t a = entryName t' a' := by
  obtain ⟨n, hn, hd⟩ := exists_of_mem_newShifts h
  obtain ⟨n', hn', hd'⟩ := exists_of_mem_newShifts h'
  cases hd.symm.trans hd'
  exact entryName_of_mem_slots hn hn'

theorem nodup_newShifts (o : Options) (t a : Label) (like : SharedEntry) : (newShifts o t a like).Nodup := by
  rw [newShifts_eq]
  split
  · refine List.Nodup.of_map Prod.fst ?_
    have hnames := (nodup_slots t a like).map (f := fun n : String => Variable.shift n) fun n n' h => by cases h; rfl
    rw [map_map] at hnames ⊢
    exact hnames
  · exact List.nodup_nil

/-! ## Values for entries -/

/-- Whether a name is one of a variable that paths share. -/
def IsShared (n : String) : Prop := n.toList.head? = some 'c'

instance (n : String) : Decidable (IsShared n) := inferInstanceAs (Decidable (_ = _))

theorem isShared_of_mem_slots (h : n ∈ (slots t a like).map Prod.fst) : IsShared n := by
  obtain ⟨i, rfl | rfl⟩ := mem_names_slots h
  · simp [IsShared, entryName]
  · simp [IsShared, entryName]

/-- The assignment that gives values to the variables of entries, and to their displacements. -/
def realize (o : Options) (value shift : String → (w : Nat) → BitVec w) (ρ : Assignment) : Assignment
  | .plain n, w =>
    if IsShared n then (if o.randomize then value n w ^^^ shift n w else value n w) else ρ (.plain n) w
  | .shift (.plain n), w => shift n w
  | name, w => ρ name w

section Realize

theorem entryValue_realize (h : IsShared n) (w : Nat) :
    entryValue (realize o value shift ρ) (entryBits o n w) = .number w (value n w).toNat := by
  rw [entryValue, entryBits]
  cases hrandom : o.randomize with
  | false => simp [evalNat, eval, realize, h, hrandom]
  | true => simp [evalNat, eval, BinOp.eval, realize, h, hrandom]

@[simp] theorem view_realize (s : Solution) :
    (ofSolution s).view (realize o value shift ρ) = (ofSolution s).view ρ := by
  funext name w
  have hname : ¬ IsShared ((ofSolution s).mark ++ name.display) := by
    simp [IsShared, ofSolution]
  simp [view, variableName, realize, hname]

end Realize

/-! ## New entries -/

def tiedTo (ρ : Assignment) (slots : List (String × Bits)) (n : String) (w : Nat) : BitVec w :=
  BitVec.ofNat w (((Dict.lookup n slots).map (·.evalNat ρ)).getD 0)

theorem satisfies_ties_realize (hts : (ofSolution s).tables = .ok ts)
    (hnodup : ((ts.flatMap fun x => slots x.1 x.2.1 x.2.2).map Prod.fst).Nodup) :
    (realize o (tiedTo ρ (ts.flatMap fun x => slots x.1 x.2.1 x.2.2)) (fun _ _ => 0) ρ).Satisfies
      (ts.flatMap fun x => ties (newEntry o x.1 x.2.1 x.2.2) x.2.2) := by
  intro f hf
  obtain ⟨⟨t, a, like⟩, hx, hf⟩ := List.mem_flatMap.mp hf
  rw [ties_newEntry] at hf
  obtain ⟨⟨n, b⟩, hslot, rfl⟩ := mem_map.mp hf
  have hname : n ∈ (slots t a like).map Prod.fst := mem_map_of_mem hslot
  have hlookup := lookup_of_mem hnodup (List.mem_flatMap.mpr ⟨_, hx, hslot⟩)
  refine (eval_equation _ _).mpr ?_
  rw [entryValue_realize (isShared_of_mem_slots hname), tiedTo, hlookup]
  -- what the variable is tied to is a bit vector of the path
  obtain ⟨b', rfl⟩ := exists_bits_of_mem hts hx (mem_of_mem_slots hslot)
  rw [entryValue_bits, view_realize, ← entryValue_bits]
  simp [entryValue, Nat.mod_eq_of_lt (evalNat_lt ρ _)]

/-! ## Draws -/

/-- The assignment with other displacements, under which entries keep their values. -/
def redraw (o : Options) (shift : String → (w : Nat) → BitVec w) (ρ : Assignment) : Assignment :=
  realize o (fun n w => BitVec.ofNat w ((entryBits o n w).evalNat ρ)) shift ρ

/-- A bit vector that does not depend on the displacements of entries. -/
def SteadyBits (o : Options) (b : Bits) : Prop :=
  ∀ shift ρ, entryValue (redraw o shift ρ) b = entryValue ρ b

/-- A formula that does not depend on the displacements of entries. -/
def Steady (o : Options) (f : Formula) : Prop := ∀ shift ρ, f.eval (redraw o shift ρ) = f.eval ρ

section Steady

theorem steadyBits_entryBits (h : IsShared n) (w : Nat) : SteadyBits o (entryBits o n w) := by
  intro shift ρ
  have hlt : (entryBits o n w).evalNat ρ < 2 ^ w := by
    simpa using evalNat_lt ρ (entryBits o n w)
  rw [redraw, entryValue_realize h, entryValue, width_entryBits, BitVec.toNat_ofNat, Nat.mod_eq_of_lt hlt]

theorem steadyBits_newEntry (t a : Label) (like : SharedEntry) :
    ∀ b ∈ (newEntry o t a like).key ++ (newEntry o t a like).params, SteadyBits o b := by
  have hslots : (newEntry o t a like).key ++ (newEntry o t a like).params =
      (slots t a like).map fun s => entryBits o s.1 s.2.width := by
    rw [newEntry, entryNames_eq, slots, map_append, map_namesFor (entryBits o), map_namesFor (entryBits o)]
  rw [hslots]
  intro b hb
  obtain ⟨s, hs, rfl⟩ := mem_map.mp hb
  exact steadyBits_entryBits (isShared_of_mem_slots (mem_map_of_mem hs)) _

theorem steadyBits_bits (s : Solution) (b : Bits) : SteadyBits o ((ofSolution s).bits b) := by
  intro shift ρ
  rw [entryValue_bits, redraw, view_realize, ← entryValue_bits]

theorem steady_equation (hx : SteadyBits o x) (hy : SteadyBits o y) : Steady o (equation x y) := by
  intro shift ρ
  rw [Bool.eq_iff_iff]
  exact (eval_equation x y).trans (by rw [hx shift ρ, hy shift ρ]; exact (eval_equation x y).symm)

theorem steady_different (hx : ∀ x ∈ xs, SteadyBits o x) (hy : ∀ y ∈ ys, SteadyBits o y) :
    Steady o (different xs ys) := by
  intro shift ρ
  have hpair : ∀ p ∈ xs.zip ys, (equation p.1 p.2).eval (redraw o shift ρ) = (equation p.1 p.2).eval ρ := by
    intro p hp
    obtain ⟨hxs, hys⟩ := List.of_mem_zip hp
    exact steady_equation (hx _ hxs) (hy _ hys) shift ρ
  rw [different, eval_any, eval_any, List.any_map, List.any_map, Bool.eq_iff_iff, List.any_eq_true,
    List.any_eq_true]
  refine exists_congr fun p => and_congr_right fun hp => ?_
  simp [eval, hpair p hp]

theorem steady_constraints (s : Solution) : ∀ f ∈ (ofSolution s).constraints, Steady o f := by
  intro f hf shift ρ
  obtain ⟨g, -, rfl⟩ := mem_map.mp hf
  have hview (ρ : Assignment) : (g.rename (ofSolution s).variableName).eval ρ =
      g.eval ((ofSolution s).view ρ) := g.eval_rename _ ρ
  rw [hview, hview, redraw, view_realize]

end Steady

def drawnAt (draw : Nat → Nat) (displacements : List (Variable × Nat)) (n : String) (w : Nat) : BitVec w :=
  BitVec.ofNat w (draw (displacements.idxOf (.shift n, w)))

theorem satisfies_fixed_redraw {displacements : List (Variable × Nat)} (hnodup : displacements.Nodup)
    (hshift : ∀ d ∈ displacements, ∃ n : String, d.1 = .shift n) (draw : Nat → Nat) (ρ : Assignment) :
    (redraw o (drawnAt draw displacements) ρ).Satisfies (PathSolver.fixed draw displacements) := by
  intro f hf
  obtain ⟨⟨⟨name, w⟩, i⟩, hmem, rfl⟩ := mem_map.mp hf
  have hget : displacements[i]? = some (name, w) := List.mem_zipIdx_iff_getElem?.mp hmem
  obtain ⟨n, hn⟩ := hshift (name, w) (List.mem_of_getElem? hget)
  obtain rfl : name = .shift n := hn
  obtain ⟨hi, hget⟩ := List.getElem?_eq_some_iff.mp hget
  have hplace : displacements.idxOf (.shift n, w) = i := by simpa only [hget] using hnodup.idxOf_getElem i hi
  simp [eval, Relation.eval, redraw, realize, drawnAt, hplace]

/-! ## Finding entries -/

/-- The formulas that a path needs at a table. -/
def demands (o : Options) (entries : SharedEntries) (x : TableUse) : List Formula :=
  match entries.find? x.1 x.2.1 with
  | some e => ties e x.2.2
  | none =>
    (entries.getD x.1 {}).values.map (fun other => different (newEntry o x.1 x.2.1 x.2.2).key other.key) ++
      ties (newEntry o x.1 x.2.1 x.2.2) x.2.2

/-- The displacements that are needed for a path at a table. -/
def shiftsFor (o : Options) (entries : SharedEntries) (x : TableUse) : List (Variable × Nat) :=
  match entries.find? x.1 x.2.1 with
  | some _ => []
  | none => newShifts o x.1 x.2.1 x.2.2

theorem of_mem_shiftsFor {entries : SharedEntries} (h : d ∈ shiftsFor o entries x) :
    entries.find? x.1 x.2.1 = none ∧ d ∈ newShifts o x.1 x.2.1 x.2.2 := by
  rw [shiftsFor] at h
  split at h
  · cases h
  · next hnone => exact ⟨hnone, h⟩

structure Met (entries : SharedEntries) (x : TableUse) : Prop where
  found : ∀ e, entries.find? x.1 x.2.1 = some e →
    sameWidths e.key x.2.2.key = true ∧ sameWidths e.params x.2.2.params = true
  others : ∀ other ∈ (entries.getD x.1 {}).values, sameWidths other.key x.2.2.key = true
  legal : ∀ b ∈ x.2.2.key ++ x.2.2.params, Legal b.width

theorem tie_of_met (hnodup : (ts.map Prod.fst).Nodup) (hpending : ∀ x ∈ ts, b.pending.find? x.1 x.2.1 = none)
    (hmet : ∀ x ∈ ts, Met b.entries x) :
    ∃ pending, tie o ts b = .ok (ts.flatMap (demands o b.entries),
      { b with pending := pending, displacements := b.displacements ++ ts.flatMap (shiftsFor o b.entries) }) := by
  induction ts generalizing b with
  | nil => exact ⟨b.pending, by simp [tie]⟩
  | cons x ts ih =>
    obtain ⟨t, a, like⟩ := x
    obtain ⟨hfirst, hrest⟩ := List.nodup_cons.mp hnodup
    obtain ⟨hnone, hpending⟩ := forall_mem_cons.mp hpending
    obtain ⟨hx, hmet⟩ := forall_mem_cons.mp hmet
    cases hfind : b.entries.find? t a with
    | some e =>
      obtain ⟨pending, hok⟩ := ih hrest hpending hmet
      refine ⟨pending, bind_eq_ok.mpr ⟨_, (entryFor_of_some hfind).mpr ⟨hx.found e hfind, rfl⟩, ?_⟩⟩
      refine bind_eq_ok.mpr ⟨_, hok, ?_⟩
      simp [demands, shiftsFor, hfind, ties, pure, Except.pure]
    | none =>
      have hlater : ∀ y ∈ ts, (b.withEntry o t a like).pending.find? y.1 y.2.1 = none := by
        intro y hy
        rw [find?_withEntry, if_neg, hpending y hy]
        rintro ⟨heq, -⟩
        exact hfirst (mem_map.mpr ⟨y, hy, heq.symm⟩)
      obtain ⟨pending, hok⟩ := ih hrest hlater hmet
      have hlegal := List.forall_mem_append.mp hx.legal
      refine ⟨pending, bind_eq_ok.mpr ⟨_, (entryFor_of_none hfind).mpr
        ⟨⟨hx.others, hlegal.1, hlegal.2, hnone⟩, rfl⟩, ?_⟩⟩
      refine bind_eq_ok.mpr ⟨_, hok, ?_⟩
      simp [demands, shiftsFor, hfind, ties, withEntry, pure, Except.pure]

/-! ## Pending entries -/

theorem commitEntries_of_new {new : List (Label × SharedEntry)} (hnodup : (new.map Prod.fst).Nodup)
    (hnone : ∀ x ∈ new, known.get? x.1 = none) : ∃ known', new.foldlM commitEntry known = .ok known' := by
  induction new generalizing known with
  | nil => exact ⟨known, rfl⟩
  | cons x new ih =>
    obtain ⟨hfirst, hrest⟩ := List.nodup_cons.mp hnodup
    obtain ⟨hx, hnone⟩ := forall_mem_cons.mp hnone
    have hlater : ∀ y ∈ new, (known.insert x.1 x.2).get? y.1 = none := by
      intro y hy
      rw [get?_insert, if_neg, hnone y hy]
      intro heq
      exact hfirst (heq ▸ mem_map_of_mem hy)
    obtain ⟨known', hok⟩ := ih hrest hlater
    exact ⟨known', bind_eq_ok.mpr ⟨_, commitEntry_eq_ok.mpr ⟨hx, rfl⟩, hok⟩⟩

theorem commit_of_new (hpending : b.pending.WellFormed)
    (hnew : ∀ t a, b.pending.find? t a ≠ none → b.entries.find? t a = none) : ∃ b', b.commit = .ok b' := by
  have hall (new : List (Label × Dict Label SharedEntry)) (entries : SharedEntries)
      (htables : (new.map Prod.fst).Nodup) (hactions : ∀ x ∈ new, x.2.keys.Nodup)
      (hnone : ∀ x ∈ new, ∀ y ∈ x.2.entries, entries.find? x.1 y.1 = none) :
      ∃ entries', new.foldlM commitTable entries = .ok entries' := by
    induction new generalizing entries with
    | nil => exact ⟨entries, rfl⟩
    | cons x new ih =>
      obtain ⟨hfirst, hrest⟩ := List.nodup_cons.mp htables
      obtain ⟨hx, hactions⟩ := forall_mem_cons.mp hactions
      obtain ⟨hnonex, hnone⟩ := forall_mem_cons.mp hnone
      obtain ⟨known, hknown⟩ := commitEntries_of_new hx hnonex
      have hlater : ∀ y ∈ new, ∀ z ∈ y.2.entries, SharedEntries.find? (entries.insert x.1 known) y.1 z.1 = none := by
        intro y hy z hz
        have hne : x.1 ≠ y.1 := fun heq => hfirst (heq ▸ mem_map_of_mem hy)
        rw [← hnone y hy z hz]
        simp [SharedEntries.find?, Dict.getD, hne]
      obtain ⟨entries', hok⟩ := ih (entries.insert x.1 known) hrest hactions hlater
      exact ⟨entries', bind_eq_ok.mpr ⟨_, bind_eq_ok.mpr ⟨known, hknown, rfl⟩, hok⟩⟩
  obtain ⟨entries, hok⟩ := hall b.pending.entries b.entries hpending.tables
    (fun x hx => hpending.actions x.2 (mem_map_of_mem hx))
    (fun x hx y hy => hnew x.1 y.1 (by rw [hpending.find?_of_mem hx hy]; simp))
  exact ⟨_, bind_eq_ok.mpr ⟨entries, hok, rfl⟩⟩

end Batch

end PacketSmith
