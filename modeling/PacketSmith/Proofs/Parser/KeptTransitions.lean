import Mathlib.Data.List.Basic
import Mathlib.Data.List.Induction
import PacketSmith.Proofs.Parser.Edges
import PacketSmith.Proofs.Parser.FirstMatch

/-!
# The transitions that are kept

Of the transitions with one value and one mask only the first is kept. A key fits all of them or
none, so the first transition that fits is kept (`find?_distinct`). The constraints of a transition
that is kept hold if and only if it is the first one of the whole list that fits
(`ParseState.constraints_first`).
-/

namespace PacketSmith

open List Option Bits

namespace Transition

variable {ρ : Assignment} {keys : List Bits} {t : Transition}

/-! ## Keys as numbers -/

/-- One more element of a key, in whole bytes, after those that make up a number of a width. -/
def pack (ρ : Assignment) (key : Nat × Nat) (k : Bits) : Nat × Nat :=
  let size := 8 * ((k.width + 7) / 8)
  (key.1 + size, key.2 * 2 ^ size + k.evalNat ρ)

/-- Whether the key agrees with the value of a transition in the bits of its mask. Every key agrees
with a default. -/
def fits (ρ : Assignment) (keys : List Bits) (t : Transition) : Bool :=
  match t.value with
  | none => true
  | some value =>
    let key := keys.foldl (pack ρ) (0, 0)
    let mask := BitVec.ofInt key.1 (t.mask.getD (-1))
    BitVec.ofNat key.1 key.2 &&& mask == BitVec.ofInt key.1 value &&& mask

theorem evalNat_sideBySide (ρ : Assignment) (a b : Bits) :
    (sideBySide a b).evalNat ρ = a.evalNat ρ * 2 ^ b.width + b.evalNat ρ := by
  rw [evalNat, sideBySide, Term.eval, BitVec.toNat_append, ← Nat.shiftLeft_eq,
    Nat.shiftLeft_add_eq_or_of_lt (evalNat_lt ρ b)]
  rfl

theorem foldl_sideBySide (ρ : Assignment) (keys : List Bits) (a : Bits) :
    keys.foldl (pack ρ) (a.width, a.evalNat ρ) = (((keys.map wholeBytes).foldl sideBySide a).width,
      ((keys.map wholeBytes).foldl sideBySide a).evalNat ρ) := by
  rw [foldl_map]
  refine foldl_hom (fun a : Bits => (a.width, a.evalNat ρ)) fun a k => ?_
  have hbytes : (wholeBytes k).evalNat ρ = k.evalNat ρ := evalNat_resize ρ (by omega)
  rw [evalNat_sideBySide, hbytes]
  rfl

theorem mapM_map_some {f : Option Bits → Except Fault Bits} (hf : ∀ k, f (some k) = .ok (wholeBytes k))
    (keys : List Bits) : (keys.map some).mapM f = .ok (keys.map wholeBytes) := by
  induction keys with
  | nil => rfl
  | cons k keys ih =>
    rw [map_cons, mapM_cons, ih, hf]
    rfl

theorem agrees_iff_fits (hne : keys ≠ []) (ht : t.value.isSome = true) :
    Agrees (keys.map some) ρ t ↔ fits ρ keys t = true := by
  obtain ⟨value, hvalue⟩ := isSome_iff_exists.mp ht
  obtain ⟨k, ks, rfl⟩ := exists_cons_of_ne_nil hne
  have hpack : (k :: ks).foldl (pack ρ) (0, 0) = (((ks.map wholeBytes).foldl sideBySide (wholeBytes k)).width,
      ((ks.map wholeBytes).foldl sideBySide (wholeBytes k)).evalNat ρ) := by
    rw [← foldl_sideBySide, foldl_cons, pack, wholeBytes, evalNat_resize ρ (by omega)]
    simp
  have hpresent : none ∉ (k :: ks).map some := by simp
  obtain ⟨f, hf⟩ := exists_agrees hpresent (by simp) ht
  have hagrees : Agrees ((k :: ks).map some) ρ t ↔ f.eval ρ = true := by
    rw [Agrees, hf]
    simp
  simp only [agrees, keyConstraint, hvalue, map_cons, head?_cons] at hf
  obtain ⟨parts, hparts, hf⟩ := bind_eq_ok.mp hf
  obtain rfl := Except.ok.inj (hparts.symm.trans (mapM_map_some (fun _ => rfl) (k :: ks)))
  cases hf
  rw [hagrees, fits, hvalue]
  rw [hpack]
  simp [Term.eval, Relation.eval, BinOp.eval, evalNat]

/-! ## The first transition -/

theorem distinct_concat (ts : List Transition) (t : Transition) :
    distinct (ts ++ [t]) = if (distinct ts).any fun k => k.value == t.value && k.mask == t.mask
      then distinct ts else distinct ts ++ [t] := by
  rw [distinct, foldl_append]
  rfl

theorem mem_of_mem_distinct (h : t ∈ distinct ts) : t ∈ ts := by
  induction ts using reverseRecOn with
  | nil => cases h
  | append_singleton ts a ih =>
    rw [distinct_concat] at h
    split at h
    · exact mem_append_left _ (ih h)
    · exact mem_append.mpr ((mem_append.mp h).imp_left ih)

theorem mem_dropLast_of_distinct (h : t ∈ (distinct ts).dropLast) : t ∈ ts.dropLast := by
  obtain rfl | ⟨front, a, rfl⟩ := eq_nil_or_concat' ts
  · cases h
  · rw [dropLast_concat]
    rw [distinct_concat] at h
    split at h
    · exact mem_of_mem_distinct (dropLast_subset _ h)
    · rw [dropLast_concat] at h
      exact mem_of_mem_distinct h

theorem find?_distinct (hq : ∀ a b : Transition, a.value = b.value → a.mask = b.mask → q a = q b)
    (ts : List Transition) : (distinct ts).find? q = ts.find? q := by
  induction ts using reverseRecOn with
  | nil => rfl
  | append_singleton ts a ih =>
    rw [distinct_concat, find?_append, ← ih]
    split
    · next hany =>
      -- the last one fits only if one before it does
      obtain ⟨k, hk, heq⟩ := any_eq_true.mp hany
      rw [Bool.and_eq_true, beq_iff_eq, beq_iff_eq] at heq
      cases ha : q a with
      | false => simp [ha]
      | true =>
        have hsome := find?_isSome.mpr ⟨k, hk, (hq k a heq.1 heq.2).trans ha⟩
        obtain ⟨found, hfound⟩ := isSome_iff_exists.mp hsome
        rw [hfound, some_or]
    · rw [find?_append]

theorem first_iff_find? (hne : keys ≠ []) (hdefault : ∀ t ∈ ts.dropLast, t.value.isSome = true) (ht : t ∈ ts) :
    First (keys.map some) ts ρ t ↔ ts.find? (fits ρ keys) = some t := by
  have hbefore := isSome_of_mem_takeWhile hdefault ht
  have hown : (t.value.isSome = true → Agrees (keys.map some) ρ t) ↔ fits ρ keys t = true := by
    cases hvalue : t.value with
    | none => simp [fits, hvalue]
    | some value => simp [agrees_iff_fits hne (t := t) (by simp [hvalue])]
  obtain ⟨as, bs, rfl, hnot⟩ := eq_append_cons_of_mem ht
  have htake : (as ++ t :: bs).takeWhile (· != t) = as := by
    rw [takeWhile_append_of_pos fun a ha => bne_iff_ne.mpr (ne_of_mem_of_not_mem ha hnot),
      takeWhile_cons_of_neg (by simp), append_nil]
  rw [htake] at hbefore
  rw [First, htake, hown, find?_append]
  constructor
  · rintro ⟨hnone, hfit⟩
    have has : as.find? (fits ρ keys) = none :=
      find?_eq_none.mpr fun a ha hfits => hnone a ha ((agrees_iff_fits hne (hbefore a ha)).mpr hfits)
    rw [has, none_or, find?_cons, hfit]
  · intro hfind
    cases has : as.find? (fits ρ keys) with
    | some a =>
      rw [has] at hfind
      exact absurd (some.inj hfind ▸ mem_of_find?_eq_some has) hnot
    | none =>
      rw [has] at hfind
      refine ⟨fun a ha hagrees => ?_, find?_some hfind⟩
      exact find?_eq_none.mp has a ha ((agrees_iff_fits hne (hbefore a ha)).mp hagrees)

end Transition

namespace ParseState

open Transition

variable {table : ErrorTable} {lengthErrors : Bool} {v : Json} {s : ParseState} {ts : List Transition}

/-- The transitions of a state as they are written. -/
def readTransitions (v : Json) : Except Fault (List Transition) := do
  (← (← v.get "transitions").items).mapM Transition.ofJson

theorem transitions_eq (hload : ofJson table lengthErrors v = .ok s) (hread : readTransitions v = .ok ts) :
    s.transitions = distinct ts := by
  obtain ⟨_ | name, -, h⟩ := bind_eq_ok.mp hload
  · cases h
  obtain ⟨_ | id, -, h⟩ := bind_eq_ok.mp h
  · cases h
  simp only [bind_eq_ok] at h
  obtain ⟨_, -, _, -, _, -, _, -, member, hmember, entries, hentries, transitions, htransitions, _, -, _, -, _, -, h⟩ := h
  rw [readTransitions, hmember] at hread
  simp only [bind, Except.bind, hentries, htransitions] at hread
  cases hread
  split at h <;> cases h <;> rfl

/-- The constraints of a transition that is kept can be stated, and they hold if and only if it is
the first one of the list as it was read that fits the key. A key needs elements unless there is
nothing to compare it with. -/
theorem constraints_first (hload : ofJson table lengthErrors v = .ok s) (hread : readTransitions v = .ok ts)
    (hdefault : ∀ t ∈ ts.dropLast, t.value.isSome = true) (keys : List Bits)
    (hkeys : keys = [] → ∀ t ∈ ts, t.value = none) (ρ : Assignment) :
    (∀ t ∈ s.transitions, ∃ fs, constraints (keys.map some) s.transitions t = .ok fs ∧
      (ρ.Satisfies fs ↔ ts.find? (fits ρ keys) = some t)) ∧
    (∀ t, ts.find? (fits ρ keys) = some t → t ∈ s.transitions) ∧
    ((∃ t ∈ ts, t.value = none) → ∃ t, ts.find? (fits ρ keys) = some t) := by
  rw [transitions_eq hload hread]
  have hfind : (distinct ts).find? (fits ρ keys) = ts.find? (fits ρ keys) :=
    find?_distinct (fun a b hvalue hmask => by simp [fits, hvalue, hmask]) ts
  refine ⟨fun t ht => ?_, fun t ht => mem_of_find?_eq_some (hfind ▸ ht), fun ⟨t, ht, hnone⟩ => ?_⟩
  · have hkept : ∀ t ∈ (distinct ts).dropLast, t.value.isSome = true := fun t ht =>
      hdefault t (mem_dropLast_of_distinct ht)
    by_cases hne : keys = []
    · -- nothing comes before a default that stands alone
      have hnone := hkeys hne t (mem_of_mem_distinct ht)
      have hfront : ts.dropLast = [] := eq_nil_iff_forall_not_mem.mpr fun a ha => by
        simpa [hkeys hne a (dropLast_subset _ ha)] using hdefault a ha
      obtain rfl | ⟨front, a, rfl⟩ := eq_nil_or_concat' ts
      · cases ht
      · rw [dropLast_concat] at hfront
        subst hfront
        obtain rfl := mem_singleton.mp (mem_of_mem_distinct ht)
        refine ⟨[], ?_, by simp [fits, hnone]⟩
        simp only [hne, constraints, distinct, nil_append, foldl_cons, foldl_nil, any_nil,
          Bool.false_eq_true, if_false, takeWhile_cons, bne_self_eq_false, hnone, Option.isSome_none]
        rfl
    · have hpresent : none ∉ keys.map some := by simp
      obtain ⟨fs, hfs, hsat⟩ := constraints_ok hpresent (by simpa using hne) (isSome_of_mem_takeWhile hkept ht)
      exact ⟨fs, hfs, by rw [hsat, first_iff_find? hne hkept ht, hfind]⟩
  · exact Option.isSome_iff_exists.mp (List.find?_isSome.mpr ⟨t, ht, by simp [fits, hnone]⟩)

end ParseState

def Small.repeating : Json :=
  state "start" [] [] [transition (some "0x01") (some "a"), transition (some "0x01") (some "b"), transition none none]

/-- The second of three transitions is left out, and of the others one is taken. -/
theorem ParseState.constraints_first_repeating :
    ∃ s t fs, ParseState.ofJson {} false Small.repeating = .ok s ∧ s.transitions.length = 2 ∧ t.target = .text "a" ∧
      Transition.constraints [some ⟨8, .var "k" 8⟩] s.transitions t = .ok fs ∧
      Assignment.Satisfies (fun _ w => BitVec.ofNat w 1) fs := by
  have hcomputed : (ParseState.ofJson {} false Small.repeating).toOption.any (fun s =>
      (readTransitions Small.repeating).toOption.any fun ts =>
        s.transitions.length = 2 ∧ (∀ t ∈ ts.dropLast, t.value.isSome = true) ∧
          ((ts.find? (Transition.fits (fun _ w => BitVec.ofNat w 1) [⟨8, .var "k" 8⟩])).map
            Transition.target) = some (.text "a")) = true := by
    decide +kernel
  obtain ⟨s, hload, h⟩ := Small.ok_of_any hcomputed
  obtain ⟨ts, hread, h⟩ := Small.ok_of_any h
  obtain ⟨htwo, hdefault, hfind⟩ := of_decide_eq_true h
  obtain ⟨t, hfind, ha⟩ := Option.map_eq_some_iff.mp hfind
  obtain ⟨hall, hkept, -⟩ := ParseState.constraints_first hload hread hdefault [⟨8, .var "k" 8⟩] (by simp)
    fun _ w => BitVec.ofNat w 1
  obtain ⟨fs, hfs, hsat⟩ := hall t (hkept t hfind)
  exact ⟨s, t, fs, hload, htwo, ha, hfs, hsat.mpr hfind⟩

end PacketSmith
