import Mathlib.Data.List.TakeWhile
import PacketSmith.Proofs.Packet.BitStrings
import PacketSmith.Symbolic.ParserPath

/-!
# The first transition that agrees

The constraints of a transition hold if it is the first one to agree with the key (`First`), and those of transitions
taken as one hold if one of them is (`compositeConstraints_ok`): looking from the first of them on is the same search
cut in two (`takeWhile_split`). Every transition but the last one needs a value to compare with.
-/

namespace PacketSmith

open List

variable {α β ε : Type}

theorem bind_eq_error {f : α → Except ε β} : (m >>= f) = .error e ↔ m = .error e ∨ ∃ a, m = .ok a ∧ f a = .error e := by
  cases m <;> simp [bind, Except.bind]

theorem mem_of_mapM_error {f : α → Except ε β} {as : List α} (h : as.mapM f = .error e) : ∃ a ∈ as, f a = .error e := by
  induction as with
  | nil => cases h
  | cons a as ih =>
    rw [mapM_cons] at h
    rcases bind_eq_error.mp h with h | ⟨b, -, h⟩
    · exact ⟨a, mem_cons_self, h⟩
    · rcases bind_eq_error.mp h with h | ⟨bs, -, h⟩
      · obtain ⟨a', ha', he⟩ := ih h
        exact ⟨a', mem_cons_of_mem _ ha', he⟩
      · cases h

namespace Transition

variable {keys : List (Option Bits)} {all parts ts : List Transition} {t : Transition}

def Agrees (keys : List (Option Bits)) (ρ : Assignment) (t : Transition) : Prop :=
  ∃ f, agrees keys t = .ok f ∧ f.eval ρ = true

def First (keys : List (Option Bits)) (all : List Transition) (ρ : Assignment) (t : Transition) : Prop :=
  (∀ t' ∈ all.takeWhile (· != t), ¬ Agrees keys ρ t') ∧ (t.value.isSome = true → Agrees keys ρ t)

/-! ## Keys -/

theorem agrees_ok_or (hne : keys ≠ []) (ht : t.value.isSome = true) :
    (none ∉ keys ∧ ∃ f, agrees keys t = .ok f) ∨ (none ∈ keys ∧ agrees keys t = .error .noPart) := by
  obtain ⟨value, hvalue⟩ := Option.isSome_iff_exists.mp ht
  obtain ⟨k, ks, rfl⟩ := exists_cons_of_ne_nil hne
  cases hr : agrees (k :: ks) t with
  | ok f =>
    simp only [agrees, keyConstraint, hvalue, List.head?_cons] at hr
    obtain ⟨parts, hparts, -⟩ := bind_eq_ok.mp hr
    refine .inl ⟨fun hmissing => ?_, f, rfl⟩
    obtain ⟨b, -, hb⟩ := mem_mapM hparts hmissing
    cases hb
  | error e =>
    simp only [agrees, keyConstraint, hvalue, List.head?_cons] at hr
    rcases bind_eq_error.mp hr with hparts | ⟨parts, hparts, hr⟩
    · obtain ⟨_ | k', hmem, he⟩ := mem_of_mapM_error hparts
      · cases he
        exact .inr ⟨hmem, rfl⟩
      · cases he
    · obtain ⟨b, hb, -⟩ := mem_mapM hparts mem_cons_self
      cases parts with
      | nil => cases hb
      | cons first rest => cases hr

theorem exists_agrees (hkeys : none ∉ keys) (hne : keys ≠ []) (ht : t.value.isSome = true) :
    ∃ f, agrees keys t = .ok f := by
  rcases agrees_ok_or hne ht with ⟨-, hok⟩ | ⟨hmissing, -⟩
  · exact hok
  · exact absurd hmissing hkeys

theorem agrees_of_missing (hkeys : none ∈ keys) (ht : t.value.isSome = true) : agrees keys t = .error .noPart := by
  rcases agrees_ok_or (ne_nil_of_mem hkeys) ht with ⟨hall, -⟩ | ⟨-, herror⟩
  · exact absurd hkeys hall
  · exact herror

/-! ## What comes before -/

theorem mem_dropLast_of_mem_takeWhile (h : ∃ t ∈ all, q t = false) : ∀ t ∈ all.takeWhile q, t ∈ all.dropLast := by
  induction all with
  | nil => simp
  | cons a as ih =>
    obtain ⟨b, hb, hfalse⟩ := h
    cases hq : q a with
    | false => simp [hq]
    | true =>
      have hrest : b ∈ as := by
        rcases mem_cons.mp hb with rfl | hb
        · rw [hq] at hfalse
          cases hfalse
        · exact hb
      intro t ht
      rw [takeWhile_cons_of_pos hq] at ht
      rw [dropLast_cons_of_ne_nil (ne_nil_of_mem hrest)]
      rcases mem_cons.mp ht with rfl | ht
      · exact mem_cons_self
      · exact mem_cons_of_mem _ (ih ⟨b, hrest, hfalse⟩ t ht)

theorem takeWhile_split (ht : t ∈ parts) :
    all.takeWhile (· != t) = (all.takeWhile fun t => !parts.contains t) ++
      (all.dropWhile fun t => !parts.contains t).takeWhile (· != t) := by
  have hbefore : ∀ t' ∈ all.takeWhile (fun t => !parts.contains t), (t' != t) = true := by
    intro t' ht'
    have hout : parts.contains t' = false := by
      simpa only [Bool.not_eq_true'] using mem_takeWhile_imp ht'
    rw [bne_iff_ne]
    rintro rfl
    rw [contains_iff_mem.mpr ht] at hout
    cases hout
  conv_lhs => rw [← takeWhile_append_dropWhile (p := fun t => !parts.contains t) (l := all)]
  exact takeWhile_append_of_pos hbefore

theorem first_split (ht : t ∈ parts) (ρ : Assignment) :
    First keys all ρ t ↔ (∀ t' ∈ all.takeWhile (fun t => !parts.contains t), ¬ Agrees keys ρ t') ∧
      First keys (all.dropWhile fun t => !parts.contains t) ρ t := by
  rw [First, First, takeWhile_split ht, forall_mem_append, and_assoc]

/-! ## Constraints -/

theorem noneOf_ok (hkeys : none ∉ keys) (hne : keys ≠ []) (hts : ∀ t ∈ ts, t.value.isSome = true) :
    ∃ fs, noneOf keys ts = .ok fs ∧ ∀ ρ : Assignment, ρ.Satisfies fs ↔ ∀ t ∈ ts, ¬ Agrees keys ρ t := by
  obtain ⟨fs, hfs⟩ := exists_mapM_eq_ok fun t ht => exists_agrees hkeys hne (hts t ht)
  refine ⟨_, by rw [noneOf, hfs]; rfl, fun ρ => ?_⟩
  have hany : (∃ f ∈ fs, f.eval ρ = true) ↔ ∃ t ∈ ts, Agrees keys ρ t := by
    constructor
    · rintro ⟨f, hf, hρ⟩
      obtain ⟨t, ht, hagrees⟩ := mem_of_mapM hfs f hf
      exact ⟨t, ht, f, hagrees, hρ⟩
    · rintro ⟨t, ht, f, hagrees, hρ⟩
      obtain ⟨f', hf', hagrees'⟩ := mem_mapM hfs ht
      obtain rfl := Except.ok.inj (hagrees.symm.trans hagrees')
      exact ⟨f, hf', hρ⟩
  have hnone := not_congr hany
  simp only [not_exists, not_and] at hnone
  rw [← hnone]
  cases fs with
  | nil => simp
  | cons f fs => simp [Term.eval, Term.eval_any]

theorem constraints_ok (hkeys : none ∉ keys) (hne : keys ≠ [])
    (hearlier : ∀ t' ∈ all.takeWhile (· != t), t'.value.isSome = true) :
    ∃ fs, constraints keys all t = .ok fs ∧ ∀ ρ : Assignment, ρ.Satisfies fs ↔ First keys all ρ t := by
  obtain ⟨earlier, hearlier, hsat⟩ := noneOf_ok hkeys hne hearlier
  cases ht : t.value.isSome with
  | false =>
    refine ⟨earlier, by simp [constraints, hearlier, ht, bind, Except.bind, pure, Except.pure], fun ρ => ?_⟩
    simp [First, hsat, ht]
  | true =>
    obtain ⟨f, hf⟩ := exists_agrees hkeys hne ht
    refine ⟨earlier ++ [f], by simp [constraints, hearlier, ht, hf, bind, Except.bind, pure, Except.pure], fun ρ => ?_⟩
    simp [First, hsat, ht, Agrees, hf]

theorem noneOf_of_missing (hkeys : none ∈ keys) (hne : ts ≠ []) (hts : ∀ t ∈ ts, t.value.isSome = true) :
    noneOf keys ts = .error .noPart := by
  obtain ⟨t, ts, rfl⟩ := exists_cons_of_ne_nil hne
  rw [noneOf, mapM_cons, agrees_of_missing hkeys (hts t mem_cons_self)]
  rfl

/-- Without a value for the key, a transition fails unless it is a default that stands alone. -/
theorem constraints_of_missing (hkeys : none ∈ keys) (hearlier : ∀ t' ∈ all.takeWhile (· != t), t'.value.isSome = true)
    (hne : all.takeWhile (· != t) ≠ [] ∨ t.value.isSome = true) : constraints keys all t = .error .noPart := by
  by_cases hnil : all.takeWhile (· != t) = []
  · have ht := hne.resolve_left (not_not_intro hnil)
    simp [constraints, hnil, noneOf, ht, agrees_of_missing hkeys ht, bind, Except.bind, pure, Except.pure]
  · rw [constraints, noneOf_of_missing hkeys hnil hearlier]
    rfl

section Composite

variable (hdefault : ∀ t ∈ all.dropLast, t.value.isSome = true) (hparts : ∀ t ∈ parts, t ∈ all) (hsome : parts ≠ [])

include hdefault in
theorem isSome_of_mem_takeWhile (ht : t ∈ all) : ∀ t' ∈ all.takeWhile (· != t), t'.value.isSome = true :=
  fun t' ht' => hdefault t' (mem_dropLast_of_mem_takeWhile ⟨t, ht, by simp⟩ t' ht')

include hdefault hparts in
theorem isSome_before (ht : t ∈ parts) : ∀ t' ∈ all.takeWhile (fun t => !parts.contains t), t'.value.isSome = true :=
  fun t' ht' => isSome_of_mem_takeWhile hdefault (hparts t ht) t' (takeWhile_split ht ▸ mem_append_left _ ht')

include hdefault hparts in
theorem isSome_between (ht : t ∈ parts) :
    ∀ t' ∈ (all.dropWhile fun t => !parts.contains t).takeWhile (· != t), t'.value.isSome = true :=
  fun t' ht' => isSome_of_mem_takeWhile hdefault (hparts t ht) t' (takeWhile_split ht ▸ mem_append_right _ ht')

include hdefault hparts hsome in
theorem compositeConstraints_eq : compositeConstraints keys all parts = (do
      let earlier ← noneOf keys (all.takeWhile fun t => !parts.contains t)
      let each ← parts.mapM fun t => Term.all <$> constraints keys (all.dropWhile fun t => !parts.contains t) t
      return earlier ++ [Term.any each]) := by
  obtain ⟨t, ht⟩ := exists_mem_of_ne_nil parts hsome
  have hrest : (all.dropWhile fun t => !parts.contains t).isEmpty = false := by
    cases hempty : all.dropWhile fun t => !parts.contains t with
    | cons a as => rfl
    | nil =>
      have hall := dropWhile_eq_nil_iff.mp hempty t (hparts t ht)
      rw [contains_iff_mem.mpr ht] at hall
      cases hall
  have hmap : ∀ ts : List Transition, (∀ t ∈ ts, t.value.isSome = true) → (ts.mapM fun t => do
        require t.value.isSome (.refuted "Reached default transition before first component transition")
        agrees keys t) = ts.mapM (agrees keys) := by
    intro ts hts
    induction ts with
    | nil => rfl
    | cons a as ih =>
      rw [mapM_cons, mapM_cons, ih fun t ht => hts t (mem_cons_of_mem _ ht), hts a mem_cons_self]
      rfl
  rw [compositeConstraints, hmap _ (isSome_before hdefault hparts ht), noneOf]
  simp only [hrest, bind_assoc, pure_bind, Bool.not_false]
  rfl

include hdefault hparts hsome in
theorem compositeConstraints_ok (hkeys : none ∉ keys) (hne : keys ≠ []) :
    ∃ fs, compositeConstraints keys all parts = .ok fs ∧
      ∀ ρ : Assignment, ρ.Satisfies fs ↔ ∃ t ∈ parts, First keys all ρ t := by
  obtain ⟨t₀, ht₀⟩ := exists_mem_of_ne_nil parts hsome
  obtain ⟨earlier, hbefore, hsat⟩ := noneOf_ok hkeys hne (isSome_before hdefault hparts ht₀)
  have heach : ∀ t ∈ parts, ∃ fs, constraints keys (all.dropWhile fun t => !parts.contains t) t = .ok fs ∧
      ∀ ρ : Assignment, ρ.Satisfies fs ↔ First keys (all.dropWhile fun t => !parts.contains t) ρ t :=
    fun t ht => constraints_ok hkeys hne (isSome_between hdefault hparts ht)
  obtain ⟨each, hmap⟩ := exists_mapM_eq_ok (f := fun t =>
      Term.all <$> constraints keys (all.dropWhile fun t => !parts.contains t) t) fun t ht => by
    obtain ⟨fs, hfs, -⟩ := heach t ht
    exact ⟨Term.all fs, by rw [hfs]; rfl⟩
  refine ⟨_, by rw [compositeConstraints_eq hdefault hparts hsome, hbefore, hmap]; rfl, fun ρ => ?_⟩
  have hany : (∃ f ∈ each, f.eval ρ = true) ↔
      ∃ t ∈ parts, First keys (all.dropWhile fun t => !parts.contains t) ρ t := by
    constructor
    · rintro ⟨f, hf, hρ⟩
      obtain ⟨t, ht, hall⟩ := mem_of_mapM hmap f hf
      obtain ⟨fs, hfs, hfirst⟩ := heach t ht
      rw [hfs] at hall
      cases hall
      refine ⟨t, ht, (hfirst ρ).mp fun f hf => ?_⟩
      rw [Term.eval_all, all_eq_true] at hρ
      exact hρ f hf
    · rintro ⟨t, ht, hfirst⟩
      obtain ⟨fs, hfs, hiff⟩ := heach t ht
      obtain ⟨f, hf, hall⟩ := mem_mapM hmap ht
      rw [hfs] at hall
      cases hall
      refine ⟨_, hf, ?_⟩
      rw [Term.eval_all, all_eq_true]
      exact (hiff ρ).mpr hfirst
  rw [Assignment.satisfies_append, hsat, Assignment.satisfies_cons, Term.eval_any, any_eq_true, hany]
  constructor
  · rintro ⟨hbefore, ⟨t, ht, hfirst⟩, -⟩
    exact ⟨t, ht, (first_split ht ρ).mpr ⟨hbefore, hfirst⟩⟩
  · rintro ⟨t, ht, hfirst⟩
    obtain ⟨hbefore, hfirst⟩ := (first_split ht ρ).mp hfirst
    exact ⟨hbefore, ⟨t, ht, hfirst⟩, Assignment.satisfies_nil⟩

include hdefault in
theorem constraints_of_missing_of_mem (htwo : 2 ≤ all.length) (hkeys : none ∈ keys) (ht : t ∈ all) :
    constraints keys all t = .error .noPart := by
  refine constraints_of_missing hkeys (isSome_of_mem_takeWhile hdefault ht) ?_
  obtain ⟨a, b, rest, rfl⟩ : ∃ a b rest, all = a :: b :: rest := by
    rcases all with _ | ⟨a, _ | ⟨b, rest⟩⟩
    · simp at htwo
    · simp at htwo
    · exact ⟨a, b, rest, rfl⟩
  by_cases ha : a = t
  · subst ha
    exact .inr (hdefault a (by simp))
  · simp [takeWhile_cons, ha]

include hdefault hparts hsome in
theorem compositeConstraints_of_missing (htwo : 2 ≤ all.length) (hkeys : none ∈ keys) :
    compositeConstraints keys all parts = .error .noPart := by
  obtain ⟨t, rest, hcons⟩ := exists_cons_of_ne_nil hsome
  have ht : t ∈ parts := hcons ▸ mem_cons_self
  rw [compositeConstraints_eq hdefault hparts hsome]
  by_cases hnil : all.takeWhile (fun t => !parts.contains t) = []
  · have hall : all.dropWhile (fun t => !parts.contains t) = all := by
      conv_rhs => rw [← takeWhile_append_dropWhile (p := fun t => !parts.contains t) (l := all), hnil]
      rfl
    have hfirst := constraints_of_missing_of_mem hdefault htwo hkeys (hparts t ht)
    have heach : (parts.mapM fun t => Term.all <$> constraints keys all t) = .error .noPart := by
      rw [hcons, mapM_cons, hfirst]
      rfl
    rw [hnil, hall, heach]
    rfl
  · rw [noneOf_of_missing hkeys hnil (isSome_before hdefault hparts ht)]
    rfl

end Composite

end Transition

end PacketSmith
