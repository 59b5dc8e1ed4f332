import PacketSmith.Graph.Ancestor
import PacketSmith.Proofs.Graph.Searching

/-!
# What still flows when a path is turned

The arcs of a path from `s` to `t` are turned (`Turned`). The nodes that are still reached from `s` form a set that
the path leaves and never enters again. So if `t` is not among them, exactly one arc of the graph leaves the set
(`exists_cut`), and it lies on the path. A path from `s` to `t` leaves a set that holds `s` and not `t` once more
often than it enters it (`Rises.crossings`), and all of what follows is read off from this count.
-/

namespace PacketSmith.Graph

open List

variable {W : Type} {next : W → List W} {s t u : W} {path : List (W × W)}

/-! ## Paths on which no node comes twice -/

namespace Rises

theorem nil_of_root (h : Rises next s s path) : path = [] := by
  cases h with
  | root => rfl
  | step _ _ away _ => exact absurd rfl away

theorem nodup_snd (h : Rises next s u path) : (path.map Prod.snd).Nodup := by
  induction h with
  | root => exact nodup_nil
  | step _ _ _ fresh ih => exact nodup_cons.mpr ⟨fresh, ih⟩

theorem nodup (h : Rises next s u path) : path.Nodup := h.nodup_snd.of_map

theorem arc (h : Rises next s u path) (hx : x ∈ path) : x.2 ∈ next x.1 := by
  induction h with
  | root => cases hx
  | step _ arc _ _ ih =>
    rcases mem_cons.mp hx with rfl | hx
    · exact arc
    · exact ih hx

theorem fst_mem (h : Rises next s u path) (ha : a ∈ u :: path.map Prod.fst) : a = s ∨ a ∈ path.map Prod.snd := by
  induction h with
  | root => simpa using ha
  | @step p u path before _ _ _ ih =>
    rcases mem_cons.mp ha with rfl | ha
    · exact .inr (by simp)
    · exact (ih ha).imp id (by simp_all)

theorem nodup_fst (h : Rises next s u path) : (u :: path.map Prod.fst).Nodup := by
  induction h with
  | root => simp
  | @step p u path before _ away fresh ih =>
    refine nodup_cons.mpr ⟨fun hmem => ?_, ih⟩
    rcases before.fst_mem hmem with rfl | hmem
    · exact away rfl
    · exact fresh hmem

theorem crossings (h : Rises next s u path) (A : W → Bool) :
    path.countP (fun x => A x.1 && !A x.2) + (A u).toNat = path.countP (fun x => !A x.1 && A x.2) + (A s).toNat := by
  induction h with
  | root => rfl
  | @step p u path _ _ _ _ ih =>
    rw [countP_cons, countP_cons]
    cases hp : A p <;> cases hu : A u <;> simp [hp] at ih ⊢ <;> omega

section Sets

variable {A : W → Prop}

theorem exists_leaving (h : Rises next s t path) (hs : A s) (ht : ¬A t) (henter : ∀ x ∈ path, A x.2 → A x.1) :
    ∃ x, ∀ y, y ∈ path ∧ A y.1 ∧ ¬A y.2 ↔ y = x := by
  classical
  have hcross := h.crossings fun a => decide (A a)
  have hnone : path.countP (fun x => !decide (A x.1) && decide (A x.2)) = 0 := by
    rw [countP_eq_zero]
    intro x hx
    have hback := henter x hx
    simpa using mt hback
  rw [hnone, decide_eq_false ht, decide_eq_true hs, countP_eq_length_filter] at hcross
  obtain ⟨x, hfilter⟩ := length_eq_one_iff.mp (show _ = 1 by simpa using hcross)
  refine ⟨x, fun y => ?_⟩
  rw [← mem_singleton, ← hfilter]
  simp

/-- A path that can leave a set by one arc only takes this arc and never enters the set. -/
theorem mem_of_only (h : Rises next s t path) (hs : A s) (ht : ¬A t)
    (honly : ∀ y ∈ path, A y.1 → ¬A y.2 → y = x) : x ∈ path ∧ ∀ y ∈ path, A y.2 → A y.1 := by
  classical
  have hcross := h.crossings fun a => decide (A a)
  have hle : path.countP (fun y => decide (A y.1) && !decide (A y.2)) ≤ path.count x := by
    refine countP_mono_left fun y hy hleaves => ?_
    simp only [Bool.and_eq_true, Bool.not_eq_true', decide_eq_false_iff_not, decide_eq_true_eq] at hleaves
    exact beq_iff_eq.mpr (honly y hy hleaves.1 hleaves.2)
  have hone := nodup_iff_count_le_one.mp h.nodup x
  rw [decide_eq_false ht, decide_eq_true hs, Bool.toNat_false, Bool.toNat_true] at hcross
  refine ⟨count_pos_iff.mp (by omega), fun y hy hy2 => ?_⟩
  have hnone : path.countP (fun x => !decide (A x.1) && decide (A x.2)) = 0 := by omega
  by_contra hy1
  exact countP_eq_zero.mp hnone y hy (by simp [hy1, hy2])

end Sets

end Rises

variable [DecidableEq W] {f rest : Graph W Unit} {a b : W}

theorem mem_neighbours : b ∈ f.neighbours false a ↔ 0 < f.arcs a b := by
  rw [arcs_pos]
  exact mem_map

/-! ## Turning a path -/

def Turned (f : Graph W Unit) (path : List (W × W)) (rest : Graph W Unit) : Prop :=
  ∀ a b, rest.arcs a b + path.count (a, b) = f.arcs a b + path.count (b, a)

theorem exists_reversePath (h : Rises next s u path) (hu : u ≠ s) (hf : f.Coherent)
    (harcs : ∀ x ∈ path, 0 < f.arcs x.1 x.2) (hparents : ∀ x ∈ path, tree.parents.get? x.2 = some x.1)
    (hfuel : path.length ≤ fuel) :
    ∃ rest, reversePath tree s fuel u f = .ok rest ∧ rest.Coherent ∧ Turned f path rest := by
  induction h generalizing f fuel with
  | root => exact absurd rfl hu
  | @step p u path before _ _ fresh ih =>
    obtain ⟨fuel, rfl⟩ : ∃ n, fuel = n + 1 := Nat.exists_eq_succ_of_ne_zero (by simp at hfuel; omega)
    obtain ⟨turned, hturned, hcoherent, hcount⟩ := hf.exists_reverseEdge () (harcs _ mem_cons_self)
    have hcons (arcs : List (W × W)) (x : W × W) : ((p, u) :: arcs).count x = arcs.count x + if x = (p, u) then 1 else 0 := by
      rw [count_cons]
      simp only [beq_iff_eq, @eq_comm _ (p, u)]
    rw [reversePath, hparents (p, u) mem_cons_self]
    simp only [hturned, bind, Except.bind]
    split
    · next hroot =>
      subst hroot
      obtain rfl := before.nil_of_root
      refine ⟨turned, rfl, hcoherent, fun a b => ?_⟩
      simpa only [hcons, count_nil, Nat.zero_add] using hcount a b
    · next hroot =>
      have hrest (x : W × W) (hx : x ∈ path) : 0 < turned.arcs x.1 x.2 := by
        have hne : (x.1, x.2) ≠ (p, u) := fun heq => fresh (mem_map.mpr ⟨x, hx, congrArg Prod.snd heq⟩)
        have hcount := hcount x.1 x.2
        have hpos := harcs x (mem_cons_of_mem _ hx)
        rw [if_neg hne] at hcount
        omega
      obtain ⟨rest, hreverse, hcoherent, hturns⟩ := ih hroot hcoherent hrest
        (fun x hx => hparents x (mem_cons_of_mem _ hx)) (by simpa using hfuel)
      refine ⟨rest, hreverse, hcoherent, fun a b => ?_⟩
      have hfirst := hcount a b
      have hlater := hturns a b
      rw [hcons, hcons]
      dsimp only at hfirst
      omega

/-! ## The arc that separates -/

structure Residual (f : Graph W Unit) (s t : W) (path : List (W × W)) (rest : Graph W Unit) : Prop where
  rises : Rises (f.neighbours false) s t path
  turned : Turned f path rest

/-- One arc leaves a set of nodes. -/
structure Cut (f : Graph W Unit) (A : W → Prop) (a b : W) : Prop where
  near : A a
  far : ¬A b
  single : f.arcs a b = 1
  only : ∀ c d, 0 < f.arcs c d → A c → ¬A d → c = a ∧ d = b

namespace Residual

variable (h : Residual f s t path rest)

include h

theorem count_le (a b : W) : path.count (a, b) ≤ f.arcs a b := by
  by_cases hmem : (a, b) ∈ path
  · have hone := nodup_iff_count_le_one.mp h.rises.nodup (a, b)
    have hpos : 0 < f.arcs a b := mem_neighbours.mp (h.rises.arc hmem)
    omega
  · rw [count_eq_zero_of_not_mem hmem]
    exact Nat.zero_le _

theorem arcs_back (hmem : (a, b) ∈ path) : 0 < rest.arcs b a := by
  have hcount := h.turned b a
  have hle := h.count_le b a
  have hpos := count_pos_iff.mpr hmem
  omega

theorem mem_of_arcs_eq_zero (harc : 0 < f.arcs a b) (hrest : rest.arcs a b = 0) : (a, b) ∈ path ∧ f.arcs a b = 1 := by
  have hcount := h.turned a b
  have hone := nodup_iff_count_le_one.mp h.rises.nodup (a, b)
  exact ⟨count_pos_iff.mp (by omega), by omega⟩

theorem exists_cut (ht : ¬Reaches (rest.neighbours false) s t) :
    ∃ a b, Cut f (Reaches (rest.neighbours false) s) a b ∧ (a, b) ∈ path := by
  have hnext {a b : W} (ha : Reaches (rest.neighbours false) s a) (hb : ¬Reaches (rest.neighbours false) s b) :
      rest.arcs a b = 0 :=
    Nat.eq_zero_of_not_pos fun hpos => hb (ha.tail (mem_neighbours.mpr hpos))
  obtain ⟨⟨a, b⟩, hleaving⟩ := h.rises.exists_leaving (A := Reaches (rest.neighbours false) s) .refl ht
    fun x hx hreached => hreached.tail (mem_neighbours.mpr (h.arcs_back hx))
  obtain ⟨hmem, ha, hb⟩ := (hleaving (a, b)).mpr rfl
  refine ⟨a, b, ⟨ha, hb, ?_, fun c d harc hc hd => ?_⟩, hmem⟩
  · exact (h.mem_of_arcs_eq_zero (mem_neighbours.mp (h.rises.arc hmem)) (hnext ha hb)).2
  · obtain ⟨hcd, -⟩ := h.mem_of_arcs_eq_zero harc (hnext hc hd)
    exact Prod.mk.inj ((hleaving (c, d)).mp ⟨hcd, hc, hd⟩)

theorem within {A : W → Prop} (hs : A s) (ht : ¬A t) (hsingle : f.arcs a b ≤ 1)
    (honly : ∀ c d, 0 < f.arcs c d → A c → ¬A d → (c, d) = (a, b)) (hv : Reaches (rest.neighbours false) s v) :
    A v := by
  obtain ⟨hmem, henter⟩ := h.rises.mem_of_only hs ht (x := (a, b)) fun y hy hy1 hy2 =>
    honly y.1 y.2 (mem_neighbours.mp (h.rises.arc hy)) hy1 hy2
  induction hv with
  | refl => exact hs
  | @tail c d _ harc ih =>
    by_contra hd
    have hback : path.count (d, c) = 0 := count_eq_zero_of_not_mem fun hmem => hd (henter _ hmem ih)
    have hcount := h.turned c d
    have hpos := mem_neighbours.mp harc
    have hab := honly c d (by omega) ih hd
    cases hab
    have hused := count_pos_iff.mpr hmem
    omega

theorem start_of_cut (hcut : Cut f (Reaches (rest.neighbours false) s) a b) (hmem : (a, b) ∈ path)
    (honly : ∀ d, 0 < f.arcs d a → d = c) (hsingle : f.arcs c a ≤ 1) : a = s := by
  rcases h.rises.fst_mem (mem_cons_of_mem _ (mem_map_of_mem hmem)) with ha | ha
  · exact ha
  · -- the path enters `a` by the single arc, so only the arc by which it goes on leads back to `a`
    obtain ⟨⟨d, a'⟩, hd, ha'⟩ := mem_map.mp ha
    obtain rfl : a' = a := ha'
    obtain rfl := honly d (mem_neighbours.mp (h.rises.arc hd))
    rcases hcut.near.cases_tail with hroot | ⟨e, he, harc⟩
    · exact hroot
    · exfalso
      have hpos := mem_neighbours.mp harc
      have hcount := h.turned e a'
      by_cases hback : (a', e) ∈ path
      · have heq := inj_on_of_nodup_map (nodup_cons.mp h.rises.nodup_fst).2 hmem hback rfl
        cases heq
        exact hcut.far he
      · rw [count_eq_zero_of_not_mem hback] at hcount
        obtain rfl := honly e (by omega)
        have hused := count_pos_iff.mpr hd
        omega

end Residual

theorem Cut.edges_leaving {second : Tree W} (h : Cut f A a b) (hf : f.Coherent)
    (hnodup : second.parents.keys.Nodup) (hhas : ∀ v, second.has v ↔ A v) :
    (second.parents.keys.flatMap fun u => (f.outEdges u).filter fun e => !second.has e.dst) = [⟨a, b, ()⟩] := by
  have hiff (v : W) : v ∈ second.parents.keys ↔ A v := Tree.has_iff.symm.trans (hhas v)
  have hmem (e : Edge W Unit) : e ∈ (second.parents.keys.flatMap fun u => (f.outEdges u).filter fun e => !second.has e.dst) ↔
      e = ⟨a, b, ()⟩ := by
    simp only [mem_flatMap, mem_filter, Bool.not_eq_true', hiff, ← Bool.not_eq_true, hhas]
    constructor
    · rintro ⟨u, hu, he, hfar⟩
      obtain ⟨rfl, rfl⟩ := h.only u e.dst (arcs_pos.mpr ⟨e, he, rfl⟩) hu hfar
      rw [← hf.src u e he]
    · rintro rfl
      obtain ⟨e, he, rfl⟩ := arcs_pos.mp (Nat.lt_of_lt_of_eq Nat.zero_lt_one h.single.symm)
      obtain rfl := hf.src a e he
      exact ⟨e.src, h.near, he, h.far⟩
  have hcount : (second.parents.keys.flatMap fun u => (f.outEdges u).filter fun e => !second.has e.dst).Nodup := by
    rw [nodup_flatMap]
    refine ⟨fun u hu => ?_, ?_⟩
    · rw [nodup_iff_count_le_one]
      intro e
      by_cases he : e ∈ (f.outEdges u).filter fun e => !second.has e.dst
      · have hsame : e = ⟨a, b, ()⟩ := (hmem e).mp (mem_flatMap.mpr ⟨u, hu, he⟩)
        have hu : u = a := by rw [← hf.src u e (mem_of_mem_filter he), hsame]
        have hle : (f.outEdges u).count e ≤ f.arcs a b := by
          subst hsame hu
          exact countP_mono_left fun x _ hx => by simp_all
        exact Nat.le_trans (filter_sublist.count_le e) (Nat.le_trans hle (Nat.le_of_eq h.single))
      · rw [count_eq_zero_of_not_mem he]
        exact Nat.zero_le 1
    · refine hnodup.imp fun hne e he he' => hne ?_
      exact (hf.src _ e (mem_of_mem_filter he)).symm.trans (hf.src _ e (mem_of_mem_filter he'))
  exact perm_singleton.mp ((perm_ext_iff_of_nodup hcount (nodup_singleton _)).mpr fun e => by simp [hmem])

end PacketSmith.Graph
