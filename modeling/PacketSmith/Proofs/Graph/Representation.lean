import Mathlib.Data.List.Nodup
import Mathlib.Data.List.Perm.Basic
import PacketSmith.Proofs.BranchPairs

/-!
# The two tables of a graph

A graph keeps its edges twice, by the node that they leave and by the node that they enter. The two tables have the
same nodes, and from one node to another there are as many edges in the one as in the other (`Graph.Coherent`). Adding
and turning edges keeps this: turning one takes one from `arcs g u w` and adds one to `arcs g w u`
(`exists_reverseEdge`).
-/

namespace PacketSmith

open List Dict

/-! ## Tables of lists -/

namespace Dict

variable {κ ν : Type} [DecidableEq κ] {d : Dict κ ν} {k : κ}

theorem mem_keys_iff : k ∈ d.keys ↔ d.contains k := by
  obtain ⟨es⟩ := d
  induction es with
  | nil => simp [keys, contains, get?, lookup]
  | cons e es ih =>
    simp only [keys, contains, get?] at ih
    by_cases h : e.1 = k
    · simp [keys, contains, get?, lookup, h]
    · simp [keys, contains, get?, lookup, h, Ne.symm h, ← ih]

theorem getD_of_not_mem (h : k ∉ d.keys) (other : ν) : d.getD k other = other := by
  rw [mem_keys_iff, Bool.not_eq_true, contains, Option.isSome_eq_false_iff, Option.isNone_iff_eq_none] at h
  rw [getD, h]
  rfl

theorem get?_eq_getD (h : k ∈ d.keys) (other : ν) : d.get? k = some (d.getD k other) := by
  obtain ⟨v, hv⟩ := Option.isSome_iff_exists.mp (mem_keys_iff.mp h)
  rw [getD, hv]
  rfl

theorem mem_keys_of_mem {d : Dict κ (List ν)} (h : v ∈ d.getD k []) : k ∈ d.keys := by
  by_contra hk
  rw [getD_of_not_mem hk] at h
  cases h

theorem mem_keys_insert : k' ∈ (d.insert k v).keys ↔ k' ∈ d.keys ∨ k' = k := by
  rw [mem_keys_iff, mem_keys_iff, contains, contains]
  by_cases h : k = k'
  · simp [h]
  · simp [h, Ne.symm h]

section Lists

variable {d : Dict κ (List ν)}

theorem length_flatten_put (k : κ) (vs : List ν) (es : List (κ × List ν)) :
    ((put k vs es).map Prod.snd).flatten.length + ((lookup k es).getD []).length =
      (es.map Prod.snd).flatten.length + vs.length := by
  induction es with
  | nil => simp [put, lookup]
  | cons e es ih =>
    by_cases h : e.1 = k
    · simp [put, lookup, h]
      omega
    · simp [put, lookup, h] at ih ⊢
      omega

theorem length_flatten_insert (d : Dict κ (List ν)) (k : κ) (vs : List ν) :
    (d.insert k vs).values.flatten.length + (d.getD k []).length = d.values.flatten.length + vs.length :=
  length_flatten_put k vs d.entries

theorem flatMap_keys (h : d.keys.Nodup) : d.keys.flatMap (fun k => d.getD k []) = d.values.flatten := by
  unfold keys values
  rw [flatMap_map]
  refine flatMap_congr fun e he => ?_
  rw [getD, get?_of_mem h (show (e.1, e.2) ∈ d.entries from he)]
  rfl

def withKey (d : Dict κ (List ν)) (k : κ) : Dict κ (List ν) := if d.contains k then d else d.insert k []

@[simp] theorem getD_withKey (k k' : κ) : (d.withKey k).getD k' [] = d.getD k' [] := by
  unfold withKey
  split
  · rfl
  · rw [getD_insert]
    split
    · next h =>
      rw [getD_of_not_mem (by rwa [mem_keys_iff, ← h])]
    · rfl

theorem mem_keys_withKey : k' ∈ (d.withKey k).keys ↔ k' ∈ d.keys ∨ k' = k := by
  unfold withKey
  split
  · next hk =>
    constructor
    · exact .inl
    · rintro (h | rfl)
      · exact h
      · exact mem_keys_iff.mpr hk
  · exact mem_keys_insert

theorem nodup_withKey (h : d.keys.Nodup) (k : κ) : (d.withKey k).keys.Nodup := by
  unfold withKey
  split
  · exact h
  · exact nodup_keys_insert h k []

theorem length_flatten_withKey (k : κ) : (d.withKey k).values.flatten.length = d.values.flatten.length := by
  unfold withKey
  split
  · rfl
  · have hlength := length_flatten_insert d k []
    rw [getD_of_not_mem (by rwa [mem_keys_iff])] at hlength
    simpa using hlength

end Lists

end Dict

namespace Graph

variable {V L : Type} [DecidableEq V] {g : Graph V L} {u w : V}

def arcs (g : Graph V L) (u w : V) : Nat := (g.outEdges u).countP fun e => e.dst = w

theorem arcs_pos : 0 < g.arcs u w ↔ ∃ e ∈ g.outEdges u, e.dst = w := by
  simp [arcs, countP_pos_iff]

/-- The two tables of a graph have the same nodes and edges. -/
structure Coherent (g : Graph V L) : Prop where
  nodup_out : g.out.keys.Nodup
  nodup_into : g.into.keys.Nodup
  nodes : ∀ v, v ∈ g.into.keys ↔ v ∈ g.out.keys
  src : ∀ v, ∀ e ∈ g.outEdges v, e.src = v
  dst : ∀ v, ∀ e ∈ g.inEdges v, e.dst = v
  arcs : ∀ u w, (g.inEdges w).countP (fun e => e.src = u) = g.arcs u w
  size : g.into.values.flatten.length = g.out.values.flatten.length

theorem Coherent.mem_inEdges (h : g.Coherent) : (∃ e ∈ g.inEdges w, e.src = u) ↔ 0 < g.arcs u w := by
  rw [← h.arcs]
  simp

theorem Coherent.empty : (empty : Graph V L).Coherent where
  nodup_out := nodup_nil
  nodup_into := nodup_nil
  nodes _ := Iff.rfl
  src _ _ he := absurd he not_mem_nil
  dst _ _ he := absurd he not_mem_nil
  arcs _ _ := rfl
  size := rfl

/-! ## Adding -/

theorem addNode_eq (g : Graph V L) (v : V) : g.addNode v = ⟨g.out.withKey v, g.into.withKey v⟩ := rfl

theorem Coherent.addNode (h : g.Coherent) (v : V) : (g.addNode v).Coherent := by
  have hout (u : V) : (g.addNode v).outEdges u = g.outEdges u := getD_withKey v u
  have hinto (u : V) : (g.addNode v).inEdges u = g.inEdges u := getD_withKey v u
  refine ⟨nodup_withKey h.nodup_out v, nodup_withKey h.nodup_into v, ?_, ?_, ?_, ?_, ?_⟩
  · intro u
    rw [addNode_eq, mem_keys_withKey, mem_keys_withKey, h.nodes]
  · intro u e he
    exact h.src u e (hout u ▸ he)
  · intro u e he
    exact h.dst u e (hinto u ▸ he)
  · intro u w
    rw [hinto, h.arcs, Graph.arcs, Graph.arcs, hout]
  · rw [addNode_eq, length_flatten_withKey, length_flatten_withKey, h.size]

theorem addEdge_eq (g : Graph V L) (e : Edge V L) :
    g.addEdge e = ⟨((g.out.withKey e.src).withKey e.dst).insert e.src (g.outEdges e.src ++ [e]),
      ((g.into.withKey e.src).withKey e.dst).insert e.dst (g.inEdges e.dst ++ [e])⟩ := by
  unfold addEdge Dict.alter outEdges inEdges
  simp only [addNode_eq, getD_withKey]

theorem inEdges_addEdge (g : Graph V L) (e : Edge V L) (v : V) :
    (g.addEdge e).inEdges v = if e.dst = v then g.inEdges v ++ [e] else g.inEdges v := by
  rw [addEdge_eq]
  unfold inEdges
  simp only [getD_insert, getD_withKey]
  split
  · next h => rw [h]
  · rfl

theorem arcs_addEdge (g : Graph V L) (e : Edge V L) (u w : V) :
    (g.addEdge e).arcs u w = g.arcs u w + if e.src = u ∧ e.dst = w then 1 else 0 := by
  unfold arcs
  rw [outEdges_addEdge]
  by_cases hu : e.src = u
  · by_cases hw : e.dst = w <;> simp [hu, hw]
  · simp [hu]

theorem arcs_foldl_addEdge (es : List (Edge V L)) (g : Graph V L) (u w : V) :
    (es.foldl addEdge g).arcs u w = g.arcs u w + es.countP fun e => e.src = u ∧ e.dst = w := by
  induction es generalizing g with
  | nil => simp
  | cons e es ih =>
    rw [foldl_cons, ih, arcs_addEdge, countP_cons]
    simp only [decide_eq_true_eq]
    omega

theorem Coherent.addEdge (h : g.Coherent) (e : Edge V L) : (g.addEdge e).Coherent := by
  have h₂ := (h.addNode e.src).addNode e.dst
  have hkeys {d : Dict V (List (Edge V L))} {u v : V} (hu : u ∈ d.keys) {es : List (Edge V L)} :
      v ∈ (d.insert u es).keys ↔ v ∈ d.keys := by
    rw [mem_keys_insert]
    exact or_iff_left_of_imp fun hv => hv ▸ hu
  have hmem (u : V) (hu : u = e.src ∨ u = e.dst) : u ∈ ((g.addNode e.src).addNode e.dst).out.keys := by
    rw [addNode_eq, addNode_eq, mem_keys_withKey, mem_keys_withKey, or_assoc]
    exact .inr hu
  refine ⟨nodup_keys_insert h₂.nodup_out _ _, nodup_keys_insert h₂.nodup_into _ _, ?_, ?_, ?_, ?_, ?_⟩
  · intro v
    refine (hkeys ((h₂.nodes _).mpr (hmem _ (.inr rfl)))).trans ((h₂.nodes v).trans (hkeys (hmem _ (.inl rfl))).symm)
  · intro v e' he'
    rw [outEdges_addEdge] at he'
    split at he'
    · rcases mem_append.mp he' with he' | he'
      · exact h.src v e' he'
      · rwa [mem_singleton.mp he']
    · exact h.src v e' he'
  · intro v e' he'
    rw [inEdges_addEdge] at he'
    split at he'
    · rcases mem_append.mp he' with he' | he'
      · exact h.dst v e' he'
      · rwa [mem_singleton.mp he']
    · exact h.dst v e' he'
  · intro u w
    rw [arcs_addEdge, inEdges_addEdge, ← h.arcs]
    by_cases hw : e.dst = w
    · by_cases hu : e.src = u <;> simp [hu, hw]
    · simp [hw]
  · have hout := length_flatten_insert ((g.out.withKey e.src).withKey e.dst) e.src (g.outEdges e.src ++ [e])
    have hinto := length_flatten_insert ((g.into.withKey e.src).withKey e.dst) e.dst (g.inEdges e.dst ++ [e])
    simp only [getD_withKey, length_flatten_withKey, length_append, length_singleton] at hout hinto
    rw [addEdge_eq]
    unfold outEdges inEdges at *
    have hsize := h.size
    dsimp only
    omega

theorem Coherent.foldl_addEdge (h : g.Coherent) (es : List (Edge V L)) : (es.foldl Graph.addEdge g).Coherent := by
  induction es generalizing g with
  | nil => exact h
  | cons e es ih => exact ih (h.addEdge e)

/-- A graph that is built node by node and edge by edge. -/
inductive Built : Graph V L → Prop
  | empty : Built empty
  | addNode {g : Graph V L} (before : Built g) (v : V) : Built (g.addNode v)
  | addEdge {g : Graph V L} (before : Built g) (e : Edge V L) : Built (g.addEdge e)

theorem Built.coherent (h : g.Built) : g.Coherent := by
  induction h with
  | empty => exact .empty
  | addNode _ v ih => exact ih.addNode v
  | addEdge _ e ih => exact ih.addEdge e

/-! ## Turning an edge -/

theorem countP_eraseIdx {l : List α} (h : l.findIdx? p = some i)
    (hq : ∀ a, p a = true → q a = b) : (l.eraseIdx i).countP q + (if b then 1 else 0) = l.countP q := by
  obtain ⟨hi, hp, -⟩ := List.findIdx?_eq_some_iff_getElem.mp h
  have hperm := getElem_cons_eraseIdx_perm hi
  rw [← hperm.countP_eq q, countP_cons, hq _ hp]

theorem length_eraseIdx {l : List α} (h : l.findIdx? p = some i) : (l.eraseIdx i).length + 1 = l.length := by
  obtain ⟨hi, -⟩ := List.findIdx?_eq_some_iff_getElem.mp h
  exact length_eraseIdx_add_one hi

theorem Coherent.cut (h : g.Coherent) (hu : u ∈ g.out.keys) (hw : w ∈ g.into.keys)
    (hi : (g.outEdges u).findIdx? (fun e => decide (e.dst = w)) = some i)
    (hj : (g.inEdges w).findIdx? (fun e => decide (e.src = u)) = some j) :
    let cut : Graph V L := ⟨g.out.insert u ((g.outEdges u).eraseIdx i), g.into.insert w ((g.inEdges w).eraseIdx j)⟩
    cut.Coherent ∧ ∀ a b, cut.arcs a b + (if (a, b) = (u, w) then 1 else 0) = g.arcs a b := by
  intro cut
  have hout (a : V) : cut.outEdges a = if u = a then (g.outEdges u).eraseIdx i else g.outEdges a :=
    getD_insert g.out u a _ []
  have hinto (b : V) : cut.inEdges b = if w = b then (g.inEdges w).eraseIdx j else g.inEdges b :=
    getD_insert g.into w b _ []
  have harcs (a b : V) : cut.arcs a b + (if (a, b) = (u, w) then 1 else 0) = g.arcs a b := by
    unfold Graph.arcs
    rw [hout]
    by_cases ha : u = a
    · subst ha
      have hcount := countP_eraseIdx (q := fun e => decide (e.dst = b)) (b := decide (w = b)) hi (by simp_all)
      simpa [eq_comm] using hcount
    · simp [ha, Ne.symm ha]
  refine ⟨⟨nodup_keys_insert h.nodup_out _ _, nodup_keys_insert h.nodup_into _ _, ?_, ?_, ?_, ?_, ?_⟩,
    harcs⟩
  · intro v
    rw [mem_keys_insert, mem_keys_insert, or_iff_left_of_imp fun hv => hv ▸ hw,
      or_iff_left_of_imp fun hv => hv ▸ hu, h.nodes]
  · intro v e he
    rw [hout] at he
    split at he
    · next huv => exact huv ▸ h.src u e (mem_of_mem_eraseIdx he)
    · exact h.src v e he
  · intro v e he
    rw [hinto] at he
    split at he
    · next hwv => exact hwv ▸ h.dst w e (mem_of_mem_eraseIdx he)
    · exact h.dst v e he
  · intro a b
    have hcut := harcs a b
    rw [← h.arcs] at hcut
    rw [hinto]
    by_cases hb : w = b
    · subst hb
      have hcount := countP_eraseIdx (q := fun e => decide (e.src = a)) (b := decide (u = a)) hj (by simp_all)
      simp [eq_comm] at hcount hcut ⊢
      omega
    · simp [hb, Ne.symm hb] at hcut ⊢
      exact hcut.symm
  · have ho := length_flatten_insert g.out u ((g.outEdges u).eraseIdx i)
    have hn := length_flatten_insert g.into w ((g.inEdges w).eraseIdx j)
    have hlo := length_eraseIdx hi
    have hln := length_eraseIdx hj
    have hsize := h.size
    change (Dict.insert _ _ _).values.flatten.length = (Dict.insert _ _ _).values.flatten.length
    unfold outEdges inEdges at *
    omega

theorem edgesFrom_eq (hu : u ∈ g.nodes) : g.edgesFrom u = .ok (g.outEdges u) := by
  rw [edgesFrom, Dict.get?_eq_getD hu []]
  rfl

theorem edgesInto_eq (hw : w ∈ g.into.keys) : g.edgesInto w = .ok (g.inEdges w) := by
  rw [edgesInto, Dict.get?_eq_getD hw []]
  rfl

theorem Coherent.exists_reverseEdge (h : g.Coherent) (label : L) (harc : 0 < g.arcs u w) :
    ∃ g', g.reverseEdge label u w = .ok g' ∧ g'.Coherent ∧ ∀ a b,
      g'.arcs a b + (if (a, b) = (u, w) then 1 else 0) = g.arcs a b + (if (b, a) = (u, w) then 1 else 0) := by
  obtain ⟨e, he, hdst⟩ := arcs_pos.mp harc
  obtain ⟨e', he', hsrc⟩ := h.mem_inEdges.mpr harc
  have hu : u ∈ g.out.keys := mem_keys_of_mem he
  have hw : w ∈ g.into.keys := mem_keys_of_mem he'
  obtain ⟨i, hi⟩ : ∃ i, (g.outEdges u).findIdx? (fun e => decide (e.dst = w)) = some i := by
    rw [← Option.isSome_iff_exists, List.findIdx?_isSome, any_eq_true]
    exact ⟨e, he, decide_eq_true hdst⟩
  obtain ⟨j, hj⟩ : ∃ j, (g.inEdges w).findIdx? (fun e => decide (e.src = u)) = some j := by
    rw [← Option.isSome_iff_exists, List.findIdx?_isSome, any_eq_true]
    exact ⟨e', he', decide_eq_true hsrc⟩
  obtain ⟨hcut, harcs⟩ := h.cut hu hw hi hj
  refine ⟨_, ?_, hcut.addEdge ⟨w, u, label⟩, ?_⟩
  · simp only [reverseEdge, edgesFrom_eq hu, edgesInto_eq hw, bind, Except.bind, hi, hj]
    rfl
  · intro a b
    have hab := harcs a b
    rw [arcs_addEdge]
    simp only [Prod.mk.injEq] at hab ⊢
    have hswap : (w = a ∧ u = b) ↔ (b = u ∧ a = w) := by
      constructor
      · rintro ⟨rfl, rfl⟩; exact ⟨rfl, rfl⟩
      · rintro ⟨rfl, rfl⟩; exact ⟨rfl, rfl⟩
    simp only [hswap]
    omega

end Graph

end PacketSmith
