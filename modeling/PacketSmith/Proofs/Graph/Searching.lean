import Mathlib.Logic.Relation
import PacketSmith.Graph.Search
import PacketSmith.Proofs.Graph.Representation

/-!
# What a depth-first search finds

A search enters exactly the nodes that can be reached (`Searching.has_iff`). The parents that it notes lead back to
the root (`Searching.exists_rises`), and its ends are the nodes at which nothing goes on (`Searching.mem_ends`). The
steps that are left are bounded by the nodes that wait and the edges of the nodes that are not entered
(`searching_explore`).
-/

namespace PacketSmith

open List Dict

namespace Dict

variable {κ ν : Type} [DecidableEq κ] {k : κ}

theorem put_of_not_mem (h : k ∉ es.map Prod.fst) (v : ν) : put k v es = es ++ [(k, v)] := by
  induction es with
  | nil => rfl
  | cons e es ih =>
    rw [map_cons, mem_cons, not_or] at h
    rw [put, if_neg (Ne.symm h.1), ih h.2]
    rfl

theorem lookup_append (k : κ) (es es' : List (κ × ν)) : lookup k (es ++ es') = (lookup k es).or (lookup k es') := by
  induction es with
  | nil => rfl
  | cons e es ih =>
    rw [cons_append, lookup, lookup]
    split
    · rfl
    · exact ih

theorem lookup_eq_none (h : k ∉ es.map Prod.fst) : lookup k es = none := by
  cases hlookup : lookup k es with
  | none => rfl
  | some v => exact absurd (mem_map_of_mem (mem_of_lookup hlookup)) h

end Dict

namespace Graph

variable {V L : Type} {next : V → List V} {root u w : V} {stack : List (V × V)} {t : Tree V}

/-- One node can be reached from another. -/
def Reaches (next : V → List V) : V → V → Prop := Relation.ReflTransGen fun a b => b ∈ next a

/-- A path from the root on which no node comes twice, as its arcs, last first. -/
inductive Rises (next : V → List V) (root : V) : V → List (V × V) → Prop
  | root : Rises next root root []
  | step {p u : V} {arcs : List (V × V)} (before : Rises next root p arcs) (arc : u ∈ next p) (away : u ≠ root)
      (fresh : u ∉ arcs.map Prod.snd) : Rises next root u ((p, u) :: arcs)

/-- The nodes of a search with their parents: each was entered from one that was there. -/
inductive Grown (next : V → List V) (root : V) : List (V × V) → Prop
  | root : Grown next root [(root, root)]
  | enter {es : List (V × V)} {u p : V} (before : Grown next root es) (parent : p ∈ es.map Prod.fst)
      (arc : u ∈ next p) (new : u ∉ es.map Prod.fst) : Grown next root (es ++ [(u, p)])

namespace Grown

theorem root_mem (h : Grown next root es) : root ∈ es.map Prod.fst := by
  induction h with
  | root => simp
  | enter _ _ _ _ ih => simp [ih]

theorem nodup (h : Grown next root es) : (es.map Prod.fst).Nodup := by
  induction h with
  | root => simp
  | enter _ _ _ new ih =>
    rw [map_append]
    exact nodup_append.mpr ⟨ih, by simp, by rintro a ha b hb rfl; simp_all⟩

theorem reaches (h : Grown next root es) (hu : u ∈ es.map Prod.fst) : Reaches next root u := by
  induction h generalizing u with
  | root =>
    obtain rfl : u = root := by simpa using hu
    exact .refl
  | @enter es u' p _ parent arc _ ih =>
    rw [map_append, mem_append] at hu
    rcases hu with hu | hu
    · exact ih hu
    · obtain rfl : u = u' := by simpa using hu
      exact (ih parent).tail arc

theorem exists_rises [DecidableEq V] (h : Grown next root es) (hu : u ∈ es.map Prod.fst) :
    ∃ arcs, Rises next root u arcs ∧ (∀ x ∈ arcs, Dict.lookup x.2 es = some x.1) ∧ arcs.length < es.length := by
  induction h generalizing u with
  | root =>
    obtain rfl : u = root := by simpa using hu
    exact ⟨[], .root, by simp, by simp⟩
  | @enter es u' p before parent arc new ih =>
    have hkeep {x : V × V} (hx : Dict.lookup x.2 es = some x.1) : Dict.lookup x.2 (es ++ [(u', p)]) = some x.1 := by
      rw [Dict.lookup_append, hx]
      rfl
    rw [map_append, mem_append] at hu
    rcases hu with hu | hu
    · obtain ⟨arcs, hrises, hparents, hlength⟩ := ih hu
      exact ⟨arcs, hrises, fun x hx => hkeep (hparents x hx), by simp; omega⟩
    · obtain rfl : u = u' := by simpa using hu
      obtain ⟨arcs, hrises, hparents, hlength⟩ := ih parent
      refine ⟨(p, u) :: arcs, hrises.step arc ?_ ?_, ?_, by simpa using hlength⟩
      · rintro rfl
        exact new before.root_mem
      · intro hmem
        obtain ⟨x, hx, rfl⟩ := mem_map.mp hmem
        exact new (mem_map_of_mem (mem_of_lookup (hparents x hx)))
      · intro x hx
        rcases mem_cons.mp hx with rfl | hx
        · rw [Dict.lookup_append, Dict.lookup_eq_none new]
          simp [Dict.lookup]
        · exact hkeep (hparents x hx)

end Grown

/-- What holds while a search goes on. -/
structure Searching (next : V → List V) (root : V) (stack : List (V × V)) (t : Tree V) : Prop where
  grown : Grown next root t.parents.entries
  waits : ∀ x ∈ stack, x.2 ∈ t.parents.keys ∧ x.1 ∈ next x.2
  onward : ∀ u ∈ t.parents.keys, ∀ w ∈ next u, w ∈ t.parents.keys ∨ w ∈ stack.map Prod.fst
  ends : t.ends = (t.parents.keys.filter fun u => (next u).isEmpty).reverse

theorem Searching.nodup_ends (h : Searching next root stack t) : t.ends.Nodup := by
  rw [h.ends, nodup_reverse]
  exact h.grown.nodup.filter _

theorem numEdges_eq (g : Graph V L) : g.numEdges = g.out.values.flatten.length := by
  have hfold (ls : List (List (Edge V L))) (n : Nat) :
      ls.foldl (fun n es => n + es.length) n = n + ls.flatten.length := by
    induction ls generalizing n with
    | nil => simp
    | cons es ls ih => rw [foldl_cons, ih, flatten_cons, length_append, Nat.add_assoc]
  rw [numEdges, hfold, Nat.zero_add]

variable [DecidableEq V] {nodes : List V}

theorem length_outEdges_le (g : Graph V L) (u : V) : (g.outEdges u).length ≤ g.numEdges := by
  rw [numEdges_eq, outEdges, Dict.getD]
  cases hget : g.out.get? u with
  | none => exact Nat.zero_le _
  | some es =>
    have hmem : es ∈ g.out.values := mem_map.mpr ⟨_, mem_entries_of_get? hget, rfl⟩
    exact (sublist_flatten_of_mem hmem).length_le

theorem Tree.has_iff : t.has u ↔ u ∈ t.parents.keys := mem_keys_iff.symm

def Tree.enter (next : V → List V) (t : Tree V) (u parent : V) : Tree V where
  parents := t.parents.insert u parent
  ends := if (next u).isEmpty then u :: t.ends else t.ends

theorem Tree.mem_enter : w ∈ (t.enter next u p).parents.keys ↔ w ∈ t.parents.keys ∨ w = u :=
  mem_keys_insert

theorem explore_cons (next : V → List V) (fuel : Nat) (u p : V) (stack : List (V × V)) (t : Tree V) :
    explore next (fuel + 1) ((u, p) :: stack) t = if t.has u then explore next fuel stack t
      else explore next fuel ((next u).map (fun w => (w, u)) ++ stack) (t.enter next u p) := rfl

namespace Searching

theorem start (next : V → List V) (root : V) :
    Searching next root ((next root).map fun w => (w, root)) (Tree.enter next {} root root) where
  grown := .root
  waits := by simp [Tree.enter, Dict.insert, Dict.put, Dict.keys]
  onward := by
    intro u hu w hw
    obtain rfl : u = root := by simpa [Tree.enter, Dict.insert, Dict.put, Dict.keys] using hu
    exact .inr (by simpa using hw)
  ends := by
    by_cases h : (next root).isEmpty <;> simp [Tree.enter, Dict.insert, Dict.put, Dict.keys, h]

theorem skip (h : Searching next root ((u, p) :: stack) t) (hu : t.has u) : Searching next root stack t where
  grown := h.grown
  waits x hx := h.waits x (mem_cons_of_mem _ hx)
  onward v hv w hw := by
    rcases h.onward v hv w hw with hmem | hmem
    · exact .inl hmem
    · rcases mem_cons.mp hmem with rfl | hmem
      · exact .inl (Tree.has_iff.mp hu)
      · exact .inr hmem
  ends := h.ends

theorem enter (h : Searching next root ((u, p) :: stack) t) (hu : ¬t.has u) :
    Searching next root ((next u).map (fun w => (w, u)) ++ stack) (t.enter next u p) := by
  obtain ⟨hp, harc⟩ := h.waits _ mem_cons_self
  have hnew : u ∉ t.parents.entries.map Prod.fst := fun hmem => hu (Tree.has_iff.mpr hmem)
  have hentries : (t.enter next u p).parents.entries = t.parents.entries ++ [(u, p)] := put_of_not_mem hnew p
  refine ⟨hentries ▸ h.grown.enter hp harc hnew, ?_, ?_, ?_⟩
  · intro x hx
    rw [Tree.mem_enter]
    rcases mem_append.mp hx with hx | hx
    · obtain ⟨w, hw, rfl⟩ := mem_map.mp hx
      exact ⟨.inr rfl, hw⟩
    · obtain ⟨hmem, hnext⟩ := h.waits x (mem_cons_of_mem _ hx)
      exact ⟨.inl hmem, hnext⟩
  · intro v hv w hw
    rw [Tree.mem_enter, map_append, mem_append]
    rcases Tree.mem_enter.mp hv with hv | rfl
    · rcases h.onward v hv w hw with hmem | hmem
      · exact .inl (.inl hmem)
      · rcases mem_cons.mp hmem with rfl | hmem
        · exact .inl (.inr rfl)
        · exact .inr (.inr hmem)
    · exact .inr (.inl (by simpa using hw))
  · have hkeys : (t.enter next u p).parents.keys = t.parents.keys ++ [u] := by
      rw [Dict.keys, hentries, map_append]
      rfl
    rw [hkeys, filter_append, reverse_append, ← h.ends]
    by_cases hend : (next u).isEmpty <;> simp [Tree.enter, hend]

end Searching

/-! ## Enough steps -/

def Tree.waiting (next : V → List V) (nodes : List V) (t : Tree V) : Nat :=
  ((nodes.filter fun v => !t.has v).flatMap next).length

theorem Tree.waiting_enter (hnext : ∀ v ∉ nodes, next v = []) (hu : ¬t.has u) :
    (t.enter next u p).waiting next nodes + (next u).length ≤ t.waiting next nodes := by
  have hhas (v : V) : (t.enter next u p).has v = (t.has v || v = u) := by
    rw [Bool.eq_iff_iff, Tree.has_iff, Tree.mem_enter]
    simp [Tree.has_iff]
  have hle (vs : List V) : ((vs.filter fun v => !(t.enter next u p).has v).flatMap next).length +
      (if u ∈ vs then (next u).length else 0) ≤ ((vs.filter fun v => !t.has v).flatMap next).length := by
    induction vs with
    | nil => simp
    | cons v vs ih =>
      by_cases hv : v = u
      · subst hv
        simp [hhas, hu] at ih ⊢
        split at ih <;> omega
      · by_cases hold : t.has v <;> simp [hhas, hold, hv, Ne.symm hv] at ih ⊢ <;> omega
  have hall := hle nodes
  split at hall
  · exact hall
  · next hmem =>
    rw [hnext u hmem]
    exact hall

theorem searching_explore (hnext : ∀ v ∉ nodes, next v = []) (fuel : Nat) (h : Searching next root stack t)
    (hfuel : stack.length + t.waiting next nodes ≤ fuel) : Searching next root [] (explore next fuel stack t) := by
  induction fuel generalizing stack t with
  | zero =>
    obtain rfl : stack = [] := length_eq_zero_iff.mp (by omega)
    exact h
  | succ fuel ih =>
    cases stack with
    | nil => exact h
    | cons x stack =>
      obtain ⟨u, p⟩ := x
      rw [length_cons] at hfuel
      rw [explore_cons]
      split
      · next hu => exact ih (h.skip hu) (by omega)
      · next hu =>
        have hwaiting := Tree.waiting_enter (p := p) hnext hu
        refine ih (h.enter hu) ?_
        rw [length_append, length_map]
        omega

theorem Tree.not_has (v : V) : ¬({} : Tree V).has v := by
  simp [Tree.has, Dict.contains, Dict.get?, Dict.lookup]

theorem searching_table {ε : Type} {d : Dict V (List ε)} (hd : d.keys.Nodup) (far : ε → V) (v : V)
    (hn : d.values.flatten.length ≤ n) :
    Searching (fun u => (d.getD u []).map far) v [] (explore (fun u => (d.getD u []).map far) (n + 2) [(v, v)] {}) := by
  have hnext (u : V) (hu : u ∉ d.keys) : (d.getD u []).map far = [] := by
    rw [getD_of_not_mem hu]
    rfl
  have hwaiting : Tree.waiting (fun u => (d.getD u []).map far) d.keys {} = d.values.flatten.length := by
    rw [Tree.waiting, filter_eq_self.mpr fun u _ => by simpa using Tree.not_has u, ← flatMap_keys hd,
      ← map_flatMap, length_map]
  have hfirst := Tree.waiting_enter (p := v) hnext (Tree.not_has v)
  rw [explore_cons, if_neg (Tree.not_has v), append_nil]
  refine searching_explore hnext (n + 1) (.start _ v) ?_
  rw [length_map]
  omega

theorem Coherent.searching {g : Graph V L} (h : g.Coherent) (v : V) (backwards : Bool) :
    Searching (g.neighbours backwards) v [] (g.searchTree v backwards) := by
  cases backwards with
  | false => exact searching_table h.nodup_out Edge.dst v (Nat.le_of_eq g.numEdges_eq.symm)
  | true => exact searching_table h.nodup_into Edge.src v (Nat.le_of_eq (h.size.trans g.numEdges_eq.symm))

namespace Searching

variable (h : Searching next root [] t)

include h

theorem has_iff : t.has u ↔ Reaches next root u := by
  rw [Tree.has_iff]
  refine ⟨h.grown.reaches, fun hreaches => ?_⟩
  induction hreaches with
  | refl => exact h.grown.root_mem
  | tail _ hstep ih => exact (h.onward _ ih _ hstep).resolve_right not_mem_nil

theorem mem_ends : u ∈ t.ends ↔ Reaches next root u ∧ next u = [] := by
  rw [h.ends, List.mem_reverse, List.mem_filter, List.isEmpty_iff, ← Tree.has_iff, h.has_iff]

theorem exists_rises (hu : Reaches next root u) :
    ∃ arcs, Rises next root u arcs ∧ (∀ x ∈ arcs, t.parents.get? x.2 = some x.1) ∧ arcs.length < t.parents.size :=
  h.grown.exists_rises (Tree.has_iff.mp (h.has_iff.mpr hu))

end Searching

end Graph

end PacketSmith
