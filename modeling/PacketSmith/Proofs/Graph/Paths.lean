import Mathlib.Data.Finset.Card
import PacketSmith.Proofs.Graph.Searching

/-!
# Paths and dominators

A path of a graph is given as the list of its nodes (`Graph.Path`). A node dominates another one if it lies on
every path to it from the source.

In an acyclic graph a node reaches more nodes than the ones it leads to do (`Acyclic.exists_falling`), so
every node can be reached from one that no edge enters (`Acyclic.exists_source`).
-/

namespace PacketSmith.Graph

open List

variable {V L : Type} [DecidableEq V] {g : Graph V L} {u v w : V} {ns ms : List V}

/-- A path from one node to another, as the nodes on it. -/
inductive Path (g : Graph V L) : V → V → List V → Prop
  | stop (v : V) : Path g v v [v]
  | step {u w : V} {e : Edge V L} {ns : List V} (leaves : e ∈ g.outEdges u) (onward : Path g e.dst w ns) :
      Path g u w (u :: ns)

/-- The edges follow each other in the graph, from a node on. -/
def Route (g : Graph V L) : V → List (Edge V L) → Prop
  | _, [] => True
  | v, e :: rest => e ∈ g.outEdges v ∧ Route g e.dst rest

instance decidableRoute [DecidableEq L] (g : Graph V L) : (v : V) → (path : List (Edge V L)) → Decidable (g.Route v path)
  | _, [] => .isTrue trivial
  | v, e :: rest =>
    have := decidableRoute g e.dst rest
    inferInstanceAs (Decidable (e ∈ g.outEdges v ∧ g.Route e.dst rest))

theorem Route.exists_outEdges (h : g.Route u path) : ∀ e ∈ path, ∃ v, e ∈ g.outEdges v := by
  induction path generalizing u with
  | nil => simp
  | cons a path ih => exact forall_mem_cons.mpr ⟨⟨u, h.1⟩, ih h.2⟩

/-- A node lies on every path from the source to another node. -/
def Dominates (g : Graph V L) (source u v : V) : Prop := ∀ ns, g.Path source v ns → u ∈ ns

/-- No path with an edge comes back to where it started. -/
def Acyclic (g : Graph V L) : Prop := ∀ v ns, g.Path v v ns → ns = [v]

namespace Path

theorem first_mem (h : g.Path u w ns) : u ∈ ns := by
  cases h <;> exact mem_cons_self

theorem last_mem (h : g.Path u w ns) : w ∈ ns := by
  induction h with
  | stop v => exact mem_singleton_self v
  | step _ _ ih => exact mem_cons_of_mem _ ih

theorem append (h : g.Path u v ns) (h' : g.Path v w ms) : g.Path u w (ns ++ ms.tail) := by
  induction h with
  | stop v => cases h' with
    | stop => exact .stop _
    | step leaves onward => exact .step leaves onward
  | step leaves _ ih => exact .step leaves (ih h')

theorem concat (h : g.Path u v ns) (leaves : e ∈ g.outEdges v) : g.Path u e.dst (ns ++ [e.dst]) :=
  h.append (.step leaves (.stop e.dst))

theorem cases_last (h : g.Path u w ns) :
    u = w ∧ ns = [w] ∨ ∃ v e ms, e ∈ g.outEdges v ∧ e.dst = w ∧ g.Path u v ms ∧ ns = ms ++ [w] := by
  induction h with
  | stop v => exact .inl ⟨rfl, rfl⟩
  | @step u w e ns leaves onward ih =>
    right
    rcases ih with ⟨rfl, rfl⟩ | ⟨v, e', ms, leaves', hdst, hms, rfl⟩
    · exact ⟨u, e, [u], leaves, rfl, .stop u, rfl⟩
    · exact ⟨v, e', u :: ms, leaves', hdst, .step leaves hms, rfl⟩

theorem reaches (h : g.Path u w ns) (hv : v ∈ ns) : Reaches (g.neighbours false) v w := by
  induction h generalizing v with
  | stop w =>
    rw [mem_singleton.mp hv]
    exact .refl
  | @step u w e ns leaves onward ih =>
    rcases mem_cons.mp hv with rfl | hv
    · exact (ih onward.first_mem).head (mem_map_of_mem leaves)
    · exact ih hv

end Path

theorem reaches_iff_path : Reaches (g.neighbours false) u w ↔ ∃ ns, g.Path u w ns := by
  refine ⟨fun h => ?_, fun h => ?_⟩
  · induction h with
    | refl => exact ⟨_, .stop u⟩
    | tail _ hstep ih =>
      obtain ⟨ns, hns⟩ := ih
      obtain ⟨e, he, rfl⟩ := mem_map.mp hstep
      exact ⟨_, hns.concat he⟩
  · obtain ⟨ns, hns⟩ := h
    exact hns.reaches hns.first_mem

theorem Coherent.dst_mem_nodes (hg : g.Coherent) (he : e ∈ g.outEdges u) : e.dst ∈ g.nodes := by
  obtain ⟨e', he', -⟩ := hg.mem_inEdges.mpr (arcs_pos.mpr ⟨e, he, rfl⟩)
  exact (hg.nodes _).mp (Dict.mem_keys_of_mem he')

theorem Coherent.reaches_backwards (h : g.Coherent) :
    Reaches (g.neighbours true) v u ↔ Reaches (g.neighbours false) u v := by
  have hstep : (fun a b => b ∈ g.neighbours true a) = Function.swap fun a b => b ∈ g.neighbours false a := by
    funext a b
    refine propext ?_
    change b ∈ (g.inEdges a).map Edge.src ↔ a ∈ (g.outEdges b).map Edge.dst
    rw [mem_map, mem_map, h.mem_inEdges, arcs_pos]
  unfold Reaches
  rw [hstep, Relation.reflTransGen_swap]

namespace Acyclic

theorem not_reaches (h : g.Acyclic) (leaves : e ∈ g.outEdges u) : ¬Reaches (g.neighbours false) e.dst u := by
  intro hreaches
  obtain ⟨ns, hns⟩ := reaches_iff_path.mp hreaches
  have hloop := h u _ (.step leaves hns)
  exact absurd (tail_eq_of_cons_eq hloop) (ne_nil_of_mem hns.first_mem)

theorem of_rank (rank : V → Nat) (hrank : ∀ u, ∀ e ∈ g.outEdges u, rank u < rank e.dst) : g.Acyclic := by
  have hle {u w : V} {ns : List V} (h : g.Path u w ns) : rank u ≤ rank w := by
    induction h with
    | stop v => exact Nat.le_refl _
    | step leaves _ ih => exact Nat.le_trans (Nat.le_of_lt (hrank _ _ leaves)) ih
  intro v ns h
  cases h with
  | stop => rfl
  | step leaves onward => exact absurd (hrank _ _ leaves) (Nat.not_lt.mpr (hle onward))

end Acyclic

theorem mem_nodes_of_outEdges (leaves : e ∈ g.outEdges u) : u ∈ g.nodes := Dict.mem_keys_of_mem leaves

/-- Every edge leads downwards, from no higher than the number of nodes. -/
structure Falling (g : Graph V L) (height : V → Nat) : Prop where
  falls : ∀ {u : V} {e : Edge V L}, e ∈ g.outEdges u → height e.dst < height u
  le : ∀ u, height u ≤ g.nodes.length

theorem Falling.reaches_le {height : V → Nat} (h : g.Falling height) (hreaches : Reaches (g.neighbours false) u w) :
    height w ≤ height u := by
  induction hreaches with
  | refl => exact Nat.le_refl _
  | tail _ hstep ih =>
    obtain ⟨e, he, rfl⟩ := mem_map.mp hstep
    exact (h.falls he).le.trans ih

theorem Acyclic.exists_falling (h : g.Acyclic) : ∃ height, g.Falling height := by
  classical
  refine ⟨fun u => (g.nodes.toFinset.filter fun w => Reaches (g.neighbours false) u w).card, fun {u e} leaves => ?_,
    fun u => (Finset.card_filter_le _ _).trans (toFinset_card_le _)⟩
  have hstep : Reaches (g.neighbours false) u e.dst := .single (mem_map_of_mem leaves)
  refine Finset.card_lt_card (Finset.ssubset_iff_of_subset (fun w hw => ?_) |>.mpr ⟨u, ?_, fun hmem => ?_⟩)
  · rw [Finset.mem_filter] at hw ⊢
    exact ⟨hw.1, hstep.trans hw.2⟩
  · exact Finset.mem_filter.mpr ⟨mem_toFinset.mpr (mem_nodes_of_outEdges leaves), .refl⟩
  · exact h.not_reaches leaves (Finset.mem_filter.mp hmem).2

/-- What holds of a node if it holds of the nodes with an edge to it holds of all nodes. -/
theorem Acyclic.forward (h : g.Acyclic) {P : V → Prop} (step : ∀ v, (∀ u, ∀ e ∈ g.outEdges u, e.dst = v → P u) → P v)
    (v : V) : P v := by
  obtain ⟨height, hheight⟩ := h.exists_falling
  -- back along an edge it goes up
  induction hn : g.nodes.length - height v using Nat.strong_induction_on generalizing v with
  | _ n ih =>
    refine step v fun u e he hdst => ih _ ?_ u rfl
    have hfalls := hdst ▸ hheight.falls he
    have hle := hheight.le u
    omega

theorem Acyclic.exists_source (h : g.Acyclic) (hg : g.Coherent) (u : V) :
    ∃ s, g.inEdges s = [] ∧ Reaches (g.neighbours false) s u := by
  refine h.forward (P := fun u => ∃ s, g.inEdges s = [] ∧ Reaches (g.neighbours false) s u) (fun u ih => ?_) u
  cases hentering : g.inEdges u with
  | nil => exact ⟨u, hentering, .refl⟩
  | cons e es =>
    have he : e ∈ g.inEdges u := hentering ▸ mem_cons_self
    obtain ⟨e', leaves, rfl⟩ := arcs_pos.mp (hg.mem_inEdges.mp ⟨e, he, rfl⟩)
    obtain ⟨s, hs, hreaches⟩ := ih e.src e' leaves rfl
    exact ⟨s, hs, hreaches.tail (mem_map_of_mem leaves)⟩

end PacketSmith.Graph
