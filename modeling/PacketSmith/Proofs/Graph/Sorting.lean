import PacketSmith.Graph.Order
import PacketSmith.Proofs.Graph.Dominators

/-!
# Sorting the nodes of a graph

Throughout the sort the count of a node is the number of edges that enter it from nodes not yet placed, so it never
falls below zero, and the nodes whose count is zero are those that wait or were placed (`Sorting.Sound`). If nothing
waits, every node left out is entered from another one left out, which an acyclic graph does not allow.
-/

namespace PacketSmith.Graph

open List

variable {V L : Type} [DecidableEq V] {g : Graph V L} {u v : V} {placed : List V} {es : List (Edge V L)} {s : Sorting V}

/-- The edges into a node that are still counted, while edges of the last node wait to be released. -/
def remaining (g : Graph V L) (placed : List V) (waiting : List (Edge V L)) (v : V) : Nat :=
  (g.inEdges v).countP (fun e => e.src ∉ placed) + waiting.countP fun e => e.dst = v

theorem Coherent.remaining_place (hg : g.Coherent) (hu : u ∉ placed) (v : V) :
    g.remaining placed [] v = g.remaining (u :: placed) (g.outEdges u) v := by
  have hsplit (es : List (Edge V L)) : es.countP (fun e => e.src ∉ placed) =
      es.countP (fun e => e.src ∉ u :: placed) + es.countP fun e => e.src = u := by
    induction es with
    | nil => rfl
    | cons e es ih =>
      rw [countP_cons, countP_cons, countP_cons, ih]
      by_cases he : e.src = u
      · simp [he, hu]
        omega
      · simp [he]
        omega
  rw [remaining, hsplit, hg.arcs]
  rfl

theorem remaining_eq_zero (h : g.remaining placed [] v = 0) : ∀ e ∈ g.inEdges v, e.src ∈ placed := by
  simpa [remaining] using h

theorem idxOf_lt_of_sublist (h : [u, v].Sublist placed) (hnodup : placed.Nodup) : placed.idxOf u < placed.idxOf v := by
  induction placed with
  | nil => cases h
  | cons a placed ih =>
    obtain ⟨ha, hnodup⟩ := nodup_cons.mp hnodup
    cases h with
    | cons _ h =>
      have hne : ∀ w ∈ [u, v], a ≠ w := fun w hw heq => ha (heq ▸ h.subset hw)
      rw [idxOf_cons_ne _ (hne u (by simp)), idxOf_cons_ne _ (hne v (by simp))]
      exact Nat.succ_lt_succ (ih h hnodup)
    | cons_cons _ h =>
      have hv : v ∈ placed := singleton_sublist.mp h
      rw [idxOf_cons_self, idxOf_cons_ne _ (ne_of_mem_of_not_mem hv ha).symm]
      exact Nat.succ_pos _

namespace Sorting

structure Sound (g : Graph V L) (waiting : List (Edge V L)) (s : Sorting V) : Prop where
  counts : ∀ v ∈ g.nodes, s.counts.get? v = some (g.remaining s.placed waiting v)
  zero : ∀ v, v ∈ s.ready ++ s.placed ↔ v ∈ g.nodes ∧ g.remaining s.placed waiting v = 0
  nodup : (s.ready ++ s.placed).Nodup
  before : ∀ u, ∀ e ∈ g.outEdges u, e.dst ∈ s.placed → [e.dst, u].Sublist s.placed

theorem sound_start (hg : g.Coherent) : Sound g [] (start g) where
  counts v hv := by
    have hmap (es : List (V × List (Edge V L))) :
        Dict.lookup v (es.map fun e => (e.1, e.2.length)) = (Dict.lookup v es).map List.length := by
      induction es with
      | nil => rfl
      | cons e es ih => by_cases h : e.1 = v <;> simp [Dict.lookup, h, ih]
    have hcount : (start g).counts.get? v = (g.into.get? v).map List.length := hmap g.into.entries
    rw [hcount, Dict.get?_eq_getD ((hg.nodes v).mpr hv) []]
    simp [start, remaining, inEdges]
  zero v := by simp [start, sources, remaining]
  nodup := by simpa [start, sources, nodes] using hg.nodup_out.filter fun v => (g.inEdges v).isEmpty
  before _ _ _ h := absurd h not_mem_nil

/-- The edge is still counted, so the count is not yet zero. -/
theorem Sound.release (h : Sound g (e :: es) s) (he : e.dst ∈ g.nodes) :
    ∃ s', s.release e.dst = .ok s' ∧ s'.placed = s.placed ∧ Sound g es s' := by
  have hcons (v : V) : g.remaining s.placed (e :: es) v = g.remaining s.placed es v + if e.dst = v then 1 else 0 := by
    simp only [remaining, countP_cons, decide_eq_true_eq]
    omega
  have hcount := h.counts e.dst he
  rw [hcons, if_pos rfl] at hcount
  refine ⟨{ s with counts := s.counts.insert e.dst _, ready := if g.remaining s.placed es e.dst = 0 then _ else _ },
    by rw [Sorting.release, hcount], rfl, ?_⟩
  have hnew : e.dst ∉ s.ready ++ s.placed := by
    rw [h.zero, hcons]
    simp
  refine ⟨fun v hv => ?_, fun v => ?_, ?_, h.before⟩
  · rw [Dict.get?_insert]
    by_cases hv' : e.dst = v
    · rw [if_pos hv', hv']
    · rw [if_neg hv', h.counts v hv, hcons, if_neg hv', Nat.add_zero]
  · have hv := h.zero v
    rw [hcons] at hv
    by_cases hv' : e.dst = v
    · split <;> simp_all
    · rw [if_neg hv', Nat.add_zero] at hv
      rw [← hv]
      split <;> simp [Ne.symm hv']
  · split
    · exact nodup_cons.mpr ⟨hnew, h.nodup⟩
    · exact h.nodup

theorem Sound.releaseAll (h : Sound g es s) (hes : ∀ e ∈ es, e.dst ∈ g.nodes) :
    ∃ s', es.foldlM (fun s e => s.release e.dst) s = .ok s' ∧ s'.placed = s.placed ∧ Sound g [] s' := by
  induction es generalizing s with
  | nil => exact ⟨s, rfl, rfl, h⟩
  | cons e es ih =>
    obtain ⟨hfirst, hrest⟩ := forall_mem_cons.mp hes
    obtain ⟨s₁, hs₁, hplaced, hsound⟩ := h.release hfirst
    obtain ⟨s', hs', hplaced', hsound'⟩ := ih hsound hrest
    exact ⟨s', by rw [foldlM_cons, hs₁]; exact hs', hplaced'.trans hplaced, hsound'⟩

theorem Sound.place (hg : g.Coherent) (h : Sound g [] s) (hready : s.ready = u :: rest) :
    Sound g (g.outEdges u) { s with ready := rest, placed := u :: s.placed } := by
  have hnodup := h.nodup
  rw [hready, cons_append, nodup_cons] at hnodup
  have hu : u ∉ s.placed := fun hmem => hnodup.1 (mem_append_right _ hmem)
  have hzero := (h.zero u).mp (hready ▸ mem_cons_self)
  refine ⟨fun v hv => ?_, fun v => ?_, ?_, fun w e he hdst => ?_⟩
  · rw [← hg.remaining_place hu]
    exact h.counts v hv
  · rw [← hg.remaining_place hu, ← h.zero, hready]
    simp [or_left_comm]
  · exact perm_middle.nodup_iff.mpr (nodup_cons.mpr hnodup)
  · rcases mem_cons.mp hdst with hdst | hdst
    · obtain ⟨e', he', hsrc⟩ := hg.mem_inEdges.mpr (arcs_pos.mpr ⟨e, he, rfl⟩)
      rw [hdst] at he' ⊢
      exact (singleton_sublist.mpr (hsrc ▸ remaining_eq_zero hzero.2 e' he')).cons_cons u
    · exact (h.before w e he hdst).cons u

/-- The sort places as many nodes as it is given steps, unless nothing waits. -/
theorem Sound.run (hg : g.Coherent) (h : Sound g [] s) (n : Nat) : ∃ s', Sorting.run g n s = .ok s' ∧ Sound g [] s' ∧
    (s'.ready = [] ∨ s'.placed.length = s.placed.length + n) := by
  induction n generalizing s with
  | zero => exact ⟨s, rfl, h, .inr rfl⟩
  | succ n ih =>
    unfold Sorting.run
    cases hready : s.ready with
    | nil => exact ⟨s, rfl, h, .inl hready⟩
    | cons u rest =>
      have hu : u ∈ g.nodes := ((h.zero u).mp (hready ▸ mem_cons_self)).1
      obtain ⟨s₁, hs₁, hplaced, hsound⟩ := (h.place hg hready).releaseAll fun e he => hg.dst_mem_nodes he
      obtain ⟨s', hs', hsound', hlength⟩ := ih hsound
      refine ⟨s', ?_, hsound', ?_⟩
      · simp only [edgesFrom_eq hu, bind, Except.bind, hs₁, hs']
      · rwa [hplaced, length_cons, Nat.add_right_comm] at hlength

theorem Sound.subperm (h : Sound g [] s) : s.placed.Subperm g.nodes :=
  subperm_of_subset (nodup_append.mp h.nodup).2.1 fun v hv => ((h.zero v).mp (mem_append_right _ hv)).1

theorem Sound.acyclic_iff (hg : g.Coherent) (h : Sound g [] s)
    (hready : s.ready = [] ∨ s.placed.length = g.nodes.length) : g.Acyclic ↔ s.placed.Perm g.nodes := by
  refine ⟨fun hacyclic => ?_, fun hperm => ?_⟩
  · rcases hready with hready | hlength
    · refine h.subperm.antisymm (subperm_of_subset hg.nodup_out fun v hv => ?_)
      refine hacyclic.forward (P := fun v => v ∈ g.nodes → v ∈ s.placed) (fun v ih hv => ?_) v hv
      have hzero : g.remaining s.placed [] v = 0 := by
        simp only [remaining, countP_nil, Nat.add_zero, countP_eq_zero, decide_eq_true_eq, not_not]
        intro e he
        obtain ⟨e', he', hdst⟩ := arcs_pos.mp (hg.mem_inEdges.mp ⟨e, he, rfl⟩)
        exact ih e.src e' he' hdst (mem_nodes_of_outEdges he')
      have hmem := (h.zero v).mpr ⟨hv, hzero⟩
      rwa [hready] at hmem
    · exact h.subperm.perm_of_length_le hlength.ge
  · refine .of_rank (fun v => s.placed.length - s.placed.idxOf v) fun u e he => ?_
    have hbefore := h.before u e he (hperm.mem_iff.mpr (hg.dst_mem_nodes he))
    have hlt := idxOf_lt_of_sublist hbefore (hperm.nodup_iff.mpr hg.nodup_out)
    have hu := idxOf_lt_length_of_mem (hbefore.subset (mem_cons_of_mem _ mem_cons_self))
    omega

end Sorting

theorem Sorting.Sound.checkOrder (hg : g.Coherent) (h : Sound g [] s) (hperm : s.placed.Perm g.nodes) :
    g.checkOrder s.placed = .ok () := by
  have hforM {α : Type} (f : α → Except (Failure V) Unit) (as : List α) (hf : ∀ a ∈ as, f a = .ok ()) :
      as.forM f = .ok () := by
    induction as with
    | nil => rfl
    | cons a as ih =>
      obtain ⟨ha, hrest⟩ := forall_mem_cons.mp hf
      rw [forM_eq_forM, forM_cons, ha]
      exact ih hrest
  refine hforM _ _ fun u hu => ?_
  rw [placedAfter, if_pos (hperm.mem_iff.mpr hu), edgesFrom_eq hu]
  refine hforM _ _ fun e he => ?_
  have hdst : e.dst ∈ s.placed := hperm.mem_iff.mpr (hg.dst_mem_nodes he)
  rw [placedAfter, if_pos hdst]
  exact if_pos (idxOf_lt_of_sublist (h.before u e he hdst) (hperm.nodup_iff.mpr hg.nodup_out))

/-- An acyclic graph has an order of all its nodes in which every edge leads to a later node, and for a graph with a cycle
there is none. No count falls below zero. -/
theorem topologicalOrder_sorts (hg : g.Built) :
    (g.Acyclic → ∃ order, g.topologicalOrder = .ok order ∧ order.Perm g.nodes ∧
      ∀ u, ∀ e ∈ g.outEdges u, [u, e.dst].Sublist order) ∧
    (¬g.Acyclic → g.topologicalOrder = .error .cyclic) := by
  replace hg := hg.coherent
  obtain ⟨s, hrun, hsound, hend⟩ := (Sorting.sound_start hg).run hg g.nodes.length
  rw [show (Sorting.start g).placed.length = 0 from rfl, Nat.zero_add] at hend
  rw [hsound.acyclic_iff hg hend, topologicalOrder, hrun]
  refine ⟨fun hperm => ⟨s.placed.reverse, ?_, s.placed.reverse_perm.trans hperm, fun u e he => ?_⟩, fun hcycle => ?_⟩
  · have hready : s.ready = [] := eq_nil_iff_forall_not_mem.mpr fun v hv =>
      (nodup_append.mp hsound.nodup).2.2 v hv v
        (hperm.mem_iff.mpr ((hsound.zero v).mp (mem_append_left _ hv)).1) rfl
    simp [bind, Except.bind, pure, Except.pure, hperm.length_eq, hready, hsound.checkOrder hg hperm]
  · exact (hsound.before u e he (hperm.mem_iff.mpr (hg.dst_mem_nodes he))).reverse
  · have hlt : s.placed.length < g.nodes.length := by
      by_contra hle
      exact hcycle (hsound.subperm.perm_of_length_le (Nat.not_lt.mp hle))
    exact if_pos hlt

/-- The hourglass has parallel edges. With an edge back it has a cycle. -/
theorem topologicalOrder_hourglass :
    hourglass.Built ∧ hourglass.Acyclic ∧
      (∃ order, hourglass.topologicalOrder = .ok order ∧ order.Perm hourglass.nodes ∧
        ∀ u, ∀ e ∈ hourglass.outEdges u, [u, e.dst].Sublist order) ∧
      (hourglass.addEdge ⟨.text "d", .text "b", ()⟩).topologicalOrder = .error .cyclic := by
  have hbuilt : hourglass.Built := .addEdge (.addEdge (.addEdge (.addEdge (.addEdge (.addEdge .empty _) _) _) _) _) _
  refine ⟨hbuilt, hourglass_acyclic, (topologicalOrder_sorts hbuilt).1 hourglass_acyclic,
    (topologicalOrder_sorts (hbuilt.addEdge _)).2 fun hacyclic => ?_⟩
  have hloop := hacyclic (.text "b") _ (.step (e := ⟨.text "b", .text "d", ()⟩) (by decide)
    (.step (e := ⟨.text "d", .text "b", ()⟩) (by decide) (.stop _)))
  cases hloop

end PacketSmith.Graph
