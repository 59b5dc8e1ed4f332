import PacketSmith.Proofs.Graph.Residual
import PacketSmith.Proofs.Graph.Paths

/-!
# The immediate dominator

`Graph.ancestor` gives the last node before `v` that every path from the source to `v` goes through. A path from `v`
to the source is turned in the graph of split nodes. If the source is no longer reached, the one arc that leaves what
is reached joins the halves of a node (`Leading.halves_of_cut`), and no path goes around it. Conversely, if all paths
go through `d`, what is reached stays within the nodes from which `v` can be reached around `d` (`Leading.around`).
-/

namespace PacketSmith.Graph

open List Half

variable {V L : Type} [DecidableEq V] {g : Graph V L} {v source u w d : V} {reached : List V}

/-! ## The arcs of the split graph -/

def Half.near (v source u : V) : Half V := if u = v || u = source then .whole u else .entry u

def Half.far (v source u : V) : Half V := if u = v || u = source then .whole u else .exit u

def Half.node : Half V → V
  | .whole u => u
  | .entry u => u
  | .exit u => u

@[simp] theorem Half.node_near (v source u : V) : (near v source u).node = u := by
  unfold near
  split <;> rfl

@[simp] theorem Half.node_far (v source u : V) : (far v source u).node = u := by
  unfold far
  split <;> rfl

@[simp] theorem Half.near_target (v source : V) : near v source v = .whole v := by simp [near]

@[simp] theorem Half.far_target (v source : V) : far v source v = .whole v := by simp [far]

@[simp] theorem Half.near_source (v source : V) : near v source source = .whole source := by simp [near]

theorem Half.near_of_split (hv : u ≠ v) (hs : u ≠ source) : near v source u = .entry u := by simp [near, hv, hs]

theorem Half.far_of_split (hv : u ≠ v) (hs : u ≠ source) : far v source u = .exit u := by simp [far, hv, hs]

theorem Half.near_ne_exit (v source u w : V) : near v source u ≠ .exit w := by
  unfold near
  split <;> simp

theorem Half.far_ne_entry (v source u w : V) : far v source u ≠ .entry w := by
  unfold far
  split <;> simp

def halfEdges (v source : V) (reached : List V) : List (Edge (Half V) Unit) :=
  (reached.filter fun u => !(u = v || u = source)).map fun u => ⟨near v source u, far v source u, ()⟩

def turnedEdges (g : Graph V L) (v source : V) (reached : List V) : List (Edge (Half V) Unit) :=
  reached.flatMap fun u => ((g.inEdges u).filter fun e => reached.contains e.src).map fun e =>
    ⟨far v source u, near v source e.src, ()⟩

theorem splitGraph_eq (g : Graph V L) (v source : V) (reached : List V) :
    g.splitGraph v source reached = (halfEdges v source reached ++ turnedEdges g v source reached).foldl addEdge empty := by
  have hhalves : (fun (f : Graph (Half V) Unit) u => if (!(decide (u = v) || decide (u = source))) = true then
      f.addEdge ⟨near v source u, far v source u, ()⟩ else f) =
      fun f u => if (decide (u = v) || decide (u = source)) = true then f
        else f.addEdge ⟨near v source u, far v source u, ()⟩ := by
    funext f u
    cases decide (u = v) || decide (u = source) <;> rfl
  rw [foldl_append, turnedEdges, foldl_flatMap, halfEdges, foldl_map, foldl_filter, hhalves]
  simp only [foldl_map, foldl_filter]
  rfl

theorem splitGraph_coherent (g : Graph V L) (v source : V) (reached : List V) :
    (g.splitGraph v source reached).Coherent :=
  splitGraph_eq g v source reached ▸ Coherent.empty.foldl_addEdge _

/-- An arc of the split graph joins the halves of a node or goes against an edge. -/
theorem arcs_splitGraph_pos :
    0 < (g.splitGraph v source reached).arcs a b ↔
      (∃ u ∈ reached, u ≠ v ∧ u ≠ source ∧ a = .entry u ∧ b = .exit u) ∨ ∃ u ∈ reached,
      ∃ e ∈ g.inEdges u, e.src ∈ reached ∧ a = far v source u ∧ b = near v source e.src := by
  have hempty : (empty : Graph (Half V) Unit).arcs a b = 0 := rfl
  rw [splitGraph_eq, arcs_foldl_addEdge, hempty, Nat.zero_add, countP_pos_iff]
  simp only [mem_append, decide_eq_true_eq]
  constructor
  · rintro ⟨e, he | he, rfl, rfl⟩
    · obtain ⟨u, hu, rfl⟩ := mem_map.mp he
      obtain ⟨hmem, hsplit⟩ := mem_filter.mp hu
      simp only [Bool.not_eq_true', Bool.or_eq_false_iff, decide_eq_false_iff_not] at hsplit
      exact .inl ⟨u, hmem, hsplit.1, hsplit.2, near_of_split hsplit.1 hsplit.2, far_of_split hsplit.1 hsplit.2⟩
    · obtain ⟨u, hu, he⟩ := mem_flatMap.mp he
      obtain ⟨e, hentering, rfl⟩ := mem_map.mp he
      obtain ⟨hmem, hsrc⟩ := mem_filter.mp hentering
      exact .inr ⟨u, hu, e, hmem, contains_iff_mem.mp hsrc, rfl, rfl⟩
  · rintro (⟨u, hu, hv, hs, rfl, rfl⟩ | ⟨u, hu, e, he, hsrc, rfl, rfl⟩)
    · refine ⟨_, .inl (mem_map.mpr ⟨u, mem_filter.mpr ⟨hu, by simp [hv, hs]⟩, rfl⟩), ?_⟩
      exact ⟨near_of_split hv hs, far_of_split hv hs⟩
    · refine ⟨_, .inr (mem_flatMap.mpr ⟨u, hu, mem_map.mpr ⟨e, ?_, rfl⟩⟩), rfl, rfl⟩
      exact mem_filter.mpr ⟨he, contains_iff_mem.mpr hsrc⟩

theorem arcs_halves (hnodup : reached.Nodup) (hu : u ∈ reached) (hv : u ≠ v) (hs : u ≠ source) :
    (g.splitGraph v source reached).arcs (.entry u) (.exit u) = 1 := by
  have hempty : (empty : Graph (Half V) Unit).arcs (.entry u) (.exit u) = 0 := rfl
  have hturned : (turnedEdges g v source reached).countP (fun e => e.src = .entry u ∧ e.dst = .exit u) = 0 := by
    rw [countP_eq_zero]
    intro e he
    obtain ⟨w, -, he⟩ := mem_flatMap.mp he
    obtain ⟨e, -, rfl⟩ := mem_map.mp he
    simp [far_ne_entry]
  have hhalves : (halfEdges v source reached).countP (fun e => e.src = .entry u ∧ e.dst = .exit u) = 1 := by
    have hmem : u ∈ reached.filter fun u => !(u = v || u = source) := mem_filter.mpr ⟨hu, by simp [hv, hs]⟩
    rw [halfEdges, countP_map, ← count_eq_one_of_mem (hnodup.filter _) hmem]
    refine countP_congr fun w hw => ?_
    obtain ⟨-, hsplit⟩ := mem_filter.mp hw
    simp only [Bool.not_eq_true', Bool.or_eq_false_iff, decide_eq_false_iff_not] at hsplit
    simp [near_of_split hsplit.1 hsplit.2, far_of_split hsplit.1 hsplit.2]
  rw [splitGraph_eq, arcs_foldl_addEdge, hempty, countP_append, hhalves, hturned]

/-! ## Paths in the split graph -/

/-- A set that is left only by bad nodes holds both halves of a node. -/
theorem far_of_near {S B : Half V → Prop}
    (hS : ∀ a b, 0 < (g.splitGraph v source reached).arcs a b → S a → ¬B a → S b) (hu : u ∈ reached)
    (hnear : S (.near v source u)) (hgood : ¬B (.near v source u)) : S (.far v source u) := by
  by_cases hsplit : u ≠ v ∧ u ≠ source
  · rw [near_of_split hsplit.1 hsplit.2] at hnear hgood
    rw [far_of_split hsplit.1 hsplit.2]
    exact hS _ _ (arcs_splitGraph_pos.mpr (.inl ⟨u, hu, hsplit.1, hsplit.2, rfl, rfl⟩)) hnear hgood
  · have hwhole : (decide (u = v) || decide (u = source)) = true := by
      rw [Bool.or_eq_true, decide_eq_true_eq, decide_eq_true_eq]
      tauto
    rw [near, if_pos hwhole] at hnear
    rwa [far, if_pos hwhole]

/-- The nodes that lead to `v`, which all come from the source. -/
structure Leading (g : Graph V L) (v source : V) (reached : List V) : Prop where
  coherent : g.Coherent
  acyclic : g.Acyclic
  nodup : reached.Nodup
  mem : ∀ u, u ∈ reached ↔ Reaches (g.neighbours false) u v
  entered : g.inEdges source = []
  path : ∀ u ∈ reached, ∃ ns, g.Path source u ns
  ne : source ≠ v

namespace Leading

variable (h : Leading g v source reached)

include h

theorem v_mem : v ∈ reached := (h.mem v).mpr .refl

theorem mem_of_edge (he : e ∈ g.outEdges u) (hmem : e.dst ∈ reached) : u ∈ reached :=
  (h.mem u).mpr (((h.mem _).mp hmem).head (mem_map_of_mem he))

theorem arcs_of_edge (he : e ∈ g.outEdges u) (hmem : e.dst ∈ reached) :
    0 < (g.splitGraph v source reached).arcs (.far v source e.dst) (.near v source u) := by
  obtain ⟨e', he', rfl⟩ := h.coherent.mem_inEdges.mpr (arcs_pos.mpr ⟨e, he, rfl⟩)
  exact arcs_splitGraph_pos.mpr (.inr ⟨_, hmem, e', he', h.mem_of_edge he hmem, rfl, rfl⟩)

variable {S B : Half V → Prop}
  (hS : ∀ a b, 0 < (g.splitGraph v source reached).arcs a b → S a → ¬B a → S b)

include hS

theorem carried (hpath : g.Path u w ns) (hw : w ∈ reached) (hnear : S (.near v source w))
    (hgood : ∀ z ∈ ns, ¬B (.near v source z) ∧ ¬B (.far v source z)) :
    u ∈ reached ∧ S (.near v source u) ∧ S (.far v source u) := by
  induction hpath with
  | stop w => exact ⟨hw, hnear, far_of_near hS hw hnear (hgood w mem_cons_self).1⟩
  | @step u w e ns leaves onward ih =>
    obtain ⟨hmem, -, hfar⟩ := ih hw hnear fun z hz => hgood z (mem_cons_of_mem _ hz)
    have hu := h.mem_of_edge leaves hmem
    have hnear := hS _ _ (h.arcs_of_edge leaves hmem) hfar (hgood e.dst (mem_cons_of_mem _ onward.first_mem)).2
    exact ⟨hu, hnear, far_of_near hS hu hnear (hgood u mem_cons_self).1⟩

end Leading

/-! ## The node that separates -/

namespace Leading

variable (h : Leading g v source reached)

include h

theorem reaches_source : Reaches ((g.splitGraph v source reached).neighbours false) (.whole v) (.whole source) := by
  obtain ⟨ns, hns⟩ := h.path v h.v_mem
  have hcarried := h.carried (S := Reaches ((g.splitGraph v source reached).neighbours false) (.whole v))
    (B := fun _ => False) (fun a b harc ha _ => ha.tail (mem_neighbours.mpr harc)) hns h.v_mem
    (by rw [near_target]; exact .refl) (fun _ _ => ⟨id, id⟩)
  simpa using hcarried.2.1

variable {path : List (Half V × Half V)} {rest : Graph (Half V) Unit} {a b : Half V}
  (hres : Residual (g.splitGraph v source reached) (.whole v) (.whole source) path rest)

include hres

theorem around (hd : g.Dominates source d v) (hdv : d ≠ v) (hds : d ≠ source)
    (ha : Reaches (rest.neighbours false) (.whole v) a) : a = .entry d ∨ ∃ ns, g.Path a.node v ns ∧ d ∉ ns := by
  have hmem : d ∈ reached := by
    obtain ⟨ns, hns⟩ := h.path v h.v_mem
    exact (h.mem d).mpr (hns.reaches (hd ns hns))
  refine hres.within (A := fun a => a = .entry d ∨ ∃ ns, g.Path a.node v ns ∧ d ∉ ns) (a := .entry d) (b := .exit d)
    ?_ ?_ (arcs_halves h.nodup hmem hdv hds).le ?_ ha
  · exact .inr ⟨_, .stop v, by simpa using hdv⟩
  · rintro (heq | ⟨ns, hns, hnot⟩)
    · cases heq
    · exact hnot (hd ns hns)
  · rintro c e harc hc he
    rw [not_or] at he
    rcases arcs_splitGraph_pos.mp harc with ⟨u, -, -, -, rfl, rfl⟩ | ⟨u, -, edge, hedge, -, rfl, rfl⟩
    · rcases hc with hc | hpath
      · cases hc
        rfl
      · exact absurd hpath he.2
    · exfalso
      rcases hc with hc | ⟨ns, hns, hnot⟩
      · exact far_ne_entry _ _ _ _ hc
      · obtain ⟨edge', hleaves, hdst⟩ := arcs_pos.mp (h.coherent.mem_inEdges.mp ⟨edge, hedge, rfl⟩)
        rw [node_far, ← hdst] at hns
        have hthrough : d = edge.src := by
          by_contra hne
          exact he.2 ⟨_, by rw [node_near]; exact .step hleaves hns, by simp [hne, hnot]⟩
        rw [← hthrough, near_of_split hdv hds] at he
        exact he.1 rfl

/-- The arc that leaves what is reached joins the halves of a node, if several nodes lead to `v` directly. -/
theorem halves_of_cut (htwo : ∀ w, ∃ e ∈ g.inEdges v, e.src ≠ w)
    (hcut : Cut (g.splitGraph v source reached) (Reaches (rest.neighbours false) (.whole v)) a b)
    (hmem : (a, b) ∈ path) (hsource : ¬Reaches (rest.neighbours false) (.whole v) (.whole source)) :
    ∃ x ∈ reached, x ≠ v ∧ x ≠ source ∧ a = .entry x ∧ b = .exit x := by
  have harc : 0 < (g.splitGraph v source reached).arcs a b := by
    rw [hcut.single]
    exact Nat.zero_lt_one
  rcases arcs_splitGraph_pos.mp harc with hhalves | ⟨u, hu, edge, hedge, hsrc, rfl, rfl⟩
  · exact hhalves
  · exfalso
    have hus : u ≠ source := by
      rintro rfl
      rw [h.entered] at hedge
      cases hedge
    by_cases huv : u = v
    · -- another node leads to `v`, and a path from the source to it does not go through `v`
      subst huv
      obtain ⟨other, hother, hne⟩ := htwo edge.src
      obtain ⟨edge', hleaves, hdst⟩ := arcs_pos.mp (h.coherent.mem_inEdges.mp ⟨other, hother, rfl⟩)
      have hmem' : other.src ∈ reached := h.mem_of_edge hleaves (hdst ▸ h.v_mem)
      have hnear : Reaches (rest.neighbours false) (.whole u) (.near u source other.src) := by
        by_contra hfar
        have harc' := h.arcs_of_edge hleaves (hdst ▸ h.v_mem)
        rw [hdst, far_target] at harc'
        have hsame := congrArg node (hcut.only _ _ harc' .refl hfar).2
        rw [node_near, node_near] at hsame
        exact hne hsame
      obtain ⟨ns, hns⟩ := h.path _ hmem'
      have hnot : u ∉ ns := fun hu => h.acyclic.not_reaches hleaves (hdst ▸ hns.reaches hu)
      have hcarried := h.carried (B := fun a => a.node = u) (fun a b harc ha hgood => by
        by_contra hb
        have hsame := (hcut.only a b harc ha hb).1
        exact hgood (by rw [hsame, node_far])) hns hmem' hnear fun z hz => by
          rw [node_near, node_far]
          exact ⟨fun hzu => hnot (hzu ▸ hz), fun hzu => hnot (hzu ▸ hz)⟩
      rw [near_source] at hcarried
      exact hsource hcarried.2.1
    · rw [far_of_split huv hus] at hcut hmem
      have hroot := hres.start_of_cut hcut hmem (c := .entry u) (fun c hc => ?_) (arcs_halves h.nodup hu huv hus).le
      · cases hroot
      · rcases arcs_splitGraph_pos.mp hc with ⟨w, -, -, -, rfl, hw⟩ | ⟨_, -, e, -, -, -, hw⟩
        · cases hw
          rfl
        · exact absurd hw.symm (near_ne_exit _ _ _ _)

omit hres in
/-- Every path goes through the node whose halves are joined by the arc that leaves a set without the source. -/
theorem dominates_of_cut {S : Half V → Prop} {x : V} (hv : S (.whole v))
    (hcut : Cut (g.splitGraph v source reached) S (.entry x) (.exit x)) (hsource : ¬S (.whole source)) :
    g.Dominates source x v := by
  intro ns hns
  by_contra hnot
  have hcarried := h.carried (S := S) (B := fun a => a = .entry x) (fun a b harc ha hgood => by
    by_contra hb
    exact hgood (hcut.only a b harc ha hb).1) hns h.v_mem (by rwa [near_target]) fun z hz => by
      refine ⟨fun heq => hnot ?_, far_ne_entry _ _ _ _⟩
      have hnode : z = x := (node_near v source z).symm.trans (congrArg node heq)
      exact hnode ▸ hz
  rw [near_source] at hcarried
  exact hsource hcarried.2.1

omit hres in
theorem exists_separator (htwo : ∀ w, ∃ e ∈ g.inEdges v, e.src ≠ w) :
    ∃ u, separator (g.splitGraph v source reached) v source = .ok u ∧ u ≠ v ∧
      g.Dominates source u v ∧ ∀ d, d ≠ v → g.Dominates source d v → g.Dominates source d u := by
  have hf := splitGraph_coherent g v source reached
  have hfirst := hf.searching (.whole v) false
  have hreached := h.reaches_source
  obtain ⟨path, hrises, hparents, hlength⟩ := hfirst.exists_rises hreached
  obtain ⟨rest, hreverse, hrest, hturned⟩ := exists_reversePath hrises (by simpa using h.ne) hf
    (fun x hx => mem_neighbours.mp (hrises.arc hx)) hparents hlength.le
  have hres : Residual (g.splitGraph v source reached) (.whole v) (.whole source) path rest := ⟨hrises, hturned⟩
  have hsecond := hrest.searching (.whole v) false
  have hfrom : g.Dominates source source v := fun ns hns => hns.first_mem
  unfold separator
  simp only [hfirst.has_iff.mpr hreached, hreverse, Bool.not_true, Bool.false_eq_true, if_false]
  split
  · next hagain =>
    refine ⟨source, rfl, h.ne, hfrom, fun d hdv hd ns hns => ?_⟩
    by_cases hds : d = source
    · exact hds ▸ hns.first_mem
    · rcases h.around hres hd hdv hds (hsecond.has_iff.mp hagain) with heq | ⟨ms, hms, hnot⟩
      · cases heq
      · exact absurd (hd ms hms) hnot
  · next hagain =>
    have hcutoff : ¬Reaches (rest.neighbours false) (.whole v) (.whole source) := fun hr => hagain (hsecond.has_iff.mpr hr)
    obtain ⟨a, b, hcut, hmem⟩ := hres.exists_cut hcutoff
    obtain ⟨x, hx, hxv, hxs, rfl, rfl⟩ := h.halves_of_cut hres htwo hcut hmem hcutoff
    rw [hcut.edges_leaving hf hsecond.grown.nodup fun w => hsecond.has_iff]
    refine ⟨x, if_pos rfl, hxv, h.dominates_of_cut .refl hcut hcutoff, fun d hdv hd ns hns => ?_⟩
    by_cases hds : d = source
    · exact hds ▸ hns.first_mem
    · rcases h.around hres hd hdv hds hcut.near with heq | ⟨ms, hms, hnot⟩
      · cases heq
        exact hns.last_mem
      · have hlong := hd _ (hns.append hms)
        exact (mem_append.mp hlong).resolve_right fun hd => hnot (mem_of_mem_tail hd)

end Leading

theorem dominates_of_single (hg : g.Coherent) (hsource : g.inEdges source = []) (he : e ∈ g.inEdges v)
    (hall : ∀ e' ∈ g.inEdges v, e'.src = e.src) :
    g.Dominates source e.src v ∧ ∀ d, d ≠ v → g.Dominates source d v → g.Dominates source d e.src := by
  constructor
  · intro ns hns
    rcases hns.cases_last with ⟨rfl, -⟩ | ⟨w, edge, ms, hleaves, hdst, hms, rfl⟩
    · rw [hsource] at he
      cases he
    · obtain ⟨e', he', rfl⟩ := hg.mem_inEdges.mpr (arcs_pos.mpr ⟨edge, hleaves, hdst⟩)
      exact mem_append_left _ (hall e' he' ▸ hms.last_mem)
  · intro d hdv hd ns hns
    obtain ⟨edge, hleaves, hdst⟩ := arcs_pos.mp (hg.mem_inEdges.mp ⟨e, he, rfl⟩)
    have hmem := hd _ (hdst ▸ hns.concat hleaves)
    exact (mem_append.mp hmem).resolve_right fun h => hdv (mem_singleton.mp h)

theorem Coherent.leading (hg : g.Coherent) (hacyclic : g.Acyclic) (hv : g.inEdges v ≠ [])
    (hsource : ∀ s, g.inEdges s = [] ∧ (∃ ns, g.Path s v ns) ↔ s = source) :
    Leading g v source (g.searchTree v true).parents.keys := by
  have hsearch := hg.searching v true
  obtain ⟨hentered, -⟩ := (hsource source).mpr rfl
  have hmem (u : V) : u ∈ (g.searchTree v true).parents.keys ↔ Reaches (g.neighbours false) u v := by
    rw [← Tree.has_iff, hsearch.has_iff, hg.reaches_backwards]
  refine ⟨hg, hacyclic, hsearch.grown.nodup, hmem, hentered, fun u hu => ?_, ?_⟩
  · obtain ⟨s, hs, hreaches⟩ := hacyclic.exists_source hg u
    obtain rfl := (hsource s).mp ⟨hs, reaches_iff_path.mp (hreaches.trans ((hmem u).mp hu))⟩
    exact reaches_iff_path.mp hreaches
  · rintro rfl
    exact hv hentered

/-- The ancestor of a node that edges enter, if all paths to it come from one source, is its immediate dominator:
it lies on every path from the source to the node, and so on the paths to itself do the others that do. -/
theorem ancestor_immediate_dominator (hg : g.Built) (hacyclic : g.Acyclic) (hv : g.inEdges v ≠ [])
    (hsource : ∀ s, g.inEdges s = [] ∧ (∃ ns, g.Path s v ns) ↔ s = source) :
    ∃ u, g.ancestor v = .ok u ∧ u ≠ v ∧ g.Dominates source u v ∧
      ∀ d, d ≠ v → g.Dominates source d v → g.Dominates source d u := by
  have hcoherent := hg.coherent
  have hleading := hcoherent.leading hacyclic hv hsource
  have hsearch := hcoherent.searching v true
  have hentering : g.edgesInto v = .ok (g.inEdges v) := by
    unfold edgesInto inEdges Dict.getD
    cases hget : g.into.get? v with
    | some es => rfl
    | none =>
      refine absurd ?_ hv
      rw [inEdges, Dict.getD, hget]
      rfl
  have hends : (g.searchTree v true).ends = [source] := by
    have hmem (s : V) : s ∈ (g.searchTree v true).ends ↔ s ∈ [source] := by
      rw [hsearch.mem_ends, hcoherent.reaches_backwards, reaches_iff_path, mem_singleton, ← hsource, and_comm]
      exact and_congr_left' map_eq_nil_iff
    exact perm_singleton.mp ((perm_ext_iff_of_nodup hsearch.nodup_ends (nodup_singleton _)).mpr hmem)
  unfold ancestor
  rw [hentering]
  simp only [bind, Except.bind]
  split
  · next hnone =>
    obtain ⟨e, he⟩ := exists_mem_of_ne_nil _ hv
    have hmem := mem_eraseDups.mpr (mem_map_of_mem (f := Edge.src) he)
    rw [hnone] at hmem
    cases hmem
  · next u hone =>
    have hmem (w : V) : w ∈ (g.inEdges v).map Edge.src ↔ w = u := by
      rw [← mem_eraseDups, hone, mem_singleton]
    obtain ⟨e, he, rfl⟩ := mem_map.mp ((hmem u).mpr rfl)
    refine ⟨e.src, rfl, ?_, dominates_of_single hcoherent hleading.entered he fun e' he' =>
      (hmem _).mp (mem_map_of_mem he')⟩
    obtain ⟨edge, hleaves, hdst⟩ := arcs_pos.mp (hcoherent.mem_inEdges.mp ⟨e, he, rfl⟩)
    intro hloop
    refine hacyclic.not_reaches hleaves ?_
    rw [hdst, hloop]
    exact .refl
  · next hseveral =>
    rw [hends]
    refine hleading.exists_separator fun w => ?_
    by_contra hall
    push Not at hall
    refine hseveral w ?_
    obtain ⟨e, es, hes⟩ := exists_cons_of_ne_nil hv
    rw [hes] at hall ⊢
    rw [map_cons, eraseDups_cons, hall e mem_cons_self, filter_eq_nil_iff.mpr]
    · rfl
    · intro u hu
      obtain ⟨e', he', rfl⟩ := mem_map.mp hu
      simp [hall e' (mem_cons_of_mem _ he')]

section Hourglass

/-- Two edges from a node to the next one, from which two paths lead to the end. -/
def hourglassEdges : List (Edge Label Unit) :=
  [⟨.text "a", .text "b", ()⟩, ⟨.text "a", .text "b", ()⟩, ⟨.text "b", .text "c", ()⟩, ⟨.text "b", .text "d", ()⟩,
    ⟨.text "c", .null, ()⟩, ⟨.text "d", .null, ()⟩]

def hourglass : Graph Label Unit := hourglassEdges.foldl addEdge empty

theorem hourglass_edge {u : Label} (he : e ∈ hourglass.outEdges u) :
    ∃ e' ∈ hourglassEdges, e'.src = u ∧ e'.dst = e.dst := by
  have hpos : 0 < hourglass.arcs u e.dst := arcs_pos.mpr ⟨e, he, rfl⟩
  rw [hourglass, arcs_foldl_addEdge, show (empty : Graph Label Unit).arcs u e.dst = 0 from rfl, Nat.zero_add,
    countP_pos_iff] at hpos
  simpa using hpos

theorem hourglass_acyclic : hourglass.Acyclic := by
  have hrank : ∀ e ∈ hourglassEdges, (if e.src = .text "a" then 0 else if e.src = .text "b" then 1 else
      if e.src = .null then 3 else 2) < (if e.dst = .text "a" then 0 else if e.dst = .text "b" then 1 else
      if e.dst = .null then 3 else 2) := by decide
  refine .of_rank (fun u => if u = .text "a" then 0 else if u = .text "b" then 1 else if u = .null then 3 else 2)
    fun u e he => ?_
  obtain ⟨e', he', rfl, hdst⟩ := hourglass_edge he
  exact hdst ▸ hrank e' he'

theorem hourglass_source (s : Label) :
    hourglass.inEdges s = [] ∧ (∃ ns, hourglass.Path s .null ns) ↔ s = .text "a" := by
  constructor
  · rintro ⟨hentered, ns, hns⟩
    cases hns with
    | stop => exact absurd hentered (by decide)
    | step leaves _ =>
      obtain ⟨e, he, rfl, -⟩ := hourglass_edge leaves
      have hsources : ∀ e ∈ hourglassEdges, (hourglass.inEdges e.src).isEmpty → e.src = .text "a" := by decide
      exact hsources e he (isEmpty_iff.mpr hentered)
  · rintro rfl
    refine ⟨rfl, _, .step (e := ⟨.text "a", .text "b", ()⟩) ?_ (.step (e := ⟨.text "b", .text "c", ()⟩) ?_
      (.step (e := ⟨.text "c", .null, ()⟩) ?_ (.stop _)))⟩ <;> decide

theorem ancestor_of_hourglass :
    hourglass.Built ∧ hourglass.Acyclic ∧ hourglass.inEdges .null ≠ [] ∧
      (∀ s, hourglass.inEdges s = [] ∧ (∃ ns, hourglass.Path s .null ns) ↔ s = .text "a") ∧
      ∃ u, hourglass.ancestor .null = .ok u ∧ u ≠ .null ∧ hourglass.Dominates (.text "a") u .null ∧
        ∀ d, d ≠ .null → hourglass.Dominates (.text "a") d .null → hourglass.Dominates (.text "a") d u := by
  have hbuilt : hourglass.Built := .addEdge (.addEdge (.addEdge (.addEdge (.addEdge (.addEdge .empty _) _) _) _) _) _
  have hentered : hourglass.inEdges .null ≠ [] := by decide
  exact ⟨hbuilt, hourglass_acyclic, hentered, hourglass_source,
    ancestor_immediate_dominator hbuilt hourglass_acyclic hentered hourglass_source⟩

end Hourglass

end PacketSmith.Graph
