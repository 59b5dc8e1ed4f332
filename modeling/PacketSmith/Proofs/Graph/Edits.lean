import PacketSmith.Proofs.Graph.Searching

/-!
# Graphs under change

A graph is built by adding nodes and edges and by turning edges around (`Edit`). Every sequence of such changes that
does not fail leaves two tables that agree (`edited_agrees`). On every such graph a search finds what can be reached,
along the edges or against them (`search_explores`).
-/

namespace PacketSmith.Graph

variable {V L : Type} [DecidableEq V] {g g' : Graph V L} {u w : V} {label : L}

inductive Edit (V L : Type) where
  | addNode (v : V)
  | addEdge (src dst : V) (e : Edge V L)
  | turnEdge (label : L) (src dst : V)

def Edit.apply (g : Graph V L) : Edit V L → Except (Failure V) (Graph V L)
  | .addNode v => .ok (g.addNode v)
  | .addEdge src dst e => g.join src dst e
  | .turnEdge label src dst => g.reverseEdge label src dst

def edited (edits : List (Edit V L)) : Except (Failure V) (Graph V L) := edits.foldlM Edit.apply empty

/-! ## The two tables -/

theorem arcs_pos_of_reverseEdge (h : g.reverseEdge label u w = .ok g') : 0 < g.arcs u w := by
  obtain ⟨leaving, hleaving, h⟩ := bind_eq_ok.mp h
  obtain ⟨entering, -, h⟩ := bind_eq_ok.mp h
  split at h
  · next i j hi hj =>
    obtain ⟨hlt, hdst, -⟩ := List.findIdx?_eq_some_iff_getElem.mp hi
    rw [edgesFrom] at hleaving
    split at hleaving
    · next hes =>
      cases hleaving
      refine arcs_pos.mpr ⟨leaving[i], ?_, of_decide_eq_true hdst⟩
      rw [outEdges, Dict.getD, hes]
      exact List.getElem_mem hlt
    · cases hleaving
  · cases h

theorem Coherent.reverseEdge (h : g.Coherent) (hturn : g.reverseEdge label u w = .ok g') : g'.Coherent ∧
    ∀ a b, g'.arcs a b + (if (a, b) = (u, w) then 1 else 0) = g.arcs a b + (if (b, a) = (u, w) then 1 else 0) := by
  obtain ⟨g'', hturn', hg''⟩ := h.exists_reverseEdge label (arcs_pos_of_reverseEdge hturn)
  rw [hturn] at hturn'
  cases hturn'
  exact hg''

theorem Coherent.apply {edit : Edit V L} (h : g.Coherent) (hedit : edit.apply g = .ok g') : g'.Coherent := by
  cases edit with
  | addNode v =>
    cases hedit
    exact h.addNode v
  | addEdge src dst e =>
    change g.join src dst e = .ok g' at hedit
    rw [join] at hedit
    split at hedit
    · cases hedit
      exact h.addEdge e
    · cases hedit
  | turnEdge label src dst => exact (h.reverseEdge hedit).1

theorem coherent_edited {edits : List (Edit V L)} (h : edited edits = .ok g) : g.Coherent :=
  foldlM_keeps (P := Coherent) (fun _ _ _ hg hedit => hg.apply hedit) .empty h

/-- The tables of a graph have the same nodes, and from each node to each other the same number of edges, which lie where
they belong. An edge can be turned exactly where there is one. This takes one edge from the one direction and adds one to the
other, and leaves all other numbers as they are. -/
theorem edited_agrees {edits : List (Edit V L)} (h : edited edits = .ok g) :
    (∀ v, v ∈ g.out.keys ↔ v ∈ g.into.keys) ∧
    (∀ u w, (g.outEdges u).countP (fun e => e.dst = w) = (g.inEdges w).countP fun e => e.src = u) ∧
    (∀ u, ∀ e ∈ g.outEdges u, e.src = u) ∧ (∀ w, ∀ e ∈ g.inEdges w, e.dst = w) ∧
    ∀ label u w, ((∃ g', g.reverseEdge label u w = .ok g') ↔ 0 < g.arcs u w) ∧
      ∀ g', g.reverseEdge label u w = .ok g' → ∀ a b, g'.arcs a b + (if (a, b) = (u, w) then 1 else 0) =
        g.arcs a b + if (a, b) = (w, u) then 1 else 0 := by
  have hg := coherent_edited h
  refine ⟨fun v => (hg.nodes v).symm, fun u w => (hg.arcs u w).symm, hg.src, hg.dst, fun label u w => ⟨⟨?_, ?_⟩, ?_⟩⟩
  · rintro ⟨g', hturn⟩
    exact arcs_pos_of_reverseEdge hturn
  · intro harc
    obtain ⟨g', hturn, -⟩ := hg.exists_reverseEdge label harc
    exact ⟨g', hturn⟩
  · intro g' hturn a b
    have hcount := (hg.reverseEdge hturn).2 a b
    simpa only [Prod.mk.injEq, and_comm] using hcount

/-- Two edges from one node to another, one back, a loop, and one of the two edges turned around. -/
def tangled : List (Edit Nat Unit) :=
  [.addEdge 0 1 ⟨0, 1, ()⟩, .addEdge 0 1 ⟨0, 1, ()⟩, .addEdge 1 0 ⟨1, 0, ()⟩, .addEdge 1 1 ⟨1, 1, ()⟩,
    .addEdge 1 2 ⟨1, 2, ()⟩, .addNode 3, .turnEdge () 0 1, .turnEdge () 1 1]

theorem edited_agrees_tangled : ∃ g, edited tangled = .ok g ∧ g.arcs 0 1 = 1 ∧ g.arcs 1 0 = 2 ∧ g.arcs 1 1 = 1 ∧
    (∀ u w, (g.outEdges u).countP (fun e => e.dst = w) = (g.inEdges w).countP fun e => e.src = u) ∧
    ∃ g', g.reverseEdge () 1 2 = .ok g' ∧ g'.arcs 2 1 = 1 := by
  obtain ⟨-, hcount, -, -, hturn⟩ := edited_agrees (show edited tangled = .ok _ from rfl)
  obtain ⟨g', hg'⟩ := (hturn () 1 2).1.mpr (by decide)
  exact ⟨_, rfl, rfl, rfl, rfl, hcount, g', hg', (hturn () 1 2).2 g' hg' 2 1⟩

/-! ## Searching -/

/-- There is an edge from one node to another, or from the other to the one. -/
def Leads (g : Graph V L) (backwards : Bool) (u w : V) : Prop :=
  0 < if backwards then g.arcs w u else g.arcs u w

theorem Coherent.mem_neighbours (h : g.Coherent) {backwards : Bool} :
    w ∈ g.neighbours backwards u ↔ g.Leads backwards u w := by
  cases backwards with
  | false => exact List.mem_map.trans arcs_pos.symm
  | true => exact List.mem_map.trans h.mem_inEdges

/-- What a search from a node returns: the nodes that can be reached with their parents, and those of them at which
nothing goes on. -/
structure Explored (g : Graph V L) (backwards : Bool) (v : V) (parents : Dict V V) (ends : List V) : Prop where
  reached : ∀ u, u ∈ parents.keys ↔ Relation.ReflTransGen (g.Leads backwards) v u
  /-- From parent to parent one comes to the start, each time against an edge. -/
  climbs : ∀ u ∈ parents.keys,
    Relation.ReflTransGen (fun a b => a ≠ v ∧ parents.get? a = some b ∧ g.Leads backwards b a) u v
  last : ∀ u, u ∈ ends ↔ Relation.ReflTransGen (g.Leads backwards) v u ∧ ∀ w, ¬g.Leads backwards u w
  once : ends.Nodup

theorem Rises.climbs {next : V → List V} {root : V} {arcs : List (V × V)} {parents : Dict V V}
    (h : Rises next root u arcs) (hparents : ∀ x ∈ arcs, parents.get? x.2 = some x.1) :
    Relation.ReflTransGen (fun a b => a ≠ root ∧ parents.get? a = some b ∧ a ∈ next b) u root := by
  induction h with
  | root => exact .refl
  | step _ arc away _ ih =>
    exact .head ⟨away, hparents _ List.mem_cons_self, arc⟩ (ih fun x hx => hparents x (List.mem_cons_of_mem _ hx))

/-- A search from a node of a graph finds exactly what can be reached from it. -/
theorem search_explores {edits : List (Edit V L)} (h : edited edits = .ok g) {v : V} (hv : v ∈ g.nodes)
    (backwards : Bool) :
    ∃ parents ends, g.search v backwards = .ok (parents, ends) ∧ g.Explored backwards v parents ends := by
  have hg := coherent_edited h
  have hsearch := hg.searching v backwards
  have hreach (u : V) : Reaches (g.neighbours backwards) v u ↔ Relation.ReflTransGen (g.Leads backwards) v u := by
    rw [Reaches, show (fun a b => b ∈ g.neighbours backwards a) = g.Leads backwards from
      funext fun a => funext fun b => propext hg.mem_neighbours]
  refine ⟨_, _, if_pos (Dict.mem_keys_iff.mp hv), ?_, ?_, ?_, ?_⟩
  · intro u
    rw [← Tree.has_iff, hsearch.has_iff, hreach]
  · intro u hu
    obtain ⟨arcs, hrises, hparents, -⟩ := hsearch.exists_rises (hsearch.has_iff.mp (Tree.has_iff.mpr hu))
    exact (hrises.climbs hparents).lift id fun a b hab => ⟨hab.1, hab.2.1, hg.mem_neighbours.mp hab.2.2⟩
  · intro u
    rw [List.mem_reverse, hsearch.mem_ends, hreach, List.eq_nil_iff_forall_not_mem]
    simp only [hg.mem_neighbours]
  · exact List.nodup_reverse.mpr hsearch.nodup_ends

theorem search_explores_tangled : ∃ g, edited tangled = .ok g ∧ 2 ∈ g.nodes ∧
    ∃ parents ends, g.search 2 true = .ok (parents, ends) ∧ g.Explored true 2 parents ends ∧ ends = [] := by
  obtain ⟨parents, ends, hsearch, hexplored⟩ := search_explores (v := 2)
    (show edited tangled = .ok _ from rfl) (by decide) true
  refine ⟨_, rfl, by decide, parents, ends, hsearch, hexplored, ?_⟩
  cases hsearch
  decide

end PacketSmith.Graph
