import Mathlib.Data.Finset.Card
import PacketSmith.Proofs.ControlNodes

/-!
# Tables that branch on hit and miss

A table may name one successor for a hit and one for a miss. They are kept under pairs of a name and
a number and looked up by the name alone, so that neither is ever found: the edges of such a table
are made only if there are none to make (`Program.tableEdges_hitResult`). A control graph is made if
and only if each node that is expanded has its edges (`Program.controlGraph_ok_iff`).
-/

namespace PacketSmith

open List Table Pipeline Dict Edge

/-- A table without actions and entries whose default action is not constant. -/
def Table.Idle (t : Table) : Prop := t.actions = [] ∧ t.entries = [] ∧ t.hasConstDefault = .ok false

/-- The node is a table with one successor for a hit and one for a miss. -/
def Pipeline.HitResult (pipeline : Pipeline) (v : Label) (t : Table) : Prop :=
  pipeline.tables.get? v = some t ∧ t.isHitResult v = .ok true

def Pipeline.nodes (pipeline : Pipeline) : Finset Label :=
  (pipeline.tables.keys ++ pipeline.conditionals.keys).toFinset

namespace Program

variable {p : Program} {pipeline : Pipeline} {t : Table} {v w : Label} {start : String}
  {edges : List ControlEdge} {g : ControlGraph} {fuel : Nat} {met queue : List Label}

/-! ## The edges of a table -/

theorem actionEdges_hitResult {byDefault : Bool} {actions : List (Label × Int)} :
    p.actionEdges t v true byDefault actions = .ok edges ↔ actions = [] ∧ edges = [] := by
  cases actions with
  | nil => simp [actionEdges, pure, Except.pure, eq_comm]
  | cons a rest =>
    rw [actionEdges, mapM_cons]
    simp [Table.outcomeSuccessor, bind, Except.bind]

theorem constEdges_hitResult {i : Nat} {entries : List TableEntry} :
    p.constEdges t v true i entries = .ok edges ↔ entries = [] ∧ edges = [] := by
  cases entries with
  | nil => simp [constEdges, eq_comm]
  | cons e rest =>
    rw [constEdges]
    cases p.actionById e.actionId <;> simp [Table.outcomeSuccessor, bind, Except.bind]

theorem tableEdges_hitResult (hhit : t.isHitResult v = .ok true) :
    p.tableEdges t v = .ok edges ↔ t.Idle ∧ edges = [] := by
  rw [tableEdges, hhit]
  by_cases hentries : t.entries = []
  · have hchecked : t.checkEntries v = .ok () := by
      simp [checkEntries, hasConstEntries, hentries, checkPriorities]
    cases hdefault : t.hasConstDefault with
    | error f =>
      by_cases hkey : t.keyless = true <;>
        simp [hkey, hentries, hdefault, Table.Idle, hasConstEntries, bind_eq_ok]
    | ok fixed =>
      by_cases hkey : t.keyless = true <;> cases fixed <;>
        simp [hkey, hentries, hdefault, hchecked, Table.Idle, hasConstEntries, bind_eq_ok,
          actionEdges_hitResult]
  · by_cases hkey : t.keyless = true
    · simp [checkEntries, hasConstEntries, hentries, hkey, Table.Idle, bind_eq_ok]
    · simp [hasConstEntries, hentries, hkey, Table.Idle, bind_eq_ok, constEdges_hitResult]

/-! ## The nodes that are expanded -/

def edgesAt (p : Program) (pipeline : Pipeline) (v : Label) : Except Fault (List ControlEdge) :=
  match pipeline.tables.get? v with
  | some t => p.tableEdges t v
  | none =>
    match pipeline.conditionals.get? v with
    | some c => .ok (conditionalEdges c v)
    | none => .error .violated

/-- The edges of a node lead to another that is not the end and does not count as met from the start. -/
def Leads (p : Program) (pipeline : Pipeline) (start : String) (u v : Label) : Prop :=
  v ≠ .null ∧ v ∉ marks start ∧ ∃ edges, p.edgesAt pipeline u = .ok edges ∧ v ∈ edges.map dst

def Expanded (p : Program) (pipeline : Pipeline) (start : String) : Label → Prop :=
  Relation.ReflTransGen (p.Leads pipeline start) (.text start)

theorem expand_iff_edgesAt : (∃ g', p.expand pipeline v g = .ok (edges, g')) ↔ p.edgesAt pipeline v = .ok edges := by
  unfold expand edgesAt
  cases pipeline.tables.get? v with
  | some t =>
    dsimp only
    cases p.tableEdges t v <;> simp [bind, Except.bind, pure, Except.pure]
  | none => cases pipeline.conditionals.get? v <;> simp

theorem isNode_of_edgesAt (h : p.edgesAt pipeline v = .ok edges) : pipeline.IsNode v := by
  unfold edgesAt at h
  split at h
  · exact .inl (by simp [*])
  · split at h
    · exact .inr (by simp [*])
    · cases h

/-- A graph that is made: after what waited, each node that was not met before is expanded once. What
was expanded has its edges, as often as it was, and these lead to nodes that were met. -/
theorem expandAll_ok {g' : ControlGraph} (h : p.expandAll pipeline fuel queue met g = .ok g') :
    ∃ more, more.Nodup ∧
      (∀ w ∈ more, w ∉ met ∧ w ≠ .null ∧ ∃ u edges, p.edgesAt pipeline u = .ok edges ∧ w ∈ edges.map dst) ∧
      (∀ u ∈ queue ++ more, ∃ edges, p.edgesAt pipeline u = .ok edges ∧
        ∀ w ∈ edges.map dst, w = .null ∨ w ∈ met ++ more) ∧
      ∀ u, g'.graph.outEdges u = g.graph.outEdges u ++
        (replicate ((queue ++ more).count u) ((p.edgesAt pipeline u).toOption.getD [])).flatten := by
  induction fuel generalizing queue met g with
  | zero => cases h
  | succ fuel ih =>
    cases queue with
    | nil =>
      cases h
      exact ⟨[], by simp⟩
    | cons v queue =>
      obtain ⟨⟨edges, g₁⟩, hexpand, h⟩ := bind_eq_ok.mp h
      have hedges := expand_iff_edgesAt.mp ⟨g₁, hexpand⟩
      obtain ⟨new, hmeet, hnodup, hnew, hall⟩ := meet_ok (edges.map dst) queue met
      simp only [hmeet] at h
      obtain ⟨more, hmore, hmet, hdone, hgraph⟩ := ih h
      simp only [append_assoc] at hdone hgraph
      refine ⟨new ++ more, nodup_append.mpr ⟨hnodup, hmore, fun a ha b hb heq => ?_⟩,
        forall_mem_append.mpr ⟨fun w hw => ?_, fun w hw => ?_⟩,
        forall_mem_cons.mpr ⟨⟨edges, hedges, fun w hw => ?_⟩, hdone⟩, fun u => ?_⟩
      · exact (hmet b hb).1 (mem_append_right met (heq ▸ ha))
      · obtain ⟨hdst, hfresh, hne⟩ := hnew w hw
        exact ⟨hfresh, hne, v, edges, hedges, hdst⟩
      · exact (hmet w hw).imp_left fun hmem h => hmem (mem_append_left new h)
      · rw [← append_assoc]
        exact (hall w hw).imp_right fun h => mem_append_left more h
      · rw [hgraph, (expand_ok hexpand).2, cons_append, count_cons]
        by_cases hu : v = u
        · subst hu
          simp [hedges, replicate_succ, Except.toOption]
        · simp [hu]

/-- A graph is made if all that is expanded has its edges: there are not more nodes to meet than the
tables and conditionals. -/
theorem expandAll_of_edgesAt (hnodes : ∀ v, p.Expanded pipeline start v → ∃ edges, p.edgesAt pipeline v = .ok edges)
    (g : ControlGraph) (hqueue : ∀ v ∈ queue, p.Expanded pipeline start v) (hmarks : Pipeline.marks start ⊆ met)
    (hfuel : queue.length + (pipeline.nodes \ met.toFinset).card < fuel) :
    ∃ g', p.expandAll pipeline fuel queue met g = .ok g' := by
  induction fuel generalizing queue met g with
  | zero => omega
  | succ fuel ih =>
    cases queue with
    | nil => exact ⟨g, rfl⟩
    | cons v queue =>
      have hv := hqueue v mem_cons_self
      obtain ⟨edges, hedges⟩ := hnodes v hv
      obtain ⟨g₁, hexpand⟩ := expand_iff_edgesAt (g := g) |>.mpr hedges
      obtain ⟨new, hmeet, hnodup, hnew, -⟩ := meet_ok (edges.map Edge.dst) queue met
      have hleads : ∀ w ∈ new, p.Expanded pipeline start w := fun w hw => by
        obtain ⟨hdst, hmet, hne⟩ := hnew w hw
        exact hv.tail ⟨hne, fun hmark => hmet (hmarks hmark), edges, hedges, hdst⟩
      rw [expandAll, hexpand]
      simp only [bind, Except.bind, hmeet]
      refine ih g₁ ?_ (fun w hw => mem_append_left _ (hmarks hw)) ?_
      · exact forall_mem_append.mpr ⟨fun w hw => hqueue w (mem_cons_of_mem _ hw), hleads⟩
      · have hsub : new.toFinset ⊆ pipeline.nodes \ met.toFinset := by
          intro w hw
          rw [mem_toFinset] at hw
          obtain ⟨_, hedges⟩ := hnodes w (hleads w hw)
          rw [Finset.mem_sdiff, mem_toFinset, Pipeline.nodes, mem_toFinset]
          exact ⟨(isNode_of_edgesAt hedges).mem_keys, (hnew w hw).2.1⟩
        have hcard := Finset.card_sdiff_add_card_eq_card hsub
        rw [toFinset_card_of_nodup hnodup, sdiff_sdiff_left, Finset.sup_eq_union,
          ← toFinset_append] at hcard
        rw [length_append]
        rw [length_cons] at hfuel
        omega

theorem controlGraph_ok_iff (hinit : pipeline.initTable = .str start) : (∃ g, p.controlGraph pipeline = .ok g) ↔ ∀ v,
    p.Expanded pipeline start v → ∃ edges, p.edgesAt pipeline v = .ok edges := by
  rw [controlGraph, hinit]
  constructor
  · rintro ⟨g, hg⟩ v hv
    obtain ⟨more, -, -, hdone, -⟩ := expandAll_ok hg
    have hmem : v ∈ [.text start] ++ more := by
      induction hv with
      | refl => exact mem_cons_self
      | tail _ hleads ih =>
        obtain ⟨hne, hmark, edges, hedges, hdst⟩ := hleads
        obtain ⟨edges', hedges', hto⟩ := hdone _ ih
        obtain rfl := Except.ok.inj (hedges.symm.trans hedges')
        exact mem_cons_of_mem _ ((mem_append.mp ((hto _ hdst).resolve_left hne)).resolve_left hmark)
    exact (hdone v hmem).imp fun edges h => h.1
  · intro hnodes
    refine expandAll_of_edgesAt hnodes {} (forall_mem_singleton.mpr .refl) (List.Subset.refl _) ?_
    have hall : pipeline.nodes.card ≤ pipeline.tables.size + pipeline.conditionals.size := by
      refine (toFinset_card_le _).trans (le_of_eq ?_)
      simp [Dict.keys, size]
    have hleft : (pipeline.nodes \ (marks start).toFinset).card ≤ pipeline.nodes.card :=
      Finset.card_le_card Finset.sdiff_subset
    change 1 + (pipeline.nodes \ (marks start).toFinset).card < _
    omega

/-- A table with one successor for a hit and one for a miss has no edges in any control graph. If the
other nodes have theirs, the graph is made if and only if each such table that is expanded is idle. -/
theorem controlGraph_hitResult (hinit : pipeline.initTable = .str start)
    (hothers : ∀ v, p.Expanded pipeline start v → (¬ ∃ t, pipeline.HitResult v t) →
      ∃ edges, p.edgesAt pipeline v = .ok edges) :
    ((∃ g, p.controlGraph pipeline = .ok g) ↔
      ∀ v t, p.Expanded pipeline start v → pipeline.HitResult v t → t.Idle) ∧
    ∀ g, p.controlGraph pipeline = .ok g →
      ∀ v t, pipeline.HitResult v t → g.graph.outEdges v = [] := by
  have hidle {v : Label} {t : Table} (h : pipeline.HitResult v t) (edges : List ControlEdge) :
      p.edgesAt pipeline v = .ok edges ↔ t.Idle ∧ edges = [] := by
    rw [edgesAt, h.1]
    exact tableEdges_hitResult h.2
  refine ⟨(controlGraph_ok_iff hinit).trans ⟨fun h v t hv ht => ?_, fun h v hv => ?_⟩, fun g hg v t ht => ?_⟩
  · obtain ⟨edges, hedges⟩ := h v hv
    exact ((hidle ht edges).mp hedges).1
  · by_cases ht : ∃ t, pipeline.HitResult v t
    · obtain ⟨t, ht⟩ := ht
      exact ⟨[], (hidle ht []).mpr ⟨h v t hv ht, rfl⟩⟩
    · exact hothers v hv ht
  · rw [controlGraph, hinit] at hg
    obtain ⟨more, -, -, -, hgraph⟩ := expandAll_ok hg
    have hnone : (p.edgesAt pipeline v).toOption.getD [] = [] := by
      cases hedges : p.edgesAt pipeline v with
      | error f => rfl
      | ok edges => exact ((hidle ht edges).mp hedges).2
    rw [hgraph, hnone, flatten_replicate_nil]
    rfl

/-- Branches come in pairs if no edge leads back to the first node, since each node is then expanded once. -/
theorem controlGraph_paired (hinit : pipeline.initTable = .str start)
    (hback : ∀ u, ¬ p.Leads pipeline start u (.text start)) (h : p.controlGraph pipeline = .ok g) (v : Label) :
    PairedAt v (g.graph.outEdges v) := by
  rw [controlGraph, hinit] at h
  obtain ⟨more, hnodup, hmore, hdone, hgraph⟩ := expandAll_ok h
  have hfirst : .text start ∉ more := fun hmem => by
    obtain ⟨hmet, hne, u, hedges⟩ := hmore _ hmem
    exact hback u ⟨hne, hmet, hedges⟩
  have honce : (Label.text start :: more).Nodup := nodup_cons.mpr ⟨hfirst, hnodup⟩
  rw [hgraph, singleton_append, honce.count]
  split
  · next hv =>
    obtain ⟨edges, hedges, -⟩ := hdone v hv
    obtain ⟨g₁, hexpand⟩ := expand_iff_edgesAt (g := {}) |>.mpr hedges
    rw [replicate_one, flatten_singleton, hedges]
    exact (expand_ok hexpand).1
  · exact .inl fun e he => absurd he not_mem_nil

end Program

theorem Loaded.engine_paired {l : Loaded} {source : Json} (h : ofJson o files source = .ok l)
    (hinit : l.setting.pipeline.initTable = .str start)
    (hback : ∀ u, ¬ l.setting.program.Leads l.setting.pipeline start u (.text start)) :
    (l.engine solver draw switchLog).Paired := by
  have hcontrol : l.setting.program.controlGraph l.setting.pipeline = .ok l.control := by
    obtain ⟨p, -, h⟩ := bind_eq_ok.mp h
    obtain ⟨_, -, h⟩ := bind_eq_ok.mp h
    obtain ⟨_, -, h⟩ := bind_eq_ok.mp h
    obtain ⟨control, hcontrol, h⟩ := bind_eq_ok.mp h
    obtain ⟨_, -, h⟩ := bind_eq_ok.mp h
    cases h
    exact hcontrol
  have hgraph : (l.engine solver draw switchLog).graph = l.control.graph := by
    simp [engine, Program.pathGraph, hinit]
  rw [Engine.Paired, hgraph]
  exact Program.controlGraph_paired hinit hback hcontrol

/-! ## A table of its own -/

namespace Forwarding

variable (actions : List (Label × Int))

def filter : Table :=
  { (default : Table) with
    key := [default]
    actions := actions
    successors := .ofList [((.text hitName, -1), .null), ((.text missName, -2), .null)]
    defaultEntry := some default }

def filtered : Pipeline :=
  { (default : Pipeline) with initTable := .str "filter", tables := .ofList [(.text "filter", filter actions)] }

theorem filtered_initTable : (filtered actions).initTable = .str "filter" := rfl

theorem filter_hitResult : (filtered actions).HitResult (.text "filter") (filter actions) :=
  ⟨rfl, rfl⟩

theorem filtered_expanded {actions : List (Label × Int)} {v : Label}
    (h : program.Expanded (filtered actions) "filter" v) : v = .text "filter" := by
  cases h with
  | refl => rfl
  | tail _ hleads =>
    obtain ⟨-, -, edges, hedges, hdst⟩ := hleads
    unfold Program.edgesAt at hedges
    split at hedges
    · next t ht =>
      simp only [filtered, ofList, foldl_cons, foldl_nil, get?_insert,
        get?_empty] at ht
      split at ht
      · cases ht
        rw [((Program.tableEdges_hitResult rfl).mp hedges).2] at hdst
        cases hdst
      · cases ht
    · cases hedges

end Forwarding

theorem Program.controlGraph_hitResult_filtered :
    (∃ g, Forwarding.program.controlGraph (Forwarding.filtered []) = .ok g) ∧
      ¬ ∃ g, Forwarding.program.controlGraph (Forwarding.filtered [(.text "forward", 0)]) = .ok g := by
  have hmade (actions : List (Label × Int)) :=
    (Program.controlGraph_hitResult (p := Forwarding.program) (Forwarding.filtered_initTable actions)
      fun v hv hne => absurd ⟨_, Forwarding.filtered_expanded hv ▸ Forwarding.filter_hitResult actions⟩ hne).1
  refine ⟨(hmade []).mpr fun v t hv ht => ?_, fun h => ?_⟩
  · obtain rfl := Forwarding.filtered_expanded hv
    cases ht.1
    exact ⟨rfl, rfl, rfl⟩
  · have hidle := (hmade _).mp h _ _ .refl (Forwarding.filter_hitResult _)
    cases hidle.1

/-- The successor for a hit is not found, though the table has it. -/
theorem Program.controlGraph_hit_missing :
    Forwarding.program.controlGraph (Forwarding.filtered [(.text "forward", 0)]) = .error (.missing hitName) :=
  rfl

end PacketSmith
