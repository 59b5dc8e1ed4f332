import Mathlib.Data.List.Nodup
import Mathlib.Data.List.Perm.Subperm
import Mathlib.Logic.Relation
import PacketSmith.Proofs.BranchPairs

/-!
# The nodes of a control graph

The edges of a node follow from its table or its conditional (`Pipeline.edgesOf`). While the graph
is built, the nodes that were expanded or wait are those that were met, and the first node
(`Expanding`). At the start, the characters of the name of the first node count as met, and the
node itself does not. So the graph has the edges of the nodes that are reached, each once, if these
two mistakes do not show (`Pipeline.Unmistaken`).
-/

namespace PacketSmith

open List Dict Program Pipeline Label Edge

/-! ## The edges of a node -/

namespace Table

def edgeOf (t : Table) (v : Label) (byDefault : Bool) (a : Label × Int) : ControlEdge :=
  ⟨v, (t.successors.get? a).getD .null, .action a.1 a.2 byDefault⟩

/-- The actions that a miss can take. -/
def misses (t : Table) : List (Label × Int) :=
  match t.defaultEntry with
  | some d => if d.actionConst.truth then t.defaultAction.toOption.toList else t.actions
  | none => []

def edgesOf (t : Table) (v : Label) : List ControlEdge :=
  (if t.keyless then [] else t.actions.map (t.edgeOf v false)) ++ t.misses.map (t.edgeOf v true)

/-- A table without constant entries that has a successor for each of its actions, either null or a
node, and not one for a hit and one for a miss. -/
structure Plain (t : Table) (v : Label) (p : Program) (isNode : Label → Prop) : Prop where
  perAction : t.isHitResult v = .ok false
  noEntries : t.entries = []
  nodup : t.actions.Nodup
  declared : ∀ a ∈ t.actions, (p.actions.get? a).isSome = true
  leads : ∀ a ∈ t.actions, ∃ next, t.successors.get? a = some next ∧ (next = .null ∨ isNode next)
  misses : ∃ d, t.defaultEntry = some d ∧
    (d.actionConst.truth = true → ∃ a ∈ t.actions, t.defaultAction = .ok a)

variable {t : Table} {isNode : Label → Prop}

theorem Plain.misses_eq (h : t.Plain v p isNode) :
    (t.misses = t.actions ∧ t.hasConstDefault = .ok false) ∨ ∃ a ∈ t.actions, t.misses = [a] ∧
      t.hasConstDefault = .ok true ∧ t.defaultAction = .ok a := by
  obtain ⟨d, hd, hconst⟩ := h.misses
  by_cases htruth : d.actionConst.truth = true
  · obtain ⟨a, ha, hdefault⟩ := hconst htruth
    refine .inr ⟨a, ha, ?_, ?_, hdefault⟩
    · simp [Table.misses, hd, htruth, hdefault, Except.toOption]
    · simp [hasConstDefault, hd, htruth]
  · exact .inl (by simp [Table.misses, hasConstDefault, hd, htruth])

theorem Plain.misses_subset (h : t.Plain v p isNode) : t.misses ⊆ t.actions := by
  rcases h.misses_eq with ⟨hall, -⟩ | ⟨a, ha, hone, -⟩
  · rw [hall]
    exact List.Subset.refl _
  · simpa [hone] using ha

theorem edgeOf_injective (byDefault : Bool) : Function.Injective (t.edgeOf v byDefault) := by
  intro a b h
  have hlabel := congrArg label h
  simp only [edgeOf, ControlStep.action.injEq] at hlabel
  exact Prod.ext hlabel.1 hlabel.2.1

theorem Plain.nodup_edgesOf (h : t.Plain v p isNode) : (t.edgesOf v).Nodup := by
  have hmisses : t.misses.Nodup := by
    rcases h.misses_eq with ⟨hall, -⟩ | ⟨a, -, hone, -⟩
    · exact hall ▸ h.nodup
    · simp [hone]
  refine nodup_append.mpr ⟨?_, hmisses.map (edgeOf_injective true), ?_⟩
  · split
    · exact nodup_nil
    · exact h.nodup.map (edgeOf_injective false)
  · intro e he e' he' heq
    obtain ⟨a, -, rfl⟩ := mem_map.mp he'
    split at he
    · cases he
    · obtain ⟨b, -, rfl⟩ := mem_map.mp he
      simp [edgeOf] at heq

theorem Plain.node_of_edge (h : t.Plain v p isNode) (he : e ∈ t.edgesOf v) : e.dst = .null ∨ isNode e.dst := by
  have hto (byDefault : Bool) (a : Label × Int) (ha : a ∈ t.actions) :
      (t.edgeOf v byDefault a).dst = .null ∨ isNode (t.edgeOf v byDefault a).dst := by
    obtain ⟨next, hnext, hnode⟩ := h.leads a ha
    simpa [edgeOf, hnext] using hnode
  rcases mem_append.mp he with he | he
  · split at he
    · cases he
    · obtain ⟨a, ha, rfl⟩ := mem_map.mp he
      exact hto false a ha
  · obtain ⟨a, ha, rfl⟩ := mem_map.mp he
    exact hto true a (h.misses_subset ha)

end Table

namespace Program

variable {isNode : Label → Prop} {t : Table}

theorem actionEdges_plain (h : t.Plain v p isNode) (byDefault : Bool) {actions : List (Label × Int)}
    (hsub : actions ⊆ t.actions) :
    p.actionEdges t v false byDefault actions = .ok (actions.map (t.edgeOf v byDefault)) := by
  induction actions with
  | nil => rfl
  | cons a rest ih =>
    obtain ⟨ha, hrest⟩ := cons_subset.mp hsub
    obtain ⟨next, hnext, -⟩ := h.leads a ha
    obtain ⟨found, hfound⟩ := Option.isSome_iff_exists.mp (h.declared a ha)
    have hone : (do
        let next ← t.successor a
        let _ ← p.action a
        return (⟨v, next, .action a.1 a.2 byDefault⟩ : ControlEdge)) = .ok (t.edgeOf v byDefault a) := by
      simp [Table.successor, action, hnext, hfound, Table.edgeOf, bind, Except.bind, pure, Except.pure]
    have hothers := ih hrest
    rw [actionEdges] at hothers ⊢
    rw [mapM_cons, hothers]
    simp only [Bool.false_eq_true, if_false]
    rw [hone]
    rfl

theorem tableEdges_plain (h : t.Plain v p isNode) : p.tableEdges t v = .ok (t.edgesOf v) := by
  have hchecked : t.checkEntries v = .ok () := by
    simp [Table.checkEntries, Table.hasConstEntries, h.noEntries, Table.checkPriorities]
  have hentries : t.hasConstEntries = false := by simp [Table.hasConstEntries, h.noEntries]
  have hhits := actionEdges_plain h false (List.Subset.refl _)
  have hmisses := actionEdges_plain h true h.misses_subset
  rw [tableEdges, h.perAction]
  rcases h.misses_eq with ⟨hall, hfixed⟩ | ⟨a, -, hone, hfixed, hdefault⟩
  · rw [hall] at hmisses
    by_cases hkey : t.keyless = true <;>
      simp [hchecked, hentries, hhits, hmisses, hall, hfixed, hkey, Table.edgesOf, bind, Except.bind, pure,
        Except.pure]
  · rw [hone] at hmisses
    by_cases hkey : t.keyless = true <;>
      simp [hchecked, hentries, hhits, hmisses, hone, hfixed, hdefault, hkey, Table.edgesOf, bind,
        Except.bind, pure, Except.pure, Functor.map, Except.map]

end Program

namespace Pipeline

variable (pipeline : Pipeline)

def edgesOf (v : Label) : List ControlEdge :=
  match pipeline.tables.get? v with
  | some t => t.edgesOf v
  | none =>
    match pipeline.conditionals.get? v with
    | some c => conditionalEdges c v
    | none => []

def IsNode (v : Label) : Prop :=
  (pipeline.tables.get? v).isSome = true ∨ (pipeline.conditionals.get? v).isSome = true

/-- All tables are plain, and what comes after a conditional is null or a node. -/
structure Plain (pipeline : Pipeline) (p : Program) : Prop where
  table : ∀ v t, pipeline.tables.get? v = some t → t.Plain v p pipeline.IsNode
  conditional : ∀ v c, pipeline.conditionals.get? v = some c →
    ∀ next ∈ [c.trueNext, c.falseNext], next = .null ∨ pipeline.IsNode next

/-- Where the edges of a node lead, apart from the end. -/
def Leads (u v : Label) : Prop := v ≠ .null ∧ ∃ e ∈ pipeline.edgesOf u, e.dst = v

def Reached (start : String) : Label → Prop :=
  Relation.ReflTransGen pipeline.Leads (.text start)

/-- The nodes that count as met from the start. -/
def marks (start : String) : List Label := start.toList.map fun c => .text c.toString

/-- The nodes that count as met without reason are not reached, and the first node either counts as
met or is not reached again. -/
structure Unmistaken (pipeline : Pipeline) (start : String) : Prop where
  others : ∀ v ∈ marks start, pipeline.Reached start v → v = .text start
  first : .text start ∈ marks start ∨ ∀ u, pipeline.Reached start u → ¬ pipeline.Leads u (.text start)

variable {pipeline : Pipeline} {start : String}

theorem Plain.node_of_leads (h : pipeline.Plain p) (hleads : pipeline.Leads u v) : pipeline.IsNode v := by
  obtain ⟨hne, e, he, rfl⟩ := hleads
  refine Or.resolve_left ?_ hne
  unfold edgesOf at he
  split at he
  · next t ht => exact (h.table u t ht).node_of_edge he
  · split at he
    · next c hc =>
      simp only [conditionalEdges, mem_cons, not_mem_nil, or_false] at he
      rcases he with rfl | rfl
      · exact h.conditional u c hc _ (by simp)
      · exact h.conditional u c hc _ (by simp)
    · cases he

theorem Plain.node_of_reached (h : pipeline.Plain p) (hfirst : pipeline.IsNode start)
    (hv : pipeline.Reached start v) : pipeline.IsNode v := by
  cases hv with
  | refl => exact hfirst
  | tail _ hleads => exact h.node_of_leads hleads

theorem Plain.nodup_edgesOf (h : pipeline.Plain p) (v : Label) : (pipeline.edgesOf v).Nodup := by
  unfold edgesOf
  split
  · next t ht => exact (h.table v t ht).nodup_edgesOf
  · split
    · simp [conditionalEdges]
    · exact nodup_nil

theorem IsNode.mem_keys (h : pipeline.IsNode v) : v ∈ pipeline.tables.keys ++ pipeline.conditionals.keys := by
  have hkey {α : Type} {d : Dict Label α} (hsome : (d.get? v).isSome = true) : v ∈ d.keys := by
    obtain ⟨x, hx⟩ := Option.isSome_iff_exists.mp hsome
    exact mem_map.mpr ⟨_, mem_entries_of_get? hx, rfl⟩
  exact mem_append.mpr (h.imp hkey hkey)

theorem length_le_of_nodup {vs : List Label} (hnodup : vs.Nodup) (hnodes : ∀ v ∈ vs, pipeline.IsNode v) :
    vs.length ≤ pipeline.tables.size + pipeline.conditionals.size := by
  have hle := (subperm_of_subset hnodup fun v hv => (hnodes v hv).mem_keys).length_le
  simpa [Dict.keys, size] using hle

theorem Plain.expand_ok (h : pipeline.Plain p) (hv : pipeline.IsNode v) (g : ControlGraph) :
    ∃ g', p.expand pipeline v g = .ok (pipeline.edgesOf v, g') := by
  unfold expand edgesOf
  cases ht : pipeline.tables.get? v with
  | some t =>
    simp only [tableEdges_plain (h.table v t ht)]
    exact ⟨_, rfl⟩
  | none =>
    obtain ⟨c, hc⟩ := Option.isSome_iff_exists.mp (hv.resolve_left (by simp [ht]))
    simp only [hc]
    exact ⟨_, rfl⟩

end Pipeline

/-! ## Expanding -/

namespace Program

theorem meet_ok (dsts queue met : List Label) :
    ∃ new, meet dsts (queue, met) = (queue ++ new, met ++ new) ∧ new.Nodup ∧
      (∀ v ∈ new, v ∈ dsts ∧ v ∉ met ∧ v ≠ .null) ∧ ∀ v ∈ dsts, v = .null ∨ v ∈ met ++ new := by
  induction dsts generalizing queue met with
  | nil => exact ⟨[], by simp [meet]⟩
  | cons next dsts ih =>
    rw [meet]
    split
    · next hold =>
      obtain ⟨new, hmeet, hnodup, hnew, hall⟩ := ih queue met
      refine ⟨new, hmeet, hnodup, fun v hv => ⟨mem_cons_of_mem _ (hnew v hv).1, (hnew v hv).2⟩, ?_⟩
      rw [Bool.or_eq_true, contains_iff_mem, beq_iff_eq] at hold
      exact forall_mem_cons.mpr ⟨hold.symm.imp_right fun h => mem_append_left _ h, hall⟩
    · next hfresh =>
      obtain ⟨new, hmeet, hnodup, hnew, hall⟩ := ih (queue ++ [next]) (met ++ [next])
      simp only [Bool.or_eq_true, contains_iff_mem, beq_iff_eq, not_or] at hfresh
      simp only [append_assoc, singleton_append, mem_append, mem_singleton,
        not_or] at hmeet hnew hall
      refine ⟨next :: new, hmeet, nodup_cons.mpr ⟨fun h => (hnew next h).2.1.2 rfl, hnodup⟩, ?_, ?_⟩
      · refine forall_mem_cons.mpr ⟨⟨mem_cons_self, hfresh⟩, fun v hv => ?_⟩
        obtain ⟨hdst, hmet, hne⟩ := hnew v hv
        exact ⟨mem_cons_of_mem _ hdst, hmet.1, hne⟩
      · exact forall_mem_cons.mpr ⟨by simp, fun v hv => by simpa using hall v hv⟩

/-- While a graph is built: the nodes that were expanded have their edges, and what these lead to was
expanded too or waits in the queue. -/
structure Expanding (pipeline : Pipeline) (start : String) (done queue met : List Label) (g : ControlGraph) : Prop where
  known : ∃ rest, done ++ queue = .text start :: rest ∧ met = marks start ++ rest
  nodup : (done ++ queue).Nodup
  reached : ∀ v ∈ done ++ queue, pipeline.Reached start v
  closed : ∀ u ∈ done, ∀ v, pipeline.Leads u v → v ∈ done ++ queue
  edges : ∀ v, g.graph.outEdges v = if v ∈ done then pipeline.edgesOf v else []

variable {p : Program} {pipeline : Pipeline} {start : String} {done queue met : List Label}
  {g g' : ControlGraph} {v : Label}

theorem Expanding.step (h : Expanding pipeline start done (v :: queue) met g) (htold : pipeline.Unmistaken start)
    (hexpand : p.expand pipeline v g = .ok (pipeline.edgesOf v, g')) :
    ∃ new, meet ((pipeline.edgesOf v).map dst) (queue, met) = (queue ++ new, met ++ new) ∧
      Expanding pipeline start (done ++ [v]) (queue ++ new) (met ++ new) g' := by
  obtain ⟨new, hmeet, hnewNodup, hnew, hall⟩ := meet_ok ((pipeline.edgesOf v).map dst) queue met
  obtain ⟨rest, hrest, hmet⟩ := h.known
  have hv := h.reached v (by simp)
  have hleads : ∀ w ∈ new, pipeline.Leads v w := fun w hw =>
    ⟨(hnew w hw).2.2, mem_map.mp (hnew w hw).1⟩
  have hsplit : done ++ [v] ++ (queue ++ new) = (done ++ v :: queue) ++ new := by simp
  refine ⟨new, hmeet, ⟨rest ++ new, by rw [hsplit, hrest]; rfl, by rw [hmet, append_assoc]⟩, ?_, ?_, ?_, ?_⟩
  · -- the first node is not met again, and the others in the queue were met
    rw [hsplit]
    refine nodup_append.mpr ⟨h.nodup, hnewNodup, fun w hw w' hw' heq => ?_⟩
    subst w'
    have hnotMet := (hnew w hw').2.1
    rw [hmet, mem_append, not_or] at hnotMet
    rw [hrest] at hw
    rcases mem_cons.mp hw with rfl | hw
    · exact htold.first.elim hnotMet.1 fun hback => hback v hv (hleads _ hw')
    · exact hnotMet.2 hw
  · rw [hsplit]
    exact forall_mem_append.mpr ⟨h.reached, fun w hw => hv.tail (hleads w hw)⟩
  · rw [hsplit]
    refine forall_mem_append.mpr ⟨fun u hu w hw => mem_append_left _ (h.closed u hu w hw), ?_⟩
    refine forall_mem_singleton.mpr fun w hw => ?_
    have hto := (hall w (mem_map.mpr hw.2)).resolve_left hw.1
    rw [hmet, append_assoc, mem_append] at hto
    rw [hrest]
    rcases hto with hmark | hto
    · rw [htold.others w hmark (hv.tail hw)]
      simp
    · exact mem_cons_of_mem _ hto
  · intro w
    have hfresh : v ∉ done := fun hmem => (nodup_append.mp h.nodup).2.2 v hmem v (by simp) rfl
    rw [(expand_ok hexpand).2 w, h.edges w]
    by_cases hw : v = w
    · subst w
      simp [hfresh]
    · simp [hw, Ne.symm hw]

theorem Expanding.run (hplain : pipeline.Plain p) (hfirst : pipeline.IsNode start)
    (htold : pipeline.Unmistaken start) (h : Expanding pipeline start done queue met g)
    (hfuel : pipeline.tables.size + pipeline.conditionals.size < fuel + done.length) :
    ∃ done' met' g', p.expandAll pipeline fuel queue met g = .ok g' ∧
      Expanding pipeline start done' [] met' g' := by
  have hnode : ∀ v ∈ done ++ queue, pipeline.IsNode v := fun v hv => hplain.node_of_reached hfirst (h.reached v hv)
  induction fuel generalizing done queue met g with
  | zero =>
    have hle := Pipeline.length_le_of_nodup h.nodup hnode
    rw [length_append] at hle
    omega
  | succ fuel ih =>
    cases queue with
    | nil => exact ⟨done, met, g, rfl, h⟩
    | cons v queue =>
      obtain ⟨g₁, hexpand⟩ := hplain.expand_ok (hnode v (by simp)) g
      obtain ⟨new, hmeet, hstep⟩ := h.step htold hexpand
      rw [expandAll, hexpand]
      simp only [bind, Except.bind, hmeet]
      refine ih hstep (by rw [length_append, length_singleton]; omega) fun w hw => ?_
      exact hplain.node_of_reached hfirst (hstep.reached w hw)

/-- The control graph of a pipeline has the edges of the nodes that are reached from the first one,
each once, and no others. -/
theorem controlGraph_reached (hinit : pipeline.initTable = .str start) (hplain : pipeline.Plain p)
    (hfirst : pipeline.IsNode start) (htold : pipeline.Unmistaken start) :
    ∃ g, p.controlGraph pipeline = .ok g ∧ ∀ v, (g.graph.outEdges v).Nodup ∧
      (pipeline.Reached start v → g.graph.outEdges v = pipeline.edgesOf v) ∧
      (¬ pipeline.Reached start v → g.graph.outEdges v = []) := by
  have hstart : Expanding pipeline start [] [.text start] (Pipeline.marks start) {} :=
    ⟨⟨[], rfl, (append_nil _).symm⟩, by simp, fun v hv => mem_singleton.mp hv ▸ .refl, by simp, fun v => rfl⟩
  have hfuel : pipeline.tables.size + pipeline.conditionals.size <
      pipeline.tables.size + pipeline.conditionals.size + 3 + ([] : List Label).length := by
    omega
  obtain ⟨done, met, g, hrun, hend⟩ := hstart.run hplain hfirst htold hfuel
  have hdone : ∀ v, v ∈ done ↔ pipeline.Reached start v := by
    refine fun v => ⟨fun hv => hend.reached v (by simpa using hv), fun hv => ?_⟩
    induction hv with
    | refl =>
      obtain ⟨rest, hrest, -⟩ := hend.known
      rw [append_nil] at hrest
      simp [hrest]
    | tail _ hleads ih => simpa using hend.closed _ ih _ hleads
  refine ⟨g, by rw [controlGraph, hinit]; exact hrun, fun v => ⟨?_, fun hv => ?_, fun hv => ?_⟩⟩
  · rw [hend.edges]
    split
    · exact hplain.nodup_edgesOf v
    · exact nodup_nil
  · rw [hend.edges, if_pos ((hdone v).mpr hv)]
  · rw [hend.edges, if_neg fun h => hv ((hdone v).mp h)]

end Program

/-! ## A table and a conditional -/

namespace Forwarding

def program : Program :=
  ⟨none, none, {}, {}, {}, ⟨{}, {}⟩, {}, .ofList [((.text "forward", 0), default)], {}, {}⟩

def pipeline (table conditional : String) (next : Label) : Pipeline :=
  { (default : Pipeline) with
    initTable := .str table
    tables := .ofList [(.text table, { (default : Table) with
      key := [default]
      actions := [(.text "forward", 0)]
      successors := .ofList [((.text "forward", 0), .text conditional)]
      defaultEntry := some default })]
    conditionals := .ofList [(.text conditional, { (default : Conditional) with trueNext := next })] }

def routed : Pipeline := pipeline "route" "check" .null

theorem plain : routed.Plain program where
  table v t ht := by
    simp only [routed, pipeline, ofList, foldl_cons, foldl_nil, get?_insert,
      get?_empty] at ht
    split at ht
    · next hv =>
      cases hv
      cases ht
      refine ⟨by decide, rfl, by decide, by decide, fun a ha => ?_, default, rfl, by decide⟩
      cases mem_singleton.mp ha
      exact ⟨_, rfl, .inr (.inr rfl)⟩
    · cases ht
  conditional v c hc := by
    simp only [routed, pipeline, ofList, foldl_cons, foldl_nil, get?_insert,
      get?_empty] at hc
    split at hc
    · cases hc
      have hnull : ∀ next ∈ [null, .null], next = .null := by decide
      exact fun next hnext => .inl (hnull next hnext)
    · cases hc

theorem dst_cases : ∀ u ∈ [text "route", .text "check"], ∀ e ∈ routed.edgesOf u,
    e.dst = .null ∨ e.dst = .text "check" := by
  decide

theorem reached_cases (h : routed.Reached "route" v) : v ∈ [text "route", .text "check"] := by
  induction h with
  | refl => simp
  | tail _ hleads ih =>
    obtain ⟨hne, e, he, rfl⟩ := hleads
    simp [(dst_cases _ ih e he).resolve_left hne]

theorem unmistaken : routed.Unmistaken "route" where
  others v hmark hv := by
    have hnone : ∀ w ∈ [text "route", .text "check"], w ∉ marks "route" := by decide
    exact absurd hmark (hnone v (reached_cases hv))
  first := by
    refine .inr fun u hu hleads => ?_
    obtain ⟨hne, e, he, hdst⟩ := hleads
    rcases dst_cases u (reached_cases hu) e he with h | h <;> simp [h] at hdst

end Forwarding

theorem Program.controlGraph_reached_routed : ∃ g, Forwarding.program.controlGraph Forwarding.routed = .ok g ∧
    g.graph.outEdges (.text "check") = Forwarding.routed.edgesOf (.text "check") := by
  obtain ⟨g, hg, hedges⟩ := Program.controlGraph_reached rfl Forwarding.plain (.inl rfl) Forwarding.unmistaken
  refine ⟨g, hg, (hedges _).2.1 (.tail .refl ⟨by decide, ?_⟩)⟩
  exact ⟨_, mem_cons_self, rfl⟩

/-- A node that is reached has no edges if its name is a character of the name of the first node, and
the first node has its edges twice if it is reached again. -/
theorem Program.controlGraph_mistaken :
    (∃ g, Forwarding.program.controlGraph (Forwarding.pipeline "ca" "a" .null) = .ok g ∧
      (Forwarding.pipeline "ca" "a" .null).Reached "ca" (.text "a") ∧ g.graph.outEdges (.text "a") = [] ∧
      (Forwarding.pipeline "ca" "a" .null).edgesOf (.text "a") ≠ []) ∧
    ∃ g, Forwarding.program.controlGraph (Forwarding.pipeline "ca" "bb" (.text "ca")) = .ok g ∧
      ¬ (g.graph.outEdges (.text "ca")).Nodup := by
  refine ⟨⟨_, rfl, .tail .refl ⟨by decide, ⟨_, mem_cons_self, rfl⟩⟩, rfl, by decide⟩, _, rfl, ?_⟩
  decide

end PacketSmith
