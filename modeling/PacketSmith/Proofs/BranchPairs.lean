import PacketSmith.Generate

/-!
# The branches of a condition

When the control graph of a pipeline is built, a node is given the edges of a table or the
two branches of a condition (`Program.expand_ok`). A node that is expanded once and has a branch
has two edges, which are the branches of one condition (`Engine.Paired`).
-/

namespace PacketSmith

open List

def ControlStep.isBranch : ControlStep → Bool
  | .branch _ _ => true
  | _ => false

/-- The edges of a node are the two branches of a condition, or none of them is a branch. -/
def PairedAt (v : Label) (edges : List ControlEdge) : Prop :=
  (∀ e ∈ edges, e.label.isBranch = false) ∨
    ∃ a b source, edges = [⟨v, a, .branch true source⟩, ⟨v, b, .branch false source⟩]

namespace Engine

def leaving (engine : Engine) (front : ControlPath) : List ControlEdge :=
  engine.graph.outEdges ((front.getLast?.map Edge.dst).getD engine.start)

/-- Branches come in pairs. -/
def Paired (engine : Engine) : Prop := ∀ v, PairedAt v (engine.graph.outEdges v)

variable {engine : Engine}

theorem Paired.nodup (h : engine.Paired) (he : e ∈ engine.leaving front)
    (hbranch : e.label.isBranch = true) : (engine.leaving front).Nodup := by
  rcases h _ with hnone | ⟨a, b, source, hedges⟩
  · simp [hnone e he] at hbranch
  · rw [leaving, hedges]
    simp

theorem Paired.other (h : engine.Paired) (he : e ∈ engine.leaving front)
    (he' : e' ∈ engine.leaving front) (hbranch : e.label.isBranch = true) :
    e'.label.isBranch = true ∧ (e' ≠ e → ∃ v dst dst' value value' source,
      e = ⟨v, dst, .branch value source⟩ ∧ e' = ⟨v, dst', .branch value' source⟩ ∧ value' ≠ value) := by
  rcases h _ with hnone | ⟨a, b, source, hedges⟩
  · simp [hnone e he] at hbranch
  · rw [leaving, hedges] at he he'
    simp only [mem_cons, not_mem_nil, or_false] at he he'
    rcases he with rfl | rfl
    · rcases he' with rfl | rfl
      · exact ⟨rfl, fun hne => absurd rfl hne⟩
      · exact ⟨rfl, fun _ => ⟨_, _, _, _, _, _, rfl, rfl, by simp⟩⟩
    · rcases he' with rfl | rfl
      · exact ⟨rfl, fun _ => ⟨_, _, _, _, _, _, rfl, rfl, by simp⟩⟩
      · exact ⟨rfl, fun hne => absurd rfl hne⟩

end Engine

/-! ## Adding edges -/

namespace Graph

variable {V L : Type} [DecidableEq V]

theorem outEdges_addNode (g : Graph V L) (u v : V) : (g.addNode u).outEdges v = g.outEdges v := by
  unfold addNode outEdges Dict.getD
  split
  · rfl
  · rename_i hnew
    rw [Dict.get?_insert]
    split
    · subst u
      rw [Bool.not_eq_true, Dict.contains, Option.isSome_eq_false_iff, Option.isNone_iff_eq_none] at hnew
      rw [hnew]
      rfl
    · rfl

theorem outEdges_addEdge (g : Graph V L) (e : Edge V L) (v : V) :
    (g.addEdge e).outEdges v = if e.src = v then g.outEdges v ++ [e] else g.outEdges v := by
  have hnodes : ((g.addNode e.src).addNode e.dst).outEdges v = g.outEdges v := by
    rw [outEdges_addNode, outEdges_addNode]
  change (((((g.addNode e.src).addNode e.dst).out.insert e.src _).get? v).getD []) = _
  rw [Dict.get?_insert]
  split
  · subst v
    rw [← hnodes]
    rfl
  · exact hnodes

theorem outEdges_addEdges (v : V) (es : List (Edge V L)) (g : Graph V L) (hsrc : ∀ e ∈ es, e.src = u) :
    (es.foldl addEdge g).outEdges v = if u = v then g.outEdges v ++ es else g.outEdges v := by
  induction es generalizing g with
  | nil => simp
  | cons e es ih =>
    rw [foldl_cons, ih _ fun e' he' => hsrc e' (mem_cons_of_mem _ he'), outEdges_addEdge,
      hsrc e mem_cons_self]
    split <;> simp

end Graph

/-! ## The edges of a node -/

inductive TableEdge (t : Table) (v : Label) : ControlEdge → Prop
  | entry (next name : Label) (id : Int) (i : Nat) : TableEdge t v ⟨v, next, .constAction name id i⟩
  | action {a : Label × Int} {next : Label} (byDefault : Bool) (leads : t.successor a = .ok next) :
      TableEdge t v ⟨v, next, .action a.1 a.2 byDefault⟩

theorem TableEdge.src_eq (h : TableEdge t v e) : e.src = v := by
  cases h <;> rfl

theorem TableEdge.isBranch (h : TableEdge t v e) : e.label.isBranch = false := by
  cases h <;> rfl

namespace Program

variable {p : Program} {pipeline : Pipeline} {hitResult byDefault : Bool}

theorem constEdges_tableEdge {entries : List TableEntry}
    (h : p.constEdges t name hitResult i entries = .ok edges) : ∀ e ∈ edges, TableEdge t name e := by
  induction entries generalizing i edges with
  | nil =>
    cases h
    simp
  | cons entry entries ih =>
    unfold constEdges at h
    obtain ⟨a, -, h⟩ := bind_eq_ok.mp h
    obtain ⟨next, h⟩ : ∃ next, (do
        let rest ← p.constEdges t name hitResult (i + 1) entries
        return (⟨name, next, .constAction a.name a.id i⟩ : ControlEdge) :: rest) = .ok edges := by
      split at h <;> exact (bind_eq_ok.mp h).imp fun _ h => h.2
    obtain ⟨rest, hrest, h⟩ := bind_eq_ok.mp h
    cases h
    exact forall_mem_cons.mpr ⟨.entry _ _ _ _, ih hrest⟩

theorem actionEdges_tableEdge {actions : List (Label × Int)}
    (h : p.actionEdges t name hitResult byDefault actions = .ok edges) : ∀ e ∈ edges, TableEdge t name e := by
  intro e he
  obtain ⟨a, -, ha⟩ := mem_of_mapM h e he
  split at ha
  · -- a table keeps no successor under the name of an outcome
    cases ha
  · obtain ⟨next, hnext, ha⟩ := bind_eq_ok.mp ha
    obtain ⟨_, -, ha⟩ := bind_eq_ok.mp ha
    cases ha
    exact .action byDefault hnext

theorem tableEdges_tableEdge (h : p.tableEdges t name = .ok edges) : ∀ e ∈ edges, TableEdge t name e := by
  unfold tableEdges at h
  obtain ⟨hitResult, -, h⟩ := bind_eq_ok.mp h
  obtain ⟨_, -, h⟩ := bind_eq_ok.mp h
  obtain ⟨hits, hhits, h⟩ : ∃ hits, (∀ e ∈ hits, TableEdge t name e) ∧ (do
      let fixed ← t.hasConstDefault
      let defaults ← if fixed then (fun a => [a]) <$> t.defaultAction else pure t.actions
      let misses ← p.actionEdges t name hitResult true defaults
      return hits ++ misses) = .ok edges := by
    split at h
    · obtain ⟨hits, hhits, h⟩ := bind_eq_ok.mp h
      cases hhits
      exact ⟨[], by simp, h⟩
    · split at h
      · obtain ⟨hits, hhits, h⟩ := bind_eq_ok.mp h
        exact ⟨hits, constEdges_tableEdge hhits, h⟩
      · obtain ⟨hits, hhits, h⟩ := bind_eq_ok.mp h
        exact ⟨hits, actionEdges_tableEdge hhits, h⟩
  obtain ⟨fixed, -, h⟩ := bind_eq_ok.mp h
  obtain ⟨defaults, h⟩ : ∃ defaults, (do
      let misses ← p.actionEdges t name hitResult true defaults
      return hits ++ misses) = .ok edges := by
    split at h <;> exact (bind_eq_ok.mp h).imp fun _ h => h.2
  obtain ⟨misses, hmisses, h⟩ := bind_eq_ok.mp h
  cases h
  intro e he
  rcases mem_append.mp he with he | he
  · exact hhits e he
  · exact actionEdges_tableEdge hmisses e he

theorem expand_ok (h : p.expand pipeline name g = .ok (edges, g')) :
    PairedAt name edges ∧ ∀ v,
      g'.graph.outEdges v = if name = v then g.graph.outEdges v ++ edges else g.graph.outEdges v := by
  unfold expand at h
  split at h
  · obtain ⟨edges', hedges, h⟩ := bind_eq_ok.mp h
    cases h
    have htable := tableEdges_tableEdge hedges
    exact ⟨.inl fun e he => (htable e he).isBranch,
      fun v => Graph.outEdges_addEdges v _ _ fun e he => (htable e he).src_eq⟩
  · split at h
    · cases h
    · cases h
      refine ⟨.inr ⟨_, _, _, rfl⟩, fun v => Graph.outEdges_addEdges v _ _ ?_⟩
      simp [conditionalEdges]

end Program

end PacketSmith
