import Mathlib.Data.List.Basic
import PacketSmith.Proofs.BranchPairs

/-!
# Paths with the same key

The key of an action says neither where the action is taken nor whether it is taken on a hit or by default. The first
does no harm: an action of a table leads to one node (`NodeEdge`), so paths with the same keys are the same paths,
regardless of hits and defaults (`Engine.Follows.keys_eq_iff`).
-/

namespace PacketSmith

open List Edge EdgeKey Program Loaded

/-- What an edge carries, regardless of whether an action is taken on a hit or by default. -/
def ControlStep.regardless : ControlStep → ControlStep
  | .action name id _ => .action name id true
  | step => step

/-- An edge, regardless of whether its action is taken on a hit or by default. -/
def Edge.regardless (e : ControlEdge) : ControlEdge := { e with label := e.label.regardless }

@[simp] theorem Edge.controlKey_regardless (e : ControlEdge) : e.regardless.controlKey = e.controlKey := by
  obtain ⟨src, dst, label⟩ := e
  cases label <;> rfl

/-! ## The edges of a node -/

/-- An edge that a node of the control graph is given. -/
inductive NodeEdge (pipeline : Pipeline) (v : Label) : ControlEdge → Prop
  | table {t : Table} {e : ControlEdge} (table : pipeline.tables.get? v = some t) (edge : TableEdge t v e) :
      NodeEdge pipeline v e
  | branch {c : Conditional} (value : Bool) (conditional : pipeline.conditionals.get? v = some c) :
      NodeEdge pipeline v ⟨v, if value then c.trueNext else c.falseNext, .branch value c.source⟩

variable {e e' : ControlEdge} {v : Label}

theorem TableEdge.regardless_eq (h : TableEdge t v e) (h' : TableEdge t v e')
    (hkey : e.controlKey = e'.controlKey) : e.regardless = e'.regardless := by
  cases h with
  | entry next name id i =>
    cases h' with
    | entry => exact congrArg regardless (control.inj hkey)
    | action => cases hkey
  | @action a next byDefault leads =>
    cases h' with
    | entry => cases hkey
    | @action a' next' byDefault' leads' =>
      obtain ⟨hname, hid⟩ := action.inj hkey
      obtain rfl : a = a' := Prod.ext hname hid
      obtain rfl := Except.ok.inj (leads.symm.trans leads')
      rfl

/-- Edges of a node with the same key differ at most in whether an action is taken on a hit or by default. -/
theorem NodeEdge.regardless_eq {pipeline : Pipeline} (h : NodeEdge pipeline v e) (h' : NodeEdge pipeline v e')
    (hkey : e.controlKey = e'.controlKey) : e.regardless = e'.regardless := by
  cases h with
  | table table edge =>
    cases h' with
    | table table' edge' =>
      obtain rfl := Option.some.inj (table.symm.trans table')
      exact edge.regardless_eq edge' hkey
    | branch => cases edge <;> cases hkey
  | @branch c value conditional =>
    cases h' with
    | table table' edge' => cases edge' <;> cases hkey
    | @branch c' value' conditional' =>
      obtain ⟨rfl, -⟩ := branch.inj hkey
      obtain rfl := Option.some.inj (conditional.symm.trans conditional')
      rfl

namespace Program

variable {p : Program} {pipeline : Pipeline}

theorem expand_nodeEdge (h : p.expand pipeline name g = .ok (edges, g')) : ∀ e ∈ edges, NodeEdge pipeline name e := by
  unfold expand at h
  split at h
  · next htable =>
    obtain ⟨edges', hedges, h⟩ := bind_eq_ok.mp h
    cases h
    exact fun e he => .table htable (tableEdges_tableEdge hedges e he)
  · split at h
    · cases h
    · next hconditional =>
      cases h
      intro e he
      rcases mem_cons.mp he with rfl | he
      · exact .branch true hconditional
      · rw [mem_singleton.mp he]
        exact .branch false hconditional

theorem expandAll_nodeEdge (hg : ∀ v, ∀ e ∈ g.graph.outEdges v, NodeEdge pipeline v e)
    (h : p.expandAll pipeline fuel queue met g = .ok g') : ∀ v, ∀ e ∈ g'.graph.outEdges v, NodeEdge pipeline v e := by
  induction fuel generalizing queue met g with
  | zero => cases h
  | succ fuel ih =>
    cases queue with
    | nil =>
      cases h
      exact hg
    | cons name queue =>
      rw [expandAll] at h
      obtain ⟨⟨edges, g₁⟩, hexpand, h⟩ := bind_eq_ok.mp h
      refine ih (fun v e he => ?_) h
      rw [(expand_ok hexpand).2] at he
      split at he
      · next hname =>
        rcases mem_append.mp he with he | he
        · exact hg v e he
        · exact hname ▸ expand_nodeEdge hexpand e he
      · exact hg v e he

end Program

/-! ## Paths of a program -/

namespace Engine

/-- Edges that leave a node and have the same key differ at most in whether an action is taken on a hit or by
default. -/
def Keyed (engine : Engine) : Prop :=
  ∀ v, ∀ e ∈ engine.graph.outEdges v, ∀ e' ∈ engine.graph.outEdges v, e.controlKey = e'.controlKey →
    e.regardless = e'.regardless

/-- A path through the control graph. -/
inductive Follows (engine : Engine) : ControlPath → Prop
  | start : Follows engine []
  | onward {path : ControlPath} {e : ControlEdge} (before : Follows engine path) (leaves : e ∈ engine.leaving path) :
      Follows engine (path ++ [e])

variable {engine : Engine}

theorem Follows.concat (h : engine.Follows (a ++ [e])) : engine.Follows a ∧ e ∈ engine.leaving a := by
  generalize hpath : a ++ [e] = path at h
  cases h with
  | start => simp at hpath
  | onward before leaves =>
    obtain ⟨rfl, hlast⟩ := append_inj' hpath rfl
    rw [singleton_inj.mp hlast]
    exact ⟨before, leaves⟩

theorem leaving_of_regardless (h : a.map regardless = b.map regardless) : engine.leaving a = engine.leaving b := by
  have hlast (path : ControlPath) : path.getLast?.map dst = (path.map regardless).getLast?.map dst := by
    rw [List.getLast?_map, Option.map_map]
    rfl
  rw [leaving, leaving, hlast a, hlast b, h]

theorem Follows.keys_eq_iff (hkeyed : engine.Keyed) (ha : engine.Follows a) (hb : engine.Follows b) :
    a.map controlKey = b.map controlKey ↔ a.map regardless = b.map regardless := by
  have hforget (path : ControlPath) : path.map controlKey = (path.map regardless).map controlKey := by
    simp
  refine ⟨fun hkeys => ?_, fun hsame => by rw [hforget a, hforget b, hsame]⟩
  induction ha generalizing b with
  | start => rw [map_eq_nil_iff.mp hkeys.symm]
  | @onward path e before leaves ih =>
    rcases eq_nil_or_concat' b with rfl | ⟨front, e', rfl⟩
    · simp at hkeys
    · rw [map_append, map_append] at hkeys ⊢
      obtain ⟨hfront, hlast⟩ := append_inj' hkeys rfl
      obtain ⟨hbefore, hleaves⟩ := hb.concat
      have hsame := ih hbefore hfront
      rw [← leaving_of_regardless hsame] at hleaves
      rw [hsame, map_singleton, map_singleton,
        hkeyed _ e leaves e' hleaves (singleton_inj.mp hlast)]

end Engine

/-- Loading a program gives its edges keys that tell them apart, regardless of hits and defaults. -/
theorem Loaded.engine_keyed {source : Json} (h : ofJson o files source = .ok l) (solver : Solver)
    (draw : Nat → Nat) (switchLog : Nat → List String) : (l.engine solver draw switchLog).Keyed := by
  unfold ofJson at h
  obtain ⟨p, -, h⟩ := bind_eq_ok.mp h
  obtain ⟨parserGraph, -, h⟩ := bind_eq_ok.mp h
  obtain ⟨pipeline, -, h⟩ := bind_eq_ok.mp h
  obtain ⟨control, hcontrol, h⟩ := bind_eq_ok.mp h
  obtain ⟨externs, -, h⟩ := bind_eq_ok.mp h
  cases h
  unfold controlGraph at hcontrol
  unfold Engine.Keyed engine pathGraph
  dsimp only
  split at hcontrol
  · rename_i hinit
    have hnone (v : Label) : (Graph.empty : Graph Label ControlStep).outEdges v = [] := rfl
    simp only [hinit, Graph.outEdges_addEdge, hnone]
    intro v e he e' he' _
    split at he
    · rw [if_pos ‹_›] at he'
      rw [mem_singleton.mp he, mem_singleton.mp he']
    · cases he
  · rename_i name hinit
    simp only [hinit]
    have hedges := expandAll_nodeEdge (fun v e he => by cases he) hcontrol
    exact fun v e he e' he' => (hedges v e he).regardless_eq (hedges v e' he')
  · cases hcontrol

end PacketSmith
