import PacketSmith.Proofs.ControlNodes

/-!
# Conditions in the log

A line of the log names a condition by its file, its line and its text, and leaves out the column. While a graph is
built, every condition is recorded at its source, which has a column, each time it is expanded
(`ControlGraph.Recorded`). The first source that agrees with a line is taken for all of them. So a line is attributed to
the only condition it can mean, or is an error, if conditions that a line does not tell apart are recorded at one source
(`ControlGraph.Clear`).
-/

namespace PacketSmith

open List

/-! ## Recorded conditions -/

def Pipeline.Judges (pipeline : Pipeline) (v : Label) (c : Conditional) : Prop :=
  pipeline.tables.get? v = none ∧ pipeline.conditionals.get? v = some c

namespace ControlGraph

/-- The sources list conditions, each as often as it was expanded. -/
structure Recorded (pipeline : Pipeline) (g : ControlGraph) : Prop where
  nodup : g.places.keys.Nodup
  listed : ∀ source vs, g.places.get? source = some vs →
    vs ≠ [] ∧ ∀ v ∈ vs, ∃ c, pipeline.Judges v c ∧ c.source = source
  count : ∀ v c, pipeline.Judges v c → (g.graph.outEdges v).length = 2 * (g.places.getD c.source []).count v

variable {p : Program} {pipeline : Pipeline} {g g' : ControlGraph} {file fragment : String} {n : Int} {v : Label}

theorem Recorded.expand (h : g.Recorded pipeline) (hexpand : p.expand pipeline v g = .ok (edges, g')) :
    g'.Recorded pipeline := by
  have hedges := (Program.expand_ok hexpand).2
  unfold Program.expand at hexpand
  split at hexpand
  · next t ht =>
    obtain ⟨edges', -, hexpand⟩ := bind_eq_ok.mp hexpand
    cases hexpand
    refine ⟨h.nodup, h.listed, fun u c hu => ?_⟩
    rw [hedges u, if_neg fun heq => by simp [heq, hu.1] at ht]
    exact h.count u c hu
  · next ht =>
    split at hexpand
    · cases hexpand
    · next c hc =>
      cases hexpand
      refine ⟨Dict.nodup_keys_insert h.nodup _ _, fun source vs hvs => ?_, fun u c' hu => ?_⟩
      · rw [Dict.alter, Dict.get?_insert] at hvs
        split at hvs
        · next hsource =>
          obtain rfl := Option.some.inj hvs
          refine ⟨by simp, forall_mem_append.mpr ⟨fun u hu => ?_, by simpa using ⟨c, ⟨ht, hc⟩, hsource⟩⟩⟩
          cases hold : g.places.get? c.source with
          | none => simp [Dict.getD, hold] at hu
          | some us => exact hsource ▸ (h.listed _ us hold).2 u (by simpa [Dict.getD, hold] using hu)
        · exact h.listed source vs hvs
      · rw [hedges u, Dict.alter, Dict.getD_insert]
        have hcount := h.count u c' hu
        by_cases huv : v = u
        · subst huv
          obtain rfl := Option.some.inj (hc.symm.trans hu.2)
          simp [hcount, Program.conditionalEdges, Nat.mul_add]
        · rw [if_neg huv, hcount]
          split
          · next hsource => simp [hsource, count_append, huv]
          · rfl

theorem Recorded.run (h : g.Recorded pipeline) (hrun : p.expandAll pipeline fuel queue met g = .ok g') :
    g'.Recorded pipeline := by
  induction fuel generalizing queue met g with
  | zero => cases hrun
  | succ fuel ih =>
    cases queue with
    | nil =>
      cases hrun
      exact h
    | cons v queue =>
      obtain ⟨⟨edges, g₁⟩, hexpand, hrun⟩ := bind_eq_ok.mp hrun
      exact ih (h.expand hexpand) hrun

theorem recorded_of_controlGraph (h : p.controlGraph pipeline = .ok g) : g.Recorded pipeline := by
  have hstart : Recorded pipeline {} := ⟨nodup_nil, nofun, fun v c _ => rfl⟩
  unfold Program.controlGraph at h
  split at h
  · cases h
    exact hstart
  · exact hstart.run h
  · cases h

/-! ## What a line means -/

/-- A condition of the graph at a source. -/
def Stands (pipeline : Pipeline) (g : ControlGraph) (v : Label) (s : SourceInfo) : Prop :=
  g.graph.outEdges v ≠ [] ∧ ∃ c, pipeline.Judges v c ∧ c.source = some s

def Clear (pipeline : Pipeline) (g : ControlGraph) : Prop :=
  ∀ u v s s', g.Stands pipeline u s → g.Stands pipeline v s' → s.spot = s'.spot → s = s'

/-- A condition that a line can mean. -/
def Meant (pipeline : Pipeline) (g : ControlGraph) (file : String) (n : Int) (fragment : String) (v : Label) : Prop :=
  ∃ s, g.Stands pipeline v s ∧ s.spot = (.text file, .int n, .text fragment)

/-- The only condition that a line can mean, which was expanded once. -/
structure Alone (pipeline : Pipeline) (g : ControlGraph) (file : String) (n : Int) (fragment : String) (v : Label) :
    Prop where
  meant : g.Meant pipeline file n fragment v
  only : ∀ u, g.Meant pipeline file n fragment u → u = v
  once : (g.graph.outEdges v).length = 2

theorem same_iff {s : SourceInfo} : SourceInfo.same ⟨.text file, .text fragment, .int n, .null⟩ s = true ↔
    s.spot = (.text file, .int n, .text fragment) := by
  simp only [SourceInfo.same, SourceInfo.spot, beq_self_eq_true, Bool.true_or, Bool.and_true, Bool.and_eq_true,
    beq_iff_eq, Prod.mk.injEq]
  grind

theorem Recorded.outEdges_length (h : g.Recorded pipeline) (hget : g.places.get? source = some vs) (hv : v ∈ vs) :
    (g.graph.outEdges v).length = 2 * vs.count v := by
  obtain ⟨c, hjudges, rfl⟩ := (h.listed source vs hget).2 v hv
  rw [h.count v c hjudges, Dict.getD, hget, Option.getD_some]

theorem Recorded.stands_iff (h : g.Recorded pipeline) :
    g.Stands pipeline v s ↔ ∃ vs, g.places.get? (some s) = some vs ∧ v ∈ vs := by
  constructor
  · rintro ⟨hout, c, hv, hs⟩
    have hcount := h.count v c hv
    rw [hs, Dict.getD] at hcount
    cases hvs : g.places.get? (some s) with
    | none => simp_all
    | some vs =>
      refine ⟨vs, rfl, count_pos_iff.mp (Nat.pos_of_ne_zero fun hzero => hout ?_)⟩
      simpa [hvs, hzero] using hcount
  · rintro ⟨vs, hvs, hv⟩
    obtain ⟨c, hjudges, hs⟩ := (h.listed _ vs hvs).2 v hv
    have hlength := h.outEdges_length hvs hv
    have hpos := count_pos_iff.mpr hv
    exact ⟨length_pos_iff.mp (by omega), c, hjudges, hs⟩

/-- What the records hold for a line. -/
def entryAt (g : ControlGraph) (file : String) (n : Int) (fragment : String) :
    Option (Option SourceInfo × List Label) :=
  g.places.entries.find? fun e =>
    (e.1.map fun s => SourceInfo.same ⟨.text file, .text fragment, .int n, .null⟩ s).getD false

theorem nodeAt_iff_entryAt : Trace.nodeAt g.places file n fragment = .ok v ↔
    ∃ source, g.entryAt file n fragment = some (source, [v]) := by
  unfold Trace.nodeAt entryAt
  dsimp only
  split <;> simp_all

/-- The entry that is found lists all conditions that the line can mean. -/
theorem Recorded.entryAt_ok (h : g.Recorded pipeline) (hclear : g.Clear pipeline)
    (hfound : g.entryAt file n fragment = some (source, vs)) :
    g.places.get? source = some vs ∧ ∀ u, u ∈ vs ↔ g.Meant pipeline file n fragment u := by
  have hget := Dict.get?_of_mem h.nodup (mem_of_find?_eq_some hfound)
  have hsame := List.find?_some hfound
  cases source with
  | none => cases hsame
  | some s =>
    have hspot := same_iff.mp hsame
    refine ⟨hget, fun u => ⟨fun hu => ⟨s, h.stands_iff.mpr ⟨vs, hget, hu⟩, hspot⟩, ?_⟩⟩
    rintro ⟨s', hs', hspot'⟩
    obtain ⟨w, hw⟩ := exists_mem_of_ne_nil vs (h.listed _ vs hget).1
    obtain rfl := hclear u w s' s hs' (h.stands_iff.mpr ⟨vs, hget, hw⟩) (hspot'.trans hspot.symm)
    obtain ⟨vs', hvs', hu⟩ := h.stands_iff.mp hs'
    obtain rfl := Option.some.inj (hget.symm.trans hvs')
    exact hu

theorem Recorded.nodeAt_iff (h : g.Recorded pipeline) (hclear : g.Clear pipeline) :
    Trace.nodeAt g.places file n fragment = .ok v ↔ g.Alone pipeline file n fragment v := by
  rw [nodeAt_iff_entryAt]
  constructor
  · rintro ⟨source, hfound⟩
    obtain ⟨hget, hmeant⟩ := h.entryAt_ok hclear hfound
    exact ⟨(hmeant v).mp (by simp), fun u hu => by simpa using (hmeant u).mpr hu, by simp [h.outEdges_length hget]⟩
  · rintro ⟨hv, honly, honce⟩
    cases hfound : g.entryAt file n fragment with
    | none =>
      obtain ⟨s, hs, hspot⟩ := hv
      obtain ⟨us, hus, -⟩ := h.stands_iff.mp hs
      exact absurd (same_iff.mpr hspot) (List.find?_eq_none.mp hfound _ (Dict.mem_entries_of_get? hus))
    | some e =>
      obtain ⟨source, vs⟩ := e
      obtain ⟨hget, hmeant⟩ := h.entryAt_ok hclear hfound
      have hcount := h.outEdges_length hget ((hmeant v).mpr hv)
      rw [honce, count_eq_length.mpr fun u hu => (honly u ((hmeant u).mp hu)).symm] at hcount
      obtain ⟨u, rfl⟩ := length_eq_one_iff.mp (by omega : vs.length = 1)
      exact ⟨source, by rw [honly u ((hmeant u).mp (by simp))]⟩

end ControlGraph

/-- A line that names a condition by its place is attributed to the only condition of the graph at that place, and is an
error if there is none or more than one. -/
theorem Trace.Scan.step_conditionAt {p : Program} {pipeline : Pipeline} {g : ControlGraph}
    {file fragment value : String} {n : Int} (hg : p.controlGraph pipeline = .ok g) (hclear : g.Clear pipeline) (s : Scan)
    (hline : Line.ofText line = .conditionAt file n fragment none value) :
    (∀ v, g.Alone pipeline file n fragment v → value = "true" ∨ value = "false" →
      s.step g.places line = .ok (some { s with
        visited := .condition v (value == "true") (some (file, n, fragment)) :: s.visited, applied := false })) ∧
    ((∀ v, ¬g.Alone pipeline file n fragment v) → s.step g.places line = .error .violated) := by
  have hrecorded := ControlGraph.recorded_of_controlGraph hg
  refine ⟨fun v hv hvalue => ?_, fun hnone => ?_⟩
  · rw [step, hline]
    have hnode := (hrecorded.nodeAt_iff hclear).mpr hv
    rcases hvalue with rfl | rfl <;> simp [hnode, require, bind, Except.bind, pure, Except.pure]
  · have hfails : nodeAt g.places file n fragment = .error .violated := by
      cases hnode : nodeAt g.places file n fragment with
      | ok v => exact absurd ((hrecorded.nodeAt_iff hclear).mp hnode) (hnone v)
      | error e =>
        unfold nodeAt at hnode
        dsimp only at hnode
        split at hnode <;> simp_all
    simp only [step, hline, hfails, bind, Except.bind]

/-! ## Two conditions -/

namespace Forwarding

def checks (n column : Int) : Pipeline :=
  { (default : Pipeline) with
    initTable := .str "first"
    conditionals := .ofList [
      (.text "first", { (default : Conditional) with
        trueNext := .text "second", source := some ⟨"f.p4", "a == b", .int 7, .int 5⟩ }),
      (.text "second", { (default : Conditional) with source := some ⟨"f.p4", "a == b", .int n, .int column⟩ })] }

def checked : String := "[cxt 0] f.p4(7) Condition \"a == b\" is true"

theorem stands_cases {g : ControlGraph} (h : g.Stands (checks n column) v s) :
    v = .text "first" ∧ s.line = .int 7 ∧ s.column = .int 5 ∨ s.line = .int n ∧ s.column = .int column := by
  obtain ⟨-, c, ⟨-, hc⟩, hs⟩ := h
  simp only [checks, Dict.ofList, foldl_cons, foldl_nil, Dict.get?_insert, Dict.get?_empty] at hc
  split at hc
  · cases hc
    cases hs
    exact .inr ⟨rfl, rfl⟩
  · split at hc
    · next hv =>
      cases hc
      cases hs
      exact .inl ⟨hv.symm, rfl, rfl⟩
    · cases hc

end Forwarding

theorem Trace.Scan.step_conditionAt_checked :
    ∃ g, Forwarding.program.controlGraph (Forwarding.checks 8 30) = .ok g ∧
      Scan.step g.places {} Forwarding.checked =
      .ok (some { visited := [.condition "first" true (some ("f.p4", 7, "a == b"))] }) := by
  have hg : Forwarding.program.controlGraph (Forwarding.checks 8 30) = .ok _ := rfl
  refine ⟨_, rfl, (step_conditionAt hg ?_ {} rfl).1 "first" ⟨?_, ?_, rfl⟩ (.inl rfl)⟩
  · rintro u v ⟨⟩ ⟨⟩ hs hs' hspot
    have hline := Forwarding.stands_cases hs
    have hline' := Forwarding.stands_cases hs'
    grind [SourceInfo.spot]
  · exact ⟨_, ⟨by decide, _, ⟨rfl, rfl⟩, rfl⟩, rfl⟩
  · rintro u ⟨s, hs, hspot⟩
    have hline := Forwarding.stands_cases hs
    grind [SourceInfo.spot]

/-- The first of two conditions is taken if they are on one line at different columns. -/
theorem Trace.Scan.step_conditionAt_silent : ∃ g, Forwarding.program.controlGraph (Forwarding.checks 7 30) = .ok g ∧
    g.Meant (Forwarding.checks 7 30) "f.p4" 7 "a == b" "first" ∧
    g.Meant (Forwarding.checks 7 30) "f.p4" 7 "a == b" "second" ∧
    Scan.step g.places {} Forwarding.checked =
      .ok (some { visited := [.condition "first" true (some ("f.p4", 7, "a == b"))] }) := by
  refine ⟨_, rfl, ⟨_, ⟨by decide, _, ⟨rfl, rfl⟩, rfl⟩, rfl⟩, ⟨_, ⟨by decide, _, ⟨rfl, rfl⟩, rfl⟩, rfl⟩, rfl⟩

end PacketSmith
