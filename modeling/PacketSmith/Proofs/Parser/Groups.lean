import Mathlib.Data.List.Induction
import PacketSmith.Proofs.Parser.Edges

/-!
# Transitions taken as one

What `Program.collapse` makes of the edges of a state. The transitions with one target form a
group, and a group of several is taken as one edge, whose components are the edges of the group
(`components_of_merge`). So every edge is a component of exactly one edge that is left
(`exists_mem_collapse`, `collapse_unique`), and nothing else is a component
(`mem_of_mem_collapse`).
-/

namespace PacketSmith

open List

variable (edges : List ParserEdge)

namespace ParserEdge

def transition? (e : ParserEdge) : Option Transition :=
  match e.label with
  | .transition t => some t
  | _ => none

def target? (e : ParserEdge) : Option Label :=
  match e.label with
  | .transition t => some t.target
  | _ => none

def components (e : ParserEdge) : List ParserEdge :=
  match e.label with
  | .composite parts => parts.map fun t => { e with label := .transition t }
  | _ => [e]

def merge : List ParserEdge → Option ParserEdge
  | [] => none
  | [e] => some e
  | e :: e' :: rest => some { e with label := .composite ((e :: e' :: rest).filterMap transition?) }

def group (target : Label) : List ParserEdge :=
  edges.filter fun e => target? e = some target

end ParserEdge

open ParserEdge

namespace Program

def addToGroup (d : Dict Label (List ParserEdge)) (e : ParserEdge) : Dict Label (List ParserEdge) :=
  match target? e with
  | some next => d.alter next [] (· ++ [e])
  | none => d

theorem collapse_eq :
    collapse edges = edges.filter
      (fun e => !e.label.isTransition) ++ (edges.foldl addToGroup {}).values.filterMap merge := by
  refine congrArg (edges.filter (fun e => !e.label.isTransition) ++ ·) (filterMap_congr fun group _ => ?_)
  rcases group with _ | ⟨e, _ | ⟨e', rest⟩⟩ <;> rfl

theorem groups_spec : (edges.foldl addToGroup {}).keys.Nodup ∧ ∀ target,
    (edges.foldl addToGroup {}).get? target = if group edges target = [] then none else some (group edges target) := by
  induction edges using List.reverseRecOn with
  | nil => exact ⟨nodup_nil, fun _ => rfl⟩
  | append_singleton edges e ih =>
    obtain ⟨hnodup, hget⟩ := ih
    rw [foldl_concat]
    have hgroup (target : Label) : group (edges ++ [e]) target =
        group edges target ++ if target? e = some target then [e] else [] := by
      simp only [group, filter_append, filter_cons, filter_nil]
      by_cases h : target? e = some target <;> simp [h]
    cases he : target? e with
    | none =>
      have hsame : addToGroup (edges.foldl addToGroup {}) e = edges.foldl addToGroup {} := by
        simp [addToGroup, he]
      rw [hsame]
      refine ⟨hnodup, fun target => ?_⟩
      rw [hget, hgroup, he]
      simp
    | some next =>
      have hadd : addToGroup (edges.foldl addToGroup {}) e =
          (edges.foldl addToGroup {}).insert next (group edges next ++ [e]) := by
        simp only [addToGroup, he, Dict.alter, Dict.getD, hget]
        split <;> simp_all
      rw [hadd]
      refine ⟨Dict.nodup_keys_insert hnodup _ _, fun target => ?_⟩
      rw [hgroup, he]
      by_cases h : next = target
      · subst h
        simp
      · simp [h, hget]

variable {edges : List ParserEdge} {target : Label}

theorem mem_groups : g ∈ (edges.foldl addToGroup {}).values ↔ ∃ target, g = group edges target ∧ g ≠ [] := by
  obtain ⟨hnodup, hget⟩ := groups_spec edges
  constructor
  · intro hg
    obtain ⟨⟨target, g'⟩, hmem, rfl⟩ := mem_map.mp hg
    have hfind := (Dict.get?_of_mem hnodup hmem).symm.trans (hget target)
    split at hfind
    · cases hfind
    · rename_i hne
      obtain rfl := Option.some.inj hfind
      exact ⟨target, rfl, hne⟩
  · rintro ⟨target, rfl, hne⟩
    have hfind := hget target
    rw [if_neg hne] at hfind
    exact mem_map.mpr ⟨_, Dict.mem_entries_of_get? hfind, rfl⟩

theorem mem_collapse :
    e ∈ collapse edges ↔
      e ∈ edges ∧ e.label.isTransition = false ∨ ∃ target, merge (group edges target) = some e := by
  rw [collapse_eq, mem_append, mem_filter, mem_filterMap, Bool.not_eq_true']
  refine or_congr_right ?_
  constructor
  · rintro ⟨g, hg, hmerge⟩
    obtain ⟨target, rfl, -⟩ := mem_groups.mp hg
    exact ⟨target, hmerge⟩
  · rintro ⟨target, hmerge⟩
    refine ⟨_, mem_groups.mpr ⟨target, rfl, ?_⟩, hmerge⟩
    rintro hnil
    rw [hnil] at hmerge
    cases hmerge

theorem length_collapse_le (edges : List ParserEdge) : (collapse edges).length ≤ edges.length := by
  have hgroups : (edges.foldl addToGroup {}).entries.length ≤ (edges.filter fun e => e.label.isTransition).length := by
    induction edges using List.reverseRecOn with
    | nil => exact Nat.le_refl 0
    | append_singleton edges e ih =>
      have hput (d : Dict Label (List ParserEdge)) (k : Label) (v : List ParserEdge) :
          (d.insert k v).entries.length ≤ d.entries.length + 1 := by
        have hkeys := congrArg List.length (Dict.keys_insert d k v)
        by_cases hk : k ∈ d.keys
        · rw [if_pos hk] at hkeys
          simp only [Dict.keys, length_map] at hkeys
          omega
        · rw [if_neg hk] at hkeys
          simp only [Dict.keys, length_append, length_map, length_singleton] at hkeys
          omega
      rw [foldl_concat, filter_append, length_append]
      unfold addToGroup target?
      split
      · rename_i next hnext
        split at hnext
        · rename_i t ht
          have hone : ([e].filter fun e => e.label.isTransition).length = 1 := by
            simp [ht, ParserStep.isTransition]
          rw [hone]
          exact Nat.le_trans (hput _ _ _) (Nat.add_le_add_right ih 1)
        · cases hnext
      · exact Nat.le_trans ih (Nat.le_add_right _ _)
  have hsplit : (edges.filter fun e => !e.label.isTransition).length +
      (edges.filter fun e => e.label.isTransition).length = edges.length := by
    rw [Nat.add_comm]
    exact (length_eq_length_filter_add _).symm
  have hmerged := length_filterMap_le merge (edges.foldl addToGroup {}).values
  rw [collapse_eq, length_append]
  simp only [Dict.values, length_map] at hmerged ⊢
  omega

/-! ## Components -/

/-- The edges of one state: transitions to one target have one end, and no edge stands for several. -/
structure OneState (edges : List ParserEdge) : Prop where
  plain : ∀ e ∈ edges, components e = [e]
  ends : ∀ e ∈ edges, ∀ e' ∈ edges, target? e ≠ none → target? e = target? e' → e.src = e'.src ∧ e.dst = e'.dst

theorem oneState_of_states (h : ∀ e ∈ edges, e.src = v ∧ ∃ s : ParseState, e ∈ s.edges) : OneState edges := by
  constructor
  · intro e he
    obtain ⟨-, s, hs⟩ := h e he
    rcases mem_append.mp hs with hs | hs
    · obtain ⟨t, -, rfl⟩ := mem_map.mp hs
      rfl
    · obtain ⟨err, -, rfl⟩ := mem_map.mp hs
      rfl
  · intro e he e' he' hne htarget
    obtain ⟨hsrc, s, hs⟩ := h e he
    obtain ⟨hsrc', s', hs'⟩ := h e' he'
    refine ⟨hsrc.trans hsrc'.symm, ?_⟩
    rcases mem_append.mp hs with hs | hs
    · obtain ⟨t, -, rfl⟩ := mem_map.mp hs
      rcases mem_append.mp hs' with hs' | hs'
      · obtain ⟨t', -, rfl⟩ := mem_map.mp hs'
        have hsame : t.target = t'.target := Option.some.inj htarget
        simp [ParseState.edge, Transition.node, hsame]
      · obtain ⟨err, -, rfl⟩ := mem_map.mp hs'
        cases htarget
    · obtain ⟨err, -, rfl⟩ := mem_map.mp hs
      exact absurd rfl hne

theorem transition_of_target (h : target? e = some target) : ∃ t, e.label = .transition t ∧ t.target = target := by
  unfold target? at h
  split at h
  · exact ⟨_, by assumption, Option.some.inj h⟩
  · cases h

theorem mem_group : e ∈ group edges target ↔ e ∈ edges ∧ target? e = some target := by
  simp [group]

theorem components_of_merge (h : OneState edges) (hmerge : merge (group edges target) = some e) :
    components e = group edges target := by
  have hmem : ∀ a ∈ group edges target, a ∈ edges ∧ target? a = some target := fun a ha => mem_group.mp ha
  generalize group edges target = g at hmerge hmem
  rcases g with _ | ⟨a, _ | ⟨b, rest⟩⟩
  · cases hmerge
  · cases hmerge
    exact h.plain e (hmem e mem_cons_self).1
  · cases hmerge
    -- every edge of the group is the transition it carries, between the ends of the first one
    have hback (as : List ParserEdge) (has : ∀ x ∈ as, x ∈ edges ∧ target? x = some target) :
        (as.filterMap transition?).map (fun t => ({ a with label := .transition t } : ParserEdge)) = as := by
      induction as with
      | nil => rfl
      | cons x as ih =>
        obtain ⟨⟨hx, htarget⟩, hrest⟩ := forall_mem_cons.mp has
        obtain ⟨ha, htarget'⟩ := hmem a mem_cons_self
        obtain ⟨hsrc, hdst⟩ := h.ends x hx a ha (by simp [htarget]) (htarget.trans htarget'.symm)
        obtain ⟨t, ht, -⟩ := transition_of_target htarget
        have htransition : transition? x = some t := by simp [transition?, ht]
        rw [filterMap_cons_some htransition, map_cons, ih hrest, ← hsrc, ← hdst, ← ht]
    exact hback _ hmem

theorem components_of_mem_collapse (h : OneState edges) (he : e ∈ collapse edges) :
    (e ∈ edges ∧ target? e = none ∧ components e = [e]) ∨
      ∃ target, merge (group edges target) = some e ∧ components e = group edges target := by
  rcases mem_collapse.mp he with ⟨hmem, hlabel⟩ | ⟨target, hmerge⟩
  · refine .inl ⟨hmem, ?_, h.plain e hmem⟩
    cases htarget : target? e with
    | none => rfl
    | some target =>
      obtain ⟨t, ht, -⟩ := transition_of_target htarget
      rw [ht] at hlabel
      cases hlabel
  · exact .inr ⟨target, hmerge, components_of_merge h hmerge⟩

theorem mem_of_mem_collapse (h : OneState edges) (he : e ∈ collapse edges) (he' : e' ∈ components e) : e' ∈ edges := by
  rcases components_of_mem_collapse h he with ⟨hmem, -, hself⟩ | ⟨target, -, hgroup⟩
  · rw [hself] at he'
    exact mem_singleton.mp he' ▸ hmem
  · rw [hgroup] at he'
    exact (mem_group.mp he').1

theorem exists_mem_collapse (h : OneState edges) (he : e ∈ edges) : ∃ e' ∈ collapse edges, e ∈ components e' := by
  cases hlabel : e.label.isTransition with
  | false => exact ⟨e, mem_collapse.mpr (.inl ⟨he, hlabel⟩), by simp [h.plain e he]⟩
  | true =>
    obtain ⟨target, htarget⟩ : ∃ target, target? e = some target := by
      unfold ParserStep.isTransition at hlabel
      split at hlabel
      · rename_i t ht
        exact ⟨t.target, by simp [target?, ht]⟩
      · cases hlabel
    have hmem : e ∈ group edges target := mem_group.mpr ⟨he, htarget⟩
    obtain ⟨e', hmerge⟩ : ∃ e', merge (group edges target) = some e' := by
      generalize group edges target = g at hmem
      rcases g with _ | ⟨a, _ | ⟨b, rest⟩⟩
      · cases hmem
      · exact ⟨a, rfl⟩
      · exact ⟨_, rfl⟩
    exact ⟨e', mem_collapse.mpr (.inr ⟨target, hmerge⟩), components_of_merge h hmerge ▸ hmem⟩

theorem collapse_unique (h : OneState edges) (he : e ∈ collapse edges) (he' : e' ∈ collapse edges)
    (hmem : e'' ∈ components e) (hmem' : e'' ∈ components e') : e = e' := by
  have htarget (e : ParserEdge) (target : Label) (h : e ∈ group edges target) : target? e = some target :=
    (mem_group.mp h).2
  rcases components_of_mem_collapse h he with ⟨-, hnone, hself⟩ | ⟨target, hmerge, hgroup⟩
  · rcases components_of_mem_collapse h he' with ⟨-, -, hself'⟩ | ⟨target', -, hgroup'⟩
    · rw [hself] at hmem
      rw [hself'] at hmem'
      exact (mem_singleton.mp hmem).symm.trans (mem_singleton.mp hmem')
    · rw [hself] at hmem
      rw [hgroup'] at hmem'
      have hsome := htarget e'' target' hmem'
      rw [mem_singleton.mp hmem, hnone] at hsome
      cases hsome
  · rcases components_of_mem_collapse h he' with ⟨-, hnone', hself'⟩ | ⟨target', hmerge', hgroup'⟩
    · rw [hgroup] at hmem
      rw [hself'] at hmem'
      have hsome := htarget e'' target hmem
      rw [mem_singleton.mp hmem', hnone'] at hsome
      cases hsome
    · rw [hgroup] at hmem
      rw [hgroup'] at hmem'
      obtain rfl : target = target' := Option.some.inj ((htarget e'' _ hmem).symm.trans (htarget e'' _ hmem'))
      exact Option.some.inj (hmerge.symm.trans hmerge')

end Program

end PacketSmith
