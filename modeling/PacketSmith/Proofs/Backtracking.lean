import Mathlib.Data.List.Induction
import PacketSmith.Graph.Walk

/-!
# The discipline of backtracking

How many visits a walk asks to undo is computed from the lengths of two paths only. This is right because every path
that waits is the last path, cut off somewhere, with one edge more, and paths further down the stack are not longer
(`Walk.Stacked`). In the log of a walk, a path is visited when exactly its proper prefixes are open (`Disciplined`).
The visitor has a state, which may change between two visits, and it may fail.
-/

namespace PacketSmith

open List

variable {V L δ σ ε α : Type}

/-! ## Prefixes -/

/-- The prefixes of a path that are not empty, shortest first. -/
def trail (path : List α) : List (List α) :=
  (List.range path.length).map fun i => path.take (i + 1)

def properPrefixes (path : List α) : List (List α) := trail path.dropLast

@[simp] theorem trail_length (path : List α) : (trail path).length = path.length := by
  simp [trail]

theorem trail_concat (path : List α) (a : α) : trail (path ++ [a]) = trail path ++ [path ++ [a]] := by
  simp only [trail, length_append, length_singleton, range_succ, map_append,
    map_singleton]
  congr 1
  · refine map_congr_left fun i hi => ?_
    rw [take_append_of_le_length (mem_range.mp hi)]
  · rw [take_of_length_le (by simp)]

theorem trail_dropLast (path : List α) : (trail path).dropLast = trail path.dropLast := by
  rcases eq_nil_or_concat path with rfl | ⟨path, a, rfl⟩
  · rfl
  · rw [concat_eq_append, trail_concat, dropLast_concat, dropLast_concat]

theorem properPrefixes_concat (h : path ≠ []) : properPrefixes path ++ [path] = trail path := by
  obtain ⟨front, a, rfl⟩ := eq_nil_or_concat path |>.resolve_left h
  rw [concat_eq_append, properPrefixes, dropLast_concat, trail_concat]

/-! ## The stack of waiting paths -/

namespace Walk

/-- How the stack lies over the last path: a path that waits branches off it by one edge, and paths
further down branch off no later. -/
structure Stacked (last : List (Edge V L)) (w : Walk V L) : Prop where
  depth : w.depth = last.length
  branches : ∀ path ∈ w.pending, path ≠ [] ∧ path.dropLast <+: last
  descends : w.pending.Pairwise fun path below => below.length ≤ path.length

/-- What a visit makes of the stack. -/
inductive Follows (path : List (Edge V L)) (rest : List (List (Edge V L))) : Walk V L → Prop where
  | extended (next : List (Edge V L)) :
    Follows path rest
      { pending := (next.map fun e => path ++ [e]).reverse ++ rest, depth := path.length }
  | passed : Follows path rest { pending := rest, depth := path.length }
  | stopped : Follows path rest { pending := [], depth := path.length }

theorem Stacked.start (first : List (Edge V L)) :
    Stacked [] ({ pending := (first.map fun e => [e]).reverse } : Walk V L) := by
  refine ⟨rfl, ?_, ?_⟩
  · intro path hpath
    obtain ⟨e, -, rfl⟩ := mem_map.mp (mem_reverse.mp hpath)
    simp
  · rw [pairwise_reverse, pairwise_map]
    exact pairwise_of_forall fun _ _ => Nat.le_refl _

theorem Stacked.top_ne (h : Stacked last w) (hp : w.pending = path :: rest) : path ≠ [] :=
  (h.branches path (hp ▸ mem_cons_self)).1

theorem Stacked.rest_branches (h : Stacked last w) (hp : w.pending = path :: rest) :
    ∀ below ∈ rest, below ≠ [] ∧ below.dropLast <+: path := by
  intro below hbelow
  have hb := h.branches below (hp ▸ mem_cons_of_mem _ hbelow)
  have ht := h.branches path (hp ▸ mem_cons_self)
  have hle : below.length ≤ path.length :=
    (pairwise_cons.mp (hp ▸ h.descends)).1 below hbelow
  refine ⟨hb.1, ?_⟩
  have hcut : below.dropLast <+: path.dropLast :=
    prefix_of_prefix_length_le hb.2 ht.2 (by simp; omega)
  exact hcut.trans ( dropLast_prefix path)

theorem Stacked.follows (h : Stacked last w) (hp : w.pending = path :: rest)
    (hw : Follows path rest w') : Stacked path w' := by
  have hrest := h.rest_branches hp
  have hdown := pairwise_cons.mp (hp ▸ h.descends)
  cases hw with
  | extended next =>
    refine ⟨rfl, ?_, ?_⟩
    · intro q hq
      rcases mem_append.mp hq with hq | hq
      · obtain ⟨e, -, rfl⟩ := mem_map.mp (mem_reverse.mp hq)
        simp
      · exact hrest q hq
    · rw [pairwise_append]
      refine ⟨?_, hdown.2, ?_⟩
      · rw [pairwise_reverse, pairwise_map]
        exact pairwise_of_forall fun _ _ => by simp
      · intro q hq below hbelow
        obtain ⟨e, -, rfl⟩ := mem_map.mp (mem_reverse.mp hq)
        have := hdown.1 below hbelow
        simp only [length_append, length_singleton]
        omega
  | passed => exact ⟨rfl, hrest, hdown.2⟩
  | stopped => exact ⟨rfl, by simp, List.Pairwise.nil⟩

/-- Undoing as many visits as a step does leaves the path on top without its last edge. -/
theorem Stacked.take_eq (h : Stacked last w) (hp : w.pending = path :: rest) :
    last.take (last.length - (w.depth + 1 - path.length)) = path.dropLast := by
  obtain ⟨hne, hpre⟩ := h.branches path (hp ▸ mem_cons_self)
  have hlen := hpre.length_le
  rw [length_dropLast] at hlen
  rw [prefix_iff_eq_take.mp hpre, length_dropLast, h.depth]
  congr 1
  omega

end Walk

/-! ## Logs -/

inductive WalkEvent (V L : Type) where
  | visit (path : List (Edge V L))
  | backtrack

namespace WalkEvent

def isVisit : WalkEvent V L → Bool
  | visit _ => true
  | backtrack => false

def isBacktrack : WalkEvent V L → Bool
  | visit _ => false
  | backtrack => true

def apply (paths : List (List (Edge V L))) : WalkEvent V L → List (List (Edge V L))
  | visit path => paths ++ [path]
  | backtrack => paths.dropLast

def Permitted (paths : List (List (Edge V L))) : WalkEvent V L → Prop
  | visit path => paths = properPrefixes path
  | backtrack => paths ≠ []

end WalkEvent

/-- The paths that were visited and not undone, oldest first. -/
def openPaths (log : List (WalkEvent V L)) : List (List (Edge V L)) := log.foldl WalkEvent.apply []

def Disciplined (log : List (WalkEvent V L)) : Prop :=
  ∀ before e after, log = before ++ e :: after → e.Permitted (openPaths before)

@[simp] theorem openPaths_concat (log : List (WalkEvent V L)) (e : WalkEvent V L) :
    openPaths (log ++ [e]) = e.apply (openPaths log) := by
  simp [openPaths]

theorem Disciplined.nil : Disciplined ([] : List (WalkEvent V L)) := by
  intro before e after h
  simp at h

variable {log : List (WalkEvent V L)} {e : WalkEvent V L}

theorem Disciplined.concat (h : Disciplined log) (he : e.Permitted (openPaths log)) : Disciplined (log ++ [e]) := by
  intro before e' after hsplit
  rcases eq_nil_or_concat after with rfl | ⟨after, last, rfl⟩
  · obtain ⟨rfl, he'⟩ := append_inj' hsplit rfl
    obtain rfl := head_eq_of_cons_eq he'
    exact he
  · rw [concat_eq_append, ← cons_append, ← append_assoc] at hsplit
    exact h before e' after (append_inj' hsplit rfl).1

theorem Disciplined.front (h : Disciplined (log ++ [e])) : Disciplined log ∧ e.Permitted (openPaths log) := by
  refine ⟨fun before e' after hsplit => ?_, h log e [] rfl⟩
  exact h before e' (after ++ [e]) (by simp [hsplit])

theorem Disciplined.count_visits (h : Disciplined log) :
    log.countP WalkEvent.isVisit = log.countP WalkEvent.isBacktrack + (openPaths log).length := by
  induction log using List.reverseRecOn with
  | nil => rfl
  | append_singleton log e ih =>
    obtain ⟨hlog, he⟩ := h.front
    have ih := ih hlog
    cases e with
    | visit path =>
      simp [WalkEvent.isVisit, WalkEvent.isBacktrack, WalkEvent.apply, ih]
      omega
    | backtrack =>
      have hpos : 0 < (openPaths log).length := length_pos_iff.mpr he
      simp [WalkEvent.isVisit, WalkEvent.isBacktrack, WalkEvent.apply, ih]
      omega

/-! ## Visitors with a log -/

abbrev VisitorM (σ ε : Type) := ExceptT ε (StateM σ)

/-- A step of such a visitor with a log beside its state. -/
abbrev LoggedM (V L σ ε : Type) := ExceptT ε (StateM (List (WalkEvent V L) × σ))

namespace LoggedM

def inner (x : VisitorM σ ε α) : LoggedM V L σ ε α := fun (log, s) =>
  let (r, s') := x s
  (r, (log, s'))

def note (e : WalkEvent V L) : LoggedM V L σ ε Unit := modify fun (log, s) => (log ++ [e], s)

/-- What a step does to the log: from a log with `P` it comes to one with `Q`, or fails with one that
is disciplined. -/
def Leads (P : List (WalkEvent V L) → Prop) (x : LoggedM V L σ ε α) (Q : α → List (WalkEvent V L) → Prop) : Prop :=
  ∀ log s, P log →
    match x (log, s) with
    | (.ok a, log', _) => Q a log'
    | (.error _, log', _) => Disciplined log'

theorem leads_pure (a : α) (h : ∀ log, P log → Q a log) :
    Leads P (pure a : LoggedM V L σ ε α) Q := fun log _ hlog => h log hlog

theorem Leads.bind (hx : Leads P x Q) (hf : ∀ a, Leads (Q a) (f a) R) : Leads P (x >>= f) R := by
  intro log s hlog
  have h := hx log s hlog
  change match (ExceptT.bindCont f (x (log, s)).1) (x (log, s)).2 with
    | (.ok b, log', _) => R b log'
    | (.error _, log', _) => Disciplined log'
  rcases hr : x (log, s) with ⟨r, log', s'⟩
  rw [hr] at h
  cases r with
  | ok a => exact hf a log' s' h
  | error f => exact h

theorem leads_inner (x : VisitorM σ ε α) (hP : ∀ log, P log → Disciplined log) : Leads P (inner x) fun _ => P := by
  intro log s hlog
  rcases hr : x s with ⟨r, s'⟩
  simp only [inner, hr]
  cases r with
  | ok a => exact hlog
  | error f => exact hP log hlog

theorem leads_note (e : WalkEvent V L) (h : ∀ log, P log → P' (log ++ [e])) :
    Leads P (note e : LoggedM V L σ ε Unit) fun _ => P' := fun log _ hlog => h log hlog

end LoggedM

/-- The visitor that writes down what it is asked to do, and then does it. -/
def Visitor.logged (v : Visitor (VisitorM σ ε) V L δ) : Visitor (LoggedM V L σ ε) V L δ where
  order path edges := LoggedM.inner (v.order path edges)
  visit path complete := do
    LoggedM.note (.visit path)
    LoggedM.inner (v.visit path complete)
  backtrack := do
    LoggedM.note .backtrack
    LoggedM.inner v.backtrack

/-! ## The log of a walk -/

structure OpenAt (last : List (Edge V L)) (log : List (WalkEvent V L)) : Prop where
  disciplined : Disciplined log
  isOpen : openPaths log = trail last

theorem OpenAt.backtrack (h : OpenAt last log) (hne : last ≠ []) : OpenAt last.dropLast (log ++ [.backtrack]) := by
  refine ⟨h.disciplined.concat ?_, ?_⟩
  · intro hnil
    have := congrArg List.length (h.isOpen.symm.trans hnil)
    exact hne (length_eq_zero_iff.mp (by simpa using this))
  · rw [openPaths_concat, WalkEvent.apply, h.isOpen, trail_dropLast]

theorem OpenAt.visit (h : OpenAt path.dropLast log) (hne : path ≠ []) : OpenAt path (log ++ [.visit path]) := by
  refine ⟨h.disciplined.concat h.isOpen, ?_⟩
  rw [openPaths_concat, h.isOpen]
  exact properPrefixes_concat hne

namespace Walk

open LoggedM

variable (g : Graph V L) (goal : V) (v : Visitor (VisitorM σ ε) V L δ)

theorem leads_undo (n : Nat) (last : List (Edge V L)) (hn : n ≤ last.length) :
    Leads (OpenAt last) (undo v.logged n) fun _ => OpenAt (last.take (last.length - n)) := by
  induction n generalizing last with
  | zero => exact leads_pure () fun log hlog => by simpa using hlog
  | succ n ih =>
    have hne : last ≠ [] := length_pos_iff.mp (by omega)
    have hcut : last.dropLast.take (last.dropLast.length - n) = last.take (last.length - (n + 1)) := by
      rw [dropLast_eq_take, take_take, length_take]
      congr 1
      omega
    refine Leads.bind (Q := fun _ => OpenAt last.dropLast) ?_ fun _ => ?_
    · refine Leads.bind (leads_note _ fun log hlog => hlog.backtrack hne) fun _ => ?_
      exact leads_inner _ fun log hlog => hlog.disciplined
    · rw [← hcut]
      exact ih last.dropLast (by simp; omega)

variable {w : Walk V L} {last : List (Edge V L)}

theorem leads_step [DecidableEq V] (hw : Stacked last w) (hp : w.pending = path :: rest) : Leads (OpenAt last)
    (step g goal v.logged path rest w.depth) fun r log => OpenAt path log ∧ Follows path rest r.2.2 := by
  have hne := hw.top_ne hp
  have hpos : 0 < path.length := length_pos_iff.mpr hne
  refine Leads.bind (Q := fun _ => OpenAt path.dropLast) ?_ fun _ => ?_
  · rw [← hw.take_eq hp]
    exact leads_undo v _ last (by rw [hw.depth]; omega)
  refine Leads.bind (Q := fun _ => OpenAt path) ?_ fun r => ?_
  · refine Leads.bind (leads_note _ fun log hlog => hlog.visit hne) fun _ => ?_
    exact leads_inner _ fun log hlog => hlog.disciplined
  dsimp only
  split
  · refine Leads.bind (leads_inner _ fun log hlog => hlog.disciplined) fun next => ?_
    exact leads_pure _ fun log hlog => ⟨hlog, .extended next⟩
  · exact leads_pure _ fun log hlog => ⟨hlog, .passed⟩

def Tracks (w : Walk V L) (log : List (WalkEvent V L)) : Prop :=
  ∃ last, Stacked last w ∧ OpenAt last log ∧ (w.ended → last = [])

theorem Follows.stop (h : Follows path rest w) : Follows path rest { w with pending := [] } := by
  cases h <;> exact .stopped

theorem Follows.not_ended (h : Follows path rest w) : w.ended = false := by
  cases h <;> rfl

theorem leads_start (leaving : List (Edge V L)) :
    Leads (· = []) (start v.logged leaving) fun w log => Tracks w log := by
  refine Leads.bind (leads_inner _ ?_) fun first => leads_pure _ ?_
  · rintro log rfl
    exact Disciplined.nil
  · rintro log rfl
    exact ⟨[], Stacked.start first, ⟨Disciplined.nil, rfl⟩, fun _ => rfl⟩

theorem leads_finish (hw : Stacked last w) : Leads (OpenAt last) (finish v.logged w) Tracks := by
  refine Leads.bind (leads_undo v w.depth last (Nat.le_of_eq hw.depth)) fun _ => ?_
  refine leads_pure _ fun log hlog => ⟨[], ⟨rfl, by simp, .nil⟩, ?_, fun _ => rfl⟩
  rw [hw.depth, Nat.sub_self] at hlog
  exact hlog

theorem leads_move [DecidableEq V] (w : Walk V L) :
    Leads (Tracks w) (move g goal v.logged w) fun r log => Tracks r.2 log := by
  rintro log s ⟨last, hw, hopen, hended⟩
  suffices h : Leads (OpenAt last) (move g goal v.logged w) fun r log => Tracks r.2 log from
    h log s hopen
  rw [move]
  split
  · split
    · exact leads_pure _ fun log hlog => ⟨last, hw, hlog, hended⟩
    · refine Leads.bind (leads_finish v hw) fun w' => leads_pure _ fun log hlog => hlog
  · rename_i path rest hp
    refine Leads.bind (leads_step g goal v hw hp) fun r => leads_pure _ ?_
    rintro log ⟨hopen, hfollows⟩
    refine ⟨path, hw.follows hp ?_, hopen, ?_⟩
    · split
      · exact hfollows.stop
      · exact hfollows
    · intro h
      split at h
      · exact absurd (hfollows.not_ended.symm.trans h) Bool.noConfusion
      · exact absurd (hfollows.not_ended.symm.trans h) Bool.noConfusion

end Walk

/-! ## Enumerations -/

/-- The logs of an enumeration of the paths from a node, each with the walk as it is suspended then,
or with nothing if the visitor has failed. Whenever the walk goes on, the visitor may be in any
state. -/
inductive Enumerates [DecidableEq V] (g : Graph V L) (src goal : V)
    (v : Visitor (VisitorM σ ε) V L δ) : List (WalkEvent V L) → Option (Walk V L) → Prop where
  | start {s s' : σ} {r : Except ε (Walk V L)} {log : List (WalkEvent V L)}
    (run : Walk.start v.logged (g.outEdges src) ([], s) = (r, log, s')) :
    Enumerates g src goal v log r.toOption
  | move {s s' : σ} {w : Walk V L} {r : Except ε (Option δ × Walk V L)}
    {log log' : List (WalkEvent V L)} (before : Enumerates g src goal v log (some w))
    (run : Walk.move g goal v.logged w (log, s) = (r, log', s')) :
    Enumerates g src goal v log' (r.toOption.map Prod.snd)

theorem Enumerates.tracks [DecidableEq V] {suspended : Option (Walk V L)} (h : Enumerates g src goal v log suspended)
    : Disciplined log ∧ ∀ w, suspended = some w → w.Tracks log := by
  have hleft {w : Walk V L} {log : List (WalkEvent V L)} (h : w.Tracks log) :
      Disciplined log ∧ ∀ w', some w = some w' → w'.Tracks log := by
    refine ⟨?_, fun w' hw' => Option.some.inj hw' ▸ h⟩
    obtain ⟨last, -, hopen, -⟩ := h
    exact hopen.disciplined
  induction h with
  | @start s s' r log run =>
    have hlead := Walk.leads_start v (g.outEdges src) [] s rfl
    rw [run] at hlead
    cases r with
    | ok w => exact hleft hlead
    | error f => exact ⟨hlead, fun w' hw' => nomatch hw'⟩
  | @move s s' w r log log' before run ih =>
    have hlead := Walk.leads_move g goal v w log s (ih.2 w rfl)
    rw [run] at hlead
    cases r with
    | ok dw => exact hleft hlead
    | error f => exact ⟨hlead, fun w' hw' => nomatch hw'⟩

/-- Visits are nested like prefixes. A path is visited when its proper prefixes are what was visited
and not undone, no visit is undone that is not there, and a walk that has ended has undone all of
them. -/
theorem visits_nested [DecidableEq V] (g : Graph V L) (src goal : V)
    (v : Visitor (VisitorM σ ε) V L δ) (log : List (WalkEvent V L)) (suspended : Option (Walk V L))
    (h : Enumerates g src goal v log suspended) :
    (∀ before path after, log = before ++ .visit path :: after →
      openPaths before = properPrefixes path) ∧
    (∀ before after, log = before ++ .backtrack :: after → openPaths before ≠ []) ∧
    (∀ w, suspended = some w → w.ended →
      log.countP WalkEvent.isBacktrack = log.countP WalkEvent.isVisit) := by
  obtain ⟨hlog, htracks⟩ := h.tracks
  refine ⟨fun before path after hsplit => hlog before _ after hsplit,
    fun before after hsplit => hlog before _ after hsplit, fun w hw hended => ?_⟩
  obtain ⟨last, -, hopen, hlast⟩ := htracks w hw
  have hcount := hlog.count_visits
  rw [hopen.isOpen, hlast hended] at hcount
  exact hcount.symm

section Diamond

/-- Two ways from the first node to the last one. -/
def diamond : Graph Nat Unit :=
  Graph.empty |>.addEdge ⟨0, 1, ()⟩ |>.addEdge ⟨0, 2, ()⟩ |>.addEdge ⟨1, 3, ()⟩ |>.addEdge ⟨2, 3, ()⟩

def scripted : Visitor (VisitorM (List Verdict) Unit) Nat Unit Unit where
  order _ edges := return edges
  visit _ _ := do
    match ← get with
    | [] => throw ()
    | answer :: rest =>
      set rest
      return (answer, none)
  backtrack := return ()

/-- The log of a walk over the diamond that leaves one path alone, follows the other one and stops
there. -/
def diamondLog : List (WalkEvent Nat Unit) :=
  [.visit [⟨0, 2, ()⟩], .backtrack, .visit [⟨0, 1, ()⟩], .visit [⟨0, 1, ()⟩, ⟨1, 3, ()⟩],
    .backtrack, .backtrack]

theorem visits_nested_diamond :
    Enumerates diamond 0 3 scripted diamondLog (some { pending := [], depth := 0, ended := true }) ∧
    openPaths (diamondLog.take 3) = properPrefixes [⟨0, 1, ()⟩, ⟨1, 3, ()⟩] ∧
    openPaths (diamondLog.take 5) ≠ [] ∧
    diamondLog.countP WalkEvent.isBacktrack = diamondLog.countP WalkEvent.isVisit := by
  have hstart : Enumerates diamond 0 3 scripted [] _ := .start (s := [.retreat, .proceed, .stop]) rfl
  have hfirst := hstart.move (s := [.retreat, .proceed, .stop]) rfl
  have hsecond := hfirst.move (s := [.proceed, .stop]) rfl
  have hthird := hsecond.move (s := [.stop]) rfl
  have hend : Enumerates diamond 0 3 scripted diamondLog _ := hthird.move (s := []) rfl
  obtain ⟨hvisit, hback, hcount⟩ := visits_nested _ _ _ _ _ _ hend
  exact ⟨hend, hvisit _ _ _ rfl, hback _ _ rfl, hcount _ rfl rfl⟩

end Diamond

end PacketSmith
