import Mathlib.Algebra.GroupWithZero.Nat
import Mathlib.Algebra.Order.BigOperators.Group.List
import Mathlib.Data.List.Induction
import PacketSmith.ParserGraph

/-!
# The walk over the paths of a parser

`Walkable` are the paths that a walk over a parser graph visits, and `Finds` is what it does from the paths that wait.
It finds walkable paths only (`Finds.sound`) and none twice (`Finds.apart`), and what is walkable is found, waits, or
was gone on from (`Finds.complete`). If no walkable path is longer than some number, it makes no more visits than a
tree of that height has nodes (`treeSize`), so nothing waits in the end.
-/

namespace PacketSmith

open List
open Transition (sink)

def ParserPath.AtEnd (path : ParserPath) : Prop := path.getLast?.map Edge.dst = some sink

instance (path : ParserPath) : Decidable path.AtEnd := inferInstanceAs (Decidable (_ = _))

/-- The edges that leave the last node of a path, which starts at a given one. -/
def ParserPath.leaving (g : Graph String ParserStep) (init : String) (path : ParserPath) : List ParserEdge :=
  g.outEdges ((path.getLast?.map Edge.dst).getD init)

theorem ParserPath.atEnd_concat : ParserPath.AtEnd (path ++ [e]) ↔ e.dst = sink := by
  simp [AtEnd]

namespace Program

section

variable (p : Program) (g : Graph String ParserStep) (init : String) (collapsed : Bool)

/-- The paths that a walk visits from a node on. -/
inductive Walkable : ParserPath → Prop where
  | start : Walkable []
  | onward {path : ParserPath} {next : List ParserEdge} {e : ParserEdge} (before : Walkable path) (opens : ¬ path.AtEnd)
    (ways : p.onward collapsed path (path.leaving g init) = .ok next) (mem : e ∈ next) : Walkable (path ++ [e])

/-- What a walk makes of the paths that wait: the paths it finds, and those that wait then. -/
inductive Finds : List ParserPath → List ParserPath → List ParserPath → Prop where
  | stop {pending : List ParserPath} : Finds pending [] pending
  | done {path : ParserPath} {pending found left : List ParserPath} (atEnd : path.AtEnd)
    (rest : Finds pending found left) : Finds (path :: pending) (path :: found) left
  | goes {path : ParserPath} {pending found left : List ParserPath} {next : List ParserEdge}
    (opens : ¬ path.AtEnd) (ways : p.onward collapsed path (path.leaving g init) = .ok next)
    (rest : Finds ((next.map fun e => path ++ [e]).reverse ++ pending) found left) : Finds (path :: pending) found left

/-- There are few ways to go on, and no walkable path is longer than a number. -/
structure Within (branches longest : Nat) : Prop where
  ways : ∀ path next, p.onward collapsed path (path.leaving g init) = .ok next → next.length ≤ branches
  length : ∀ path, Walkable p g init collapsed path → path.length ≤ longest

/-- The walk fails at a path, since it cannot be said how the path goes on. -/
def FailsAt (f : Fault) (path : ParserPath) : Prop :=
  ¬ path.AtEnd ∧ p.onward collapsed path (path.leaving g init) = .error f

end

variable {p : Program} {g : Graph String ParserStep} {init : String} {collapsed : Bool}
  {path q : ParserPath} {pending pending' found found' left : List ParserPath} {a b : ParserPath}
  {branches longest depth : Nat} {next : List ParserEdge}

/-! ## Walkable paths -/

theorem Walkable.concat (h : Walkable p g init collapsed (path ++ [e])) :
    Walkable p g init collapsed path ∧ ¬ path.AtEnd ∧
      ∃ next, p.onward collapsed path (path.leaving g init) = .ok next ∧ e ∈ next := by
  generalize hq : path ++ [e] = q at h
  cases h with
  | start => simp at hq
  | onward before opens ways mem =>
    obtain ⟨rfl, he⟩ := append_inj' hq rfl
    obtain rfl := singleton_inj.mp he
    exact ⟨before, opens, _, ways, mem⟩

theorem Walkable.of_append (h : Walkable p g init collapsed (path ++ rest)) : Walkable p g init collapsed path := by
  induction rest using List.reverseRecOn with
  | nil => simpa using h
  | append_singleton rest e ih =>
    rw [← append_assoc] at h
    exact ih h.concat.1

theorem Walkable.of_prefix (h : Walkable p g init collapsed q) (hp : path <+: q) :
    Walkable p g init collapsed path := by
  obtain ⟨rest, rfl⟩ := hp
  exact h.of_append

theorem Walkable.beyond (h : Walkable p g init collapsed q) (hp : path <+: q) (hne : path ≠ q) :
    ¬ path.AtEnd ∧ ∃ next e, p.onward collapsed path (path.leaving g init) = .ok next ∧
      e ∈ next ∧ (path ++ [e]) <+: q := by
  obtain ⟨rest, rfl⟩ := hp
  cases rest with
  | nil => simp at hne
  | cons e rest =>
    have hprefix : (path ++ [e]) <+: path ++ e :: rest := ⟨rest, by simp⟩
    obtain ⟨-, hopen, next, hnext, he⟩ := (h.of_prefix hprefix).concat
    exact ⟨hopen, next, e, hnext, he, hprefix⟩

/-! ## What a walk finds -/

theorem forall_mem_waiting {P : ParserPath → Prop} {path : ParserPath} {next : List ParserEdge}
    (hnext : ∀ e ∈ next, P (path ++ [e])) (hrest : ∀ q ∈ rest, P q) :
    ∀ q ∈ (next.map fun e => path ++ [e]).reverse ++ rest, P q := by
  refine forall_mem_append.mpr ⟨fun q hq => ?_, hrest⟩
  obtain ⟨e, he, rfl⟩ := mem_map.mp (mem_reverse.mp hq)
  exact hnext e he

theorem Finds.append (h : Finds p g init collapsed pending found pending')
    (h' : Finds p g init collapsed pending' found' left) : Finds p g init collapsed pending (found ++ found') left := by
  induction h with
  | stop => exact h'
  | done atEnd rest ih => exact .done atEnd (ih h')
  | goes opens ways rest ih => exact .goes opens ways (ih h')

theorem Finds.sound (h : Finds p g init collapsed pending found left)
    (hpending : ∀ path ∈ pending, Walkable p g init collapsed path) :
    (∀ path ∈ found, Walkable p g init collapsed path ∧ path.AtEnd) ∧
      ∀ path ∈ left, Walkable p g init collapsed path := by
  induction h with
  | stop => exact ⟨by simp, hpending⟩
  | @done path pending found left atEnd rest ih =>
    obtain ⟨hpath, hrest⟩ := forall_mem_cons.mp hpending
    exact ⟨forall_mem_cons.mpr ⟨⟨hpath, atEnd⟩, (ih hrest).1⟩, (ih hrest).2⟩
  | @goes path pending found left next opens ways rest ih =>
    obtain ⟨hpath, hrest⟩ := forall_mem_cons.mp hpending
    exact ih (forall_mem_waiting (fun e he => .onward hpath opens ways he) hrest)

/-- A walkable path that begins as one of those that wait is found, still waits, or was gone on from. -/
theorem Finds.complete (h : Finds p g init collapsed pending found left)
    (hq : Walkable p g init collapsed q) (hp : ∃ path ∈ pending, path <+: q) :
    q ∈ found ∨ (∃ path ∈ left, path <+: q) ∨
      ¬ q.AtEnd ∧ ∃ next, p.onward collapsed q (q.leaving g init) = .ok next := by
  induction h with
  | stop => exact .inr (.inl hp)
  | @done path pending found left atEnd rest ih =>
    by_cases hpath : path <+: q
    · have heq : path = q := by
        by_contra hne
        exact (hq.beyond hpath hne).1 atEnd
      exact .inl (heq ▸ mem_cons_self)
    · obtain ⟨path', hmem, hprefix⟩ := hp
      rcases mem_cons.mp hmem with rfl | hmem
      · exact absurd hprefix hpath
      · exact (ih ⟨path', hmem, hprefix⟩).imp_left (mem_cons_of_mem _)
  | @goes path pending found left next opens ways rest ih =>
    obtain ⟨path', hmem, hprefix⟩ := hp
    rcases mem_cons.mp hmem with rfl | hmem
    · by_cases heq : path' = q
      · subst heq
        exact .inr (.inr ⟨opens, next, ways⟩)
      · obtain ⟨-, next', e, hnext, he, hstep⟩ := hq.beyond hprefix heq
        obtain rfl : next = next' := Except.ok.inj (ways.symm.trans hnext)
        exact ih ⟨path' ++ [e], by simp [he], hstep⟩
    · exact ih ⟨path', mem_append_right _ hmem, hprefix⟩

def Apart (a b : ParserPath) : Prop := ¬ a <+: b ∧ ¬ b <+: a

theorem Apart.symm (h : Apart a b) : Apart b a := ⟨h.2, h.1⟩

theorem Apart.concat (h : Apart a b) (e : ParserEdge) : Apart (a ++ [e]) b := by
  refine ⟨fun hprefix => h.1 ((prefix_append a [e]).trans hprefix), fun hprefix => ?_⟩
  rcases prefix_concat_iff.mp hprefix with rfl | hshort
  · exact h.1 (prefix_append a [e])
  · exact h.2 hshort

theorem apart_siblings (hne : e ≠ e') : Apart (path ++ [e]) (path ++ [e']) := by
  have hinj (a b : ParserEdge) (h : (path ++ [a]) <+: path ++ [b]) : a = b := by
    have heq := h.eq_of_length (by simp)
    simpa using heq
  exact ⟨fun h => hne (hinj e e' h), fun h => hne (hinj e' e h).symm⟩

theorem Finds.apart (h : Finds p g init collapsed pending found left)
    (hnext : ∀ path next, p.onward collapsed path (path.leaving g init) = .ok next → next.Nodup)
    (hpending : (seen ++ pending).Pairwise Apart) : (seen ++ found ++ left).Pairwise Apart := by
  induction h generalizing seen with
  | stop => simpa using hpending
  | @done path pending found left atEnd rest ih =>
    have hmoved : (seen ++ [path] ++ found ++ left).Pairwise Apart := ih (by simpa using hpending)
    simpa using hmoved
  | @goes path pending found left next opens ways rest ih =>
    refine ih ?_
    rw [pairwise_append, pairwise_cons] at hpending
    obtain ⟨hseen, ⟨hpath, hrest⟩, hcross⟩ := hpending
    rw [pairwise_append, pairwise_append, pairwise_reverse, pairwise_map]
    refine ⟨hseen, ⟨?_, hrest, ?_⟩, ?_⟩
    · exact (hnext path next ways).imp fun hne => apart_siblings hne.symm
    · intro a ha b hb
      obtain ⟨e, -, rfl⟩ := mem_map.mp (mem_reverse.mp ha)
      exact (hpath b hb).concat e
    · exact fun a ha => forall_mem_waiting (fun e _ => ((hcross a ha path mem_cons_self).symm.concat e).symm)
        fun b hb => hcross a ha b (mem_cons_of_mem _ hb)

/-! ## The number of visits -/

/-- The number of nodes of a tree of some height in which each node has some number of branches. -/
def treeSize (branches : Nat) : Nat → Nat
  | 0 => 1
  | height + 1 => 1 + branches * treeSize branches height

theorem treeSize_pos (branches height : Nat) : 0 < treeSize branches height := by
  cases height with
  | zero => exact Nat.one_pos
  | succ height => exact Nat.add_pos_left Nat.one_pos _

theorem treeSize_le (branches height : Nat) : treeSize branches height ≤ (branches + 2) ^ height := by
  induction height with
  | zero => simp [treeSize]
  | succ height ih =>
    have hpos : 1 ≤ (branches + 2) ^ height := Nat.one_le_pow _ _ (by omega)
    calc treeSize branches (height + 1) = 1 + branches * treeSize branches height := rfl
      _ ≤ (branches + 2) ^ height + branches * (branches + 2) ^ height :=
        Nat.add_le_add hpos (Nat.mul_le_mul_left branches ih)
      _ ≤ (branches + 2) ^ (height + 1) := by
        rw [Nat.pow_succ, Nat.mul_add, Nat.mul_comm branches]
        omega

/-- A bound on the number of visits that paths need which wait. -/
def visitsLeft (branches longest : Nat) (pending : List ParserPath) : Nat :=
  (pending.map fun path => treeSize branches (longest - path.length)).sum

theorem Within.visitsLeft_lt (h : Within p g init collapsed branches longest)
    (hpath : Walkable p g init collapsed path) (hopen : ¬ path.AtEnd)
    (hnext : p.onward collapsed path (path.leaving g init) = .ok next) (pending : List ParserPath) :
    visitsLeft branches longest ((next.map fun e => path ++ [e]).reverse ++ pending) <
      visitsLeft branches longest (path :: pending) := by
  have hsum : visitsLeft branches longest ((next.map fun e => path ++ [e]).reverse ++ pending) =
      next.length * treeSize branches (longest - (path.length + 1)) + visitsLeft branches longest pending := by
    simp [visitsLeft, Function.comp_def]
  have hfirst : visitsLeft branches longest (path :: pending) =
      treeSize branches (longest - path.length) + visitsLeft branches longest pending := by
    simp [visitsLeft]
  rw [hsum, hfirst]
  refine Nat.add_lt_add_right ?_ _
  cases next with
  | nil => simpa using treeSize_pos branches _
  | cons e next =>
    have hlong := h.length _ (.onward hpath hopen hnext mem_cons_self)
    rw [length_append, length_singleton] at hlong
    rw [show longest - path.length = longest - (path.length + 1) + 1 by omega, treeSize]
    have hways := Nat.mul_le_mul_right (treeSize branches (longest - (path.length + 1))) (h.ways _ _ hnext)
    omega

theorem Within.visitsLeft_found (h : Within p g init collapsed branches longest)
    (hfinds : Finds p g init collapsed pending found left)
    (hpending : ∀ path ∈ pending, Walkable p g init collapsed path) :
    found.length + visitsLeft branches longest left ≤ visitsLeft branches longest pending := by
  induction hfinds with
  | stop => simp
  | @done path pending found left atEnd rest ih =>
    have hrest := ih fun path hpath => hpending path (mem_cons_of_mem _ hpath)
    have hpos := treeSize_pos branches (longest - path.length)
    simp only [visitsLeft, map_cons, sum_cons, length_cons] at hrest ⊢
    omega
  | @goes path pending found left next opens ways rest ih =>
    obtain ⟨hpath, hrest⟩ := forall_mem_cons.mp hpending
    have hless := h.visitsLeft_lt hpath opens ways pending
    exact le_trans (ih (forall_mem_waiting (fun e he => .onward hpath opens ways he) hrest)) hless.le

/-! ## Reading the walk -/

theorem Finds.ne_nil (h : Finds p g init collapsed pending found left) (hne : ∀ path ∈ pending, path ≠ []) :
    ∀ path ∈ left, path ≠ [] := by
  induction h with
  | stop => exact hne
  | done atEnd rest ih => exact ih fun path hpath => hne path (mem_cons_of_mem _ hpath)
  | goes opens ways rest ih =>
    exact ih (forall_mem_waiting (fun e _ => by simp) fun q hq => hne q (mem_cons_of_mem _ hq))

theorem undo_pathVisitor (n : Nat) : Walk.undo (p.pathVisitor collapsed) n = .ok () := by
  induction n with
  | zero => rfl
  | succ n ih => exact ih

theorem move_pathVisitor (init : String) (hne : path ≠ []) :
    Walk.move g sink (p.pathVisitor collapsed) ⟨path :: rest, depth, ended⟩ = if path.AtEnd
      then .ok (some path, ⟨rest, path.length, false⟩) else p.onward collapsed path (path.leaving g init)
      >>= fun next => .ok (none, ⟨(next.map fun e => path ++ [e]).reverse ++ rest, path.length, false⟩) := by
  obtain ⟨front, e, rfl⟩ := eq_nil_or_concat' path |>.resolve_left hne
  simp only [Walk.move, Walk.step, undo_pathVisitor, List.getLast?_concat, Option.map_some, Option.some.injEq,
    ParserPath.atEnd_concat, ParserPath.leaving, Option.getD_some]
  by_cases hend : e.dst = sink
  · simp [hend, pathVisitor, bind, Except.bind, pure, Except.pure]
  · simp only [hend, decide_false, if_false]
    cases hnext : p.onward collapsed (front ++ [e]) (g.outEdges e.dst) with
    | error f | ok next => simp [hnext, pathVisitor, bind, Except.bind, pure, Except.pure]

section

variable (p g init collapsed)

structure Advances (fuel : Nat) (pending : List ParserPath)
    (r : Except Fault (Option ParserPath × Walk String ParserStep)) : Prop where
  found : ∀ path w, r = .ok (some path, w) → w.ended = false ∧ Finds p g init collapsed pending [path] w.pending
  none : ∀ w, r = .ok (none, w) → Finds p g init collapsed pending [] w.pending ∧
    ∀ branches longest, Within p g init collapsed branches longest →
      (∀ path ∈ pending, Walkable p g init collapsed path) → visitsLeft branches longest pending < fuel →
        w.pending = []
  error : ∀ f, r = .error f → ∃ path rest, Finds p g init collapsed pending [] (path :: rest) ∧
    FailsAt p g init collapsed f path

/-- What comes of a whole walk. -/
structure Collects (fuel n : Nat) (pending : List ParserPath) (r : Except Fault (List ParserPath)) : Prop where
  ok : ∀ found, r = .ok found → ∃ left, Finds p g init collapsed pending found left ∧
    ∀ branches longest, Within p g init collapsed branches longest →
      (∀ path ∈ pending, Walkable p g init collapsed path) → visitsLeft branches longest pending < fuel →
        visitsLeft branches longest pending < n → left = []
  error : ∀ f, r = .error f → ∃ found path rest, Finds p g init collapsed pending found (path :: rest) ∧
    FailsAt p g init collapsed f path

end

theorem advance_finds (fuel : Nat) (hne : ∀ path ∈ pending, path ≠ []) :
    Advances p g init collapsed fuel pending
      (Walk.advance g sink (p.pathVisitor collapsed) fuel ⟨pending, depth, false⟩) := by
  induction fuel generalizing pending depth with
  | zero =>
    refine ⟨by rintro path w ⟨⟩, ?_, by rintro f ⟨⟩⟩
    rintro w ⟨⟩
    exact ⟨.stop, fun _ _ _ _ hlt => absurd hlt (Nat.not_lt_zero _)⟩
  | succ fuel ih =>
    cases pending with
    | nil =>
      have hfinish : Walk.advance g sink (p.pathVisitor collapsed) (fuel + 1) ⟨[], depth, false⟩ =
          .ok (none, ⟨[], 0, true⟩) := by
        simp [Walk.advance, Walk.move, Walk.finish, undo_pathVisitor, bind, Except.bind, pure, Except.pure]
      rw [hfinish]
      refine ⟨by rintro path w ⟨⟩, ?_, by rintro f ⟨⟩⟩
      rintro w ⟨⟩
      exact ⟨.stop, fun _ _ _ _ _ => rfl⟩
    | cons path rest =>
      obtain ⟨hpath, hrest⟩ := forall_mem_cons.mp hne
      rw [Walk.advance, move_pathVisitor init hpath]
      by_cases hend : path.AtEnd
      · rw [if_pos hend]
        refine ⟨?_, by rintro w ⟨⟩, by rintro f ⟨⟩⟩
        rintro q w ⟨⟩
        exact ⟨rfl, .done hend .stop⟩
      · rw [if_neg hend]
        cases hnext : p.onward collapsed path (path.leaving g init) with
        | error f =>
          refine ⟨by rintro path w ⟨⟩, by rintro w ⟨⟩, ?_⟩
          rintro f' ⟨⟩
          exact ⟨path, rest, .stop, hend, hnext⟩
        | ok next =>
          have hrec := @ih ((next.map fun e => path ++ [e]).reverse ++ rest) path.length
            (forall_mem_waiting (fun e _ => by simp) hrest)
          refine ⟨fun q w hq => ?_, fun w hw => ?_, fun f hf => ?_⟩
          · obtain ⟨hended, hfinds⟩ := hrec.found q w hq
            exact ⟨hended, .goes hend hnext hfinds⟩
          · obtain ⟨hfinds, hall⟩ := hrec.none w hw
            refine ⟨.goes hend hnext hfinds, fun branches longest hwithin hwalk hlt => ?_⟩
            obtain ⟨hfirst, hothers⟩ := forall_mem_cons.mp hwalk
            refine hall branches longest hwithin ?_ ?_
            · exact (Finds.goes hend hnext .stop : Finds p g init collapsed (path :: rest) [] _).sound hwalk |>.2
            · have hless := hwithin.visitsLeft_lt hfirst hend hnext rest
              omega
          · obtain ⟨q, others, hfinds, hfails⟩ := hrec.error f hf
            exact ⟨q, others, .goes hend hnext hfinds, hfails⟩

theorem collect_finds (fuel n : Nat) (hne : ∀ path ∈ pending, path ≠ []) :
    Collects p g init collapsed fuel n pending
      (Walk.collect g sink (p.pathVisitor collapsed) fuel n ⟨pending, depth, false⟩) := by
  induction n generalizing pending depth with
  | zero =>
    refine ⟨?_, by rintro f ⟨⟩⟩
    rintro found ⟨⟩
    exact ⟨pending, .stop, fun _ _ _ _ _ hlt => absurd hlt (Nat.not_lt_zero _)⟩
  | succ n ih =>
    have hadvance : Advances p g init collapsed fuel pending
        (Walk.advance g sink (p.pathVisitor collapsed) fuel ⟨pending, depth, false⟩) :=
      advance_finds fuel hne
    rw [Walk.collect]
    cases hr : Walk.advance g sink (p.pathVisitor collapsed) fuel ⟨pending, depth, false⟩ with
    | error f =>
      refine ⟨by rintro found ⟨⟩, ?_⟩
      rintro f' ⟨⟩
      obtain ⟨path, rest, hfinds, hfails⟩ := hadvance.error f hr
      exact ⟨[], path, rest, hfinds, hfails⟩
    | ok r =>
      obtain ⟨_ | path, w⟩ := r
      · refine ⟨?_, by rintro f ⟨⟩⟩
        rintro found ⟨⟩
        obtain ⟨hfinds, hall⟩ := hadvance.none w hr
        exact ⟨w.pending, hfinds, fun branches longest hwithin hwalk hlt _ =>
          hall branches longest hwithin hwalk hlt⟩
      · obtain ⟨hended, hfinds⟩ := hadvance.found path w hr
        obtain ⟨waiting, depth', ended⟩ := w
        dsimp only at hended hfinds
        subst hended
        have hrec := @ih waiting depth' (hfinds.ne_nil hne)
        constructor
        · intro found hfound
          obtain ⟨_, hnext, hfound⟩ := bind_eq_ok.mp hfound
          cases hnext
          obtain ⟨rest, hrest, hfound⟩ := bind_eq_ok.mp hfound
          cases hfound
          obtain ⟨left, hleft, hall⟩ := hrec.ok rest hrest
          refine ⟨left, hfinds.append hleft, fun branches longest hwithin hwalk hlt hlt' => ?_⟩
          have hless := hwithin.visitsLeft_found hfinds hwalk
          rw [length_singleton] at hless
          exact hall branches longest hwithin (hfinds.sound hwalk).2 (by omega) (by omega)
        · intro f hf
          cases hrest : Walk.collect g sink (p.pathVisitor collapsed) fuel n ⟨waiting, depth', false⟩ with
          | ok rest =>
            simp only [bind, Except.bind, hrest] at hf
            cases hf
          | error f' =>
            simp only [bind, Except.bind, hrest] at hf
            cases hf
            obtain ⟨found, q, others, hleft, hfails⟩ := hrec.error f hrest
            exact ⟨path :: found, q, others, hfinds.append hleft, hfails⟩

/-- The walk opens the empty path before anything waits. -/
theorem parserPaths_cases {parser : Parser} (hparser : p.parser = .ok parser)
    (hinit : (g.outEdges? parser.initState).isSome = true) :
    (∃ f, p.onward collapsed [] (ParserPath.leaving g parser.initState []) = .error f ∧
      p.parserPaths g collapsed = .error f) ∨
    ∃ first, p.onward collapsed [] (ParserPath.leaving g parser.initState []) = .ok first ∧
      Collects p g parser.initState collapsed (p.visitBound g) (p.visitBound g)
        ((first.map fun e => [] ++ [e]).reverse ++ []) (p.parserPaths g collapsed) := by
  obtain ⟨leaving, hout⟩ := Option.isSome_iff_exists.mp hinit
  have hleaving : ParserPath.leaving g parser.initState [] = leaving := by
    change (g.outEdges? parser.initState).getD [] = leaving
    rw [hout]
    rfl
  simp only [parserPaths, hparser, bind, Except.bind, hout, hleaving]
  cases hfirst : p.onward collapsed [] leaving with
  | error f => exact .inl ⟨f, rfl, by simp [Walk.start, pathVisitor, hfirst, bind, Except.bind]⟩
  | ok first =>
    have hstart : Walk.start (p.pathVisitor collapsed) leaving =
        .ok { pending := (first.map fun e => [e]).reverse } := by
      simp [Walk.start, pathVisitor, hfirst, bind, Except.bind, pure, Except.pure]
    rw [hstart]
    exact .inr ⟨first, rfl, append_nil _ ▸ collect_finds _ _ (by simp)⟩

theorem parserPaths_ok (h : p.parserPaths g collapsed = .ok paths) :
    ∃ parser left, p.parser = .ok parser ∧ Finds p g parser.initState collapsed [[]] paths left ∧
      ∀ branches longest, Within p g parser.initState collapsed branches longest →
        treeSize branches longest ≤ p.visitBound g → left = [] := by
  obtain ⟨parser, hparser, hwalk⟩ := bind_eq_ok.mp h
  have hinit : (g.outEdges? parser.initState).isSome = true := by
    cases hout : g.outEdges? parser.initState with
    | none =>
      rw [hout] at hwalk
      cases hwalk
    | some leaving => rfl
  obtain ⟨f, -, hf⟩ | ⟨first, hways, hcollects⟩ := parserPaths_cases hparser hinit
  · rw [h] at hf
    cases hf
  · obtain ⟨left, hfinds, hall⟩ := hcollects.ok paths h
    have hopen : ¬ ParserPath.AtEnd [] := by simp [ParserPath.AtEnd]
    refine ⟨parser, left, hparser, .goes hopen hways hfinds, fun branches longest hwithin hbound => ?_⟩
    have hless := hwithin.visitsLeft_lt .start hopen hways []
    have hroot : visitsLeft branches longest [[]] = treeSize branches longest := by simp [visitsLeft]
    have hlt := (hroot ▸ hless).trans_le hbound
    exact hall branches longest hwithin
      (forall_mem_waiting (fun e he => .onward .start hopen hways he) (by simp)) hlt hlt

theorem parserPaths_error {parser : Parser} (hparser : p.parser = .ok parser)
    (hinit : (g.outEdges? parser.initState).isSome = true) (h : p.parserPaths g collapsed = .error f) :
    ∃ path, Walkable p g parser.initState collapsed path ∧ FailsAt p g parser.initState collapsed f path := by
  have hopen : ¬ ParserPath.AtEnd [] := by simp [ParserPath.AtEnd]
  obtain ⟨f', hfails, hf⟩ | ⟨first, hways, hcollects⟩ := parserPaths_cases hparser hinit
  · cases h.symm.trans hf
    exact ⟨[], .start, hopen, hfails⟩
  · obtain ⟨found, path, rest, hfinds, hfails⟩ := hcollects.error f h
    have hwalk := hfinds.sound (forall_mem_waiting (fun e he => .onward .start hopen hways he) (by simp))
    exact ⟨path, hwalk.2 path mem_cons_self, hfails⟩

end Program

end PacketSmith
