import Mathlib.Algebra.Order.Ring.Nat
import Mathlib.Data.Finset.Card
import Mathlib.Data.Finset.Prod
import Mathlib.Data.List.Perm.Subperm
import PacketSmith.Proofs.Graph.Searching
import PacketSmith.Proofs.Parser.Groups
import PacketSmith.Proofs.Parser.Walks

/-!
# The length of parser paths

If the walk over a parser graph ends at all, it ends within the bound that the walk is given. The counts of
extractions along a walkable path add up to at most the capacity of all stacks. If a path comes back to a node with
the counts it had there, the loop between can be repeated for ever (`Walkable.pump`), so a path that is too long can
be made as long as one likes (`Bounded.length_le`).
-/

namespace PacketSmith

open List

namespace Program

variable {p : Program} {g : Graph String ParserStep} {parser : Parser} {init : String} {collapsed : Bool}
  {path a b c q : ParserPath} {e : ParserEdge} {next : List ParserEdge} {counts counts' : Dict Label Nat}

/-- No path is walkable that is longer than some number. -/
def Bounded (p : Program) (g : Graph String ParserStep) (init : String) (collapsed : Bool) : Prop :=
  ∃ n, ∀ path, Walkable p g init collapsed path → path.length ≤ n

/-! ## Counts -/

def total (counts : Dict Label Nat) : Nat := counts.values.sum

theorem total_alter (counts : Dict Label Nat) (name : Label) :
    total (counts.alter name 0 (· + 1)) = total counts + 1 := by
  have hput (es : List (Label × Nat)) :
      ((Dict.put name ((Dict.lookup name es).getD 0 + 1) es).map Prod.snd).sum = (es.map Prod.snd).sum + 1 := by
    induction es with
    | nil => rfl
    | cons x es ih =>
      obtain ⟨k, n⟩ := x
      by_cases hk : k = name
      · simp only [Dict.put, Dict.lookup, hk, if_true, Option.getD_some, map_cons, sum_cons]
        omega
      · simp only [Dict.put, Dict.lookup, hk, if_false, map_cons, sum_cons, ih]
        omega
  exact hput counts.entries

theorem countExtracts_ok (h : p.countExtracts counts node = .ok counts') :
    (counts' = counts ∨ total counts < total counts') ∧ (counts.keys.Nodup → counts'.keys.Nodup) ∧
    (counts' = counts → node ≠ Transition.sink → ∃ s, p.parseState node = .ok s ∧ s.stackExtracts = []) := by
  have hfold (names : List Json) (counts counts' : Dict Label Nat) (h : names.foldlM (fun counts (name : Json) => do
        return counts.alter (← name.key) 0 (· + 1)) counts = (.ok counts' : Except Fault _)) :
      (counts' = counts ∧ names = [] ∨ total counts < total counts') ∧ (counts.keys.Nodup → counts'.keys.Nodup) := by
    induction names generalizing counts with
    | nil =>
      cases h
      exact ⟨.inl ⟨rfl, rfl⟩, id⟩
    | cons name names ih =>
      obtain ⟨one, hone, h⟩ := bind_eq_ok.mp h
      obtain ⟨key, -, hone⟩ := bind_eq_ok.mp hone
      cases hone
      obtain ⟨hmore, hnodup⟩ := ih _ h
      have hstep := total_alter counts key
      refine ⟨.inr ?_, fun hkeys => hnodup (Dict.nodup_keys_insert hkeys _ _)⟩
      rcases hmore with ⟨rfl, -⟩ | hmore <;> omega
  unfold countExtracts at h
  split at h
  · next hsink =>
    cases h
    exact ⟨.inl rfl, id, fun _ hne => absurd hsink hne⟩
  · obtain ⟨s, hs, h⟩ := bind_eq_ok.mp h
    obtain ⟨hmore, hnodup⟩ := hfold _ _ _ h
    refine ⟨hmore.imp_left And.left, hnodup, fun heq _ => ⟨s, hs, ?_⟩⟩
    rcases hmore with ⟨-, hnone⟩ | hmore
    · exact hnone
    · exact absurd (congrArg total heq) hmore.ne'

theorem stackCounts_concat (hne : path ≠ []) (e : ParserEdge) :
    p.stackCounts (path ++ [e]) = p.stackCounts path >>= fun counts => p.countExtracts counts e.dst := by
  cases path with
  | nil => exact absurd rfl hne
  | cons first rest =>
    have hsnoc (counts : Dict Label Nat) :
        (first :: rest ++ [e]).foldlM (fun counts (e : ParserEdge) => p.countExtracts counts e.dst) counts =
          (first :: rest).foldlM (fun counts (e : ParserEdge) => p.countExtracts counts e.dst) counts >>=
            fun counts => p.countExtracts counts e.dst := by
      rw [foldlM_append]
      simp only [foldlM_cons, foldlM_nil, bind_pure]
    have hall (path : ParserPath) : p.stackCounts (first :: path) = p.countExtracts {} first.src >>= fun counts =>
        (first :: path).foldlM (fun counts (e : ParserEdge) => p.countExtracts counts e.dst) counts := rfl
    rw [cons_append, hall, hall, bind_assoc]
    exact congrArg _ (funext hsnoc)

theorem stackCounts_append (hne : path ≠ []) (h : p.stackCounts path = .ok counts)
    (h' : p.stackCounts (path ++ rest) = .ok counts') : counts' = counts ∨ total counts < total counts' := by
  induction rest using List.reverseRecOn generalizing counts' with
  | nil =>
    rw [append_nil, h] at h'
    exact .inl (Except.ok.inj h').symm
  | append_singleton rest e ih =>
    rw [← append_assoc, stackCounts_concat (by simp [hne])] at h'
    obtain ⟨between, hbetween, hlast⟩ := bind_eq_ok.mp h'
    rcases ih hbetween with rfl | hmore
    · exact (countExtracts_ok hlast).1
    · rcases (countExtracts_ok hlast).1 with rfl | hmore'
      · exact .inr hmore
      · exact .inr (hmore.trans hmore')

theorem nodup_stackCounts (h : p.stackCounts path = .ok counts) : counts.keys.Nodup := by
  induction path using List.reverseRecOn generalizing counts with
  | nil =>
    cases h
    exact nodup_nil
  | append_singleton path e ih =>
    by_cases hne : path = []
    · subst hne
      obtain ⟨first, hfirst, h⟩ := bind_eq_ok.mp h
      simp only [nil_append, foldlM_cons, foldlM_nil, bind_pure] at h
      exact (countExtracts_ok h).2.1 ((countExtracts_ok hfirst).2.1 nodup_nil)
    · rw [stackCounts_concat hne] at h
      obtain ⟨before, hbefore, h⟩ := bind_eq_ok.mp h
      exact (countExtracts_ok h).2.1 (ih hbefore)

theorem overfull_false (h : p.overfull es = .ok false) :
    ∀ x ∈ es, ∃ s, p.headerStacks.get? x.1 = some s ∧ x.2 ≤ s.size.toNat := by
  induction es with
  | nil => simp
  | cons x es ih =>
    obtain ⟨s, hs, h⟩ := bind_eq_ok.mp h
    split at h
    · cases h
    · refine forall_mem_cons.mpr ⟨⟨s, ?_, by omega⟩, ih h⟩
      unfold stack at hs
      split at hs
      · cases hs
        assumption
      · cases hs

/-- The number of extractions that all stacks have room for. -/
def capacity (p : Program) : Nat := (p.headerStacks.values.map fun s => s.size.toNat).sum

theorem total_le_capacity (hnodup : counts.keys.Nodup) (h : p.overfull counts.entries = .ok false) :
    total counts ≤ p.capacity := by
  choose stackOf hstack hroom using overfull_false h
  -- the stacks that are counted are different ones of the program
  have hsub : List.Subperm (counts.entries.attach.map fun x => (x.1.1, stackOf x.1 x.2)) p.headerStacks.entries := by
    refine subperm_of_subset ?_ fun y hy => ?_
    · refine List.Nodup.of_map Prod.fst ?_
      have hkeys : (counts.entries.attach.map fun x => (x.1.1, stackOf x.1 x.2)).map Prod.fst = counts.keys := by
        rw [map_map]
        exact attach_map_val (l := counts.entries) (f := Prod.fst)
      rwa [hkeys]
    · obtain ⟨x, -, rfl⟩ := mem_map.mp hy
      exact Dict.mem_entries_of_get? (hstack x.1 x.2)
  obtain ⟨between, hperm, hsublist⟩ := hsub
  calc total counts = (counts.entries.attach.map fun x => x.1.2).sum := by
        rw [total, Dict.values]
        exact congrArg List.sum (attach_map_val (l := counts.entries) (f := Prod.snd)).symm
    _ ≤ (counts.entries.attach.map fun x => (stackOf x.1 x.2).size.toNat).sum :=
        sum_le_sum fun x _ => hroom x.1 x.2
    _ = (between.map fun y => y.2.size.toNat).sum := by
        rw [(hperm.map _).sum_eq, map_map]
        rfl
    _ ≤ (p.headerStacks.entries.map fun y => y.2.size.toNat).sum :=
        (hsublist.map _).sum_le_sum fun _ _ => Nat.zero_le _
    _ = p.capacity := by
        rw [capacity, Dict.values, map_map]
        rfl

/-! ## Ways to go on -/

theorem onward_ok (h : p.onward collapsed path edges = .ok next) :
    ∃ counts full, p.stackCounts path = .ok counts ∧ p.overfull counts.entries = .ok full ∧
      next = if full then edges.filter fun e => e.label.isError
      else if collapsed then collapse edges else edges := by
  obtain ⟨counts, hcounts, h⟩ := bind_eq_ok.mp h
  obtain ⟨full, hfull, h⟩ := bind_eq_ok.mp h
  refine ⟨counts, full, hcounts, hfull, ?_⟩
  split at h
  · rename_i hyes
    cases h
    simp [hyes]
  · rename_i hno
    split at h
    · rename_i hcollapsed
      cases h
      simp [hno, hcollapsed]
    · rename_i hcollapsed
      cases h
      simp [hno, hcollapsed]

theorem length_onward_le (hways : p.onward collapsed path (path.leaving g init) = .ok next) :
    next.length ≤ g.numEdges := by
  obtain ⟨counts, full, -, -, rfl⟩ := onward_ok hways
  have hleaving := g.length_outEdges_le ((path.getLast?.map Edge.dst).getD init)
  split
  · exact (length_filter_le _ _).trans hleaving
  · split
    · exact (length_collapse_le _).trans hleaving
    · exact hleaving

theorem Walkable.counts_of_two (hparser : p.parser = .ok parser) (hg : p.parserGraph = .ok g)
    (h : Walkable p g init false (path ++ [e] ++ [e'])) :
    ∃ counts, p.stackCounts path = .ok counts ∧ p.overfull counts.entries = .ok false := by
  obtain ⟨hbefore, hopen, -⟩ := h.concat
  obtain ⟨-, -, next, hnext, he⟩ := hbefore.concat
  obtain ⟨counts, full, hcounts, hfull, rfl⟩ := onward_ok hnext
  rw [ParserPath.atEnd_concat] at hopen
  cases full with
  | false => exact ⟨counts, hcounts, hfull⟩
  | true =>
    obtain ⟨hmem, herror⟩ := mem_filter.mp he
    obtain ⟨-, -, s, -, -, hs⟩ := mem_outEdges_parserGraph hparser hg hmem
    rcases mem_append.mp hs with hs | hs
    · obtain ⟨t, -, rfl⟩ := mem_map.mp hs
      cases herror
    · obtain ⟨err, -, rfl⟩ := mem_map.mp hs
      exact absurd rfl hopen

theorem Walkable.mem_leaving (h : Walkable p g init false (path ++ [e])) : e ∈ path.leaving g init := by
  obtain ⟨-, -, next, hnext, he⟩ := h.concat
  obtain ⟨counts, full, -, -, rfl⟩ := onward_ok hnext
  cases full with
  | false => exact he
  | true => exact (mem_filter.mp he).1

/-! ## Loops -/

/-- Paths that go on in the same way: they end at one node, with the same counts. -/
structure Alike (p : Program) (a b : ParserPath) : Prop where
  left : a ≠ []
  right : b ≠ []
  last : a.getLast?.map Edge.dst = b.getLast?.map Edge.dst
  counts : p.stackCounts a = p.stackCounts b

theorem Alike.concat (h : Alike p a b) (e : ParserEdge) : Alike p (a ++ [e]) (b ++ [e]) := by
  refine ⟨by simp, by simp, by simp, ?_⟩
  rw [stackCounts_concat h.left, stackCounts_concat h.right, h.counts]

theorem Alike.onward (h : Alike p a b) (edges : List ParserEdge) :
    p.onward collapsed a edges = p.onward collapsed b edges := by
  simp only [Program.onward, h.counts]

theorem Walkable.append_of_alike (halike : Alike p a b) (ha : Walkable p g init collapsed (a ++ c))
    (hb : Walkable p g init collapsed b) : Walkable p g init collapsed (b ++ c) ∧ Alike p (a ++ c) (b ++ c) := by
  induction c using List.reverseRecOn with
  | nil => simpa using ⟨hb, halike⟩
  | append_singleton c e ih =>
    rw [← append_assoc] at ha
    obtain ⟨hbefore, hopen, next, hnext, he⟩ := ha.concat
    obtain ⟨hwalk, hsame⟩ := ih hbefore
    rw [← append_assoc, ← append_assoc]
    have hways : p.onward collapsed (b ++ c) ((b ++ c).leaving g init) = .ok next := by
      rw [← hsame.onward, ParserPath.leaving, ← hsame.last]
      exact hnext
    refine ⟨.onward hwalk ?_ hways he, hsame.concat e⟩
    rwa [ParserPath.AtEnd, ← hsame.last]

theorem Walkable.pump (h : Walkable p g init collapsed (a ++ c)) (hc : c ≠ []) (halike : Alike p a (a ++ c)) (n : Nat) :
    ∃ b, Walkable p g init collapsed b ∧ Alike p a b ∧ n ≤ b.length := by
  induction n with
  | zero => exact ⟨a ++ c, h, halike, Nat.zero_le _⟩
  | succ n ih =>
    obtain ⟨b, hb, hab, hlength⟩ := ih
    obtain ⟨hwalk, hsame⟩ := h.append_of_alike hab hb
    refine ⟨b ++ c, hwalk, ⟨halike.left, hsame.right, halike.last.trans hsame.last, halike.counts.trans hsame.counts⟩, ?_⟩
    have hpos := length_pos_iff.mpr hc
    rw [length_append]
    omega

/-! ## The longest path -/

/-- The number that tells apart the places a path can come to: the node and the number of extractions. -/
def place (p : Program) (path : ParserPath) : Option String × Nat :=
  (path.getLast?.map Edge.dst, total ((p.stackCounts path).toOption.getD {}))

theorem Walkable.exists_loop (hparser : p.parser = .ok parser) (hg : p.parserGraph = .ok g)
    (h : Walkable p g init false path) (hlong : g.nodes.length * (p.capacity + 1) + 2 < path.length) : ∃ a c rest,
    path = a ++ c ++ rest ∧ c ≠ [] ∧ rest ≠ [] ∧ Alike p a (a ++ c) ∧ ∃ counts, p.stackCounts a = .ok counts := by
  classical
  -- the place after each edge but the last two
  have hcounts (i : Nat) (hi : i + 2 < path.length) :
      ∃ counts, p.stackCounts (path.take (i + 1)) = .ok counts ∧ total counts ≤ p.capacity := by
    have hthree : path.take (i + 3) = path.take (i + 1) ++ [path[i + 1]] ++ [path[i + 2]] := by
      rw [take_concat_get', take_concat_get']
    have hwalk := h.of_prefix ( take_prefix (i + 3) path)
    rw [hthree] at hwalk
    obtain ⟨counts, hok, hfull⟩ := hwalk.counts_of_two hparser hg
    exact ⟨counts, hok, total_le_capacity (nodup_stackCounts hok) hfull⟩
  have hnode (i : Nat) (hi : i < path.length) :
      ∃ node ∈ g.nodes, (path.take (i + 1)).getLast?.map Edge.dst = some node := by
    have hone : path.take (i + 1) = path.take i ++ [path[i]] := (take_concat_get' path i hi).symm
    have hwalk := h.of_prefix ( take_prefix (i + 1) path)
    rw [hone] at hwalk
    exact ⟨_, (mem_outEdges_parserGraph hparser hg hwalk.mem_leaving).2.1, by rw [hone, List.getLast?_concat]; rfl⟩
  have hplaces : ∀ i ∈ Finset.range (path.length - 2), p.place (path.take (i + 1)) ∈
      (g.nodes.toFinset.image some) ×ˢ Finset.range (p.capacity + 1) := by
    intro i hi
    have hlt : i + 2 < path.length := by
      have := Finset.mem_range.mp hi
      omega
    obtain ⟨counts, hok, hle⟩ := hcounts i hlt
    obtain ⟨node, hmem, hlast⟩ := hnode i (by omega)
    refine Finset.mem_product.mpr ⟨?_, ?_⟩
    · rw [place, hlast]
      exact Finset.mem_image_of_mem some (mem_toFinset.mpr hmem)
    · simp only [place, hok, Except.toOption, Option.getD_some, Finset.mem_range]
      omega
  have hcard : ((g.nodes.toFinset.image some) ×ˢ Finset.range (p.capacity + 1)).card <
      (Finset.range (path.length - 2)).card := by
    have himage : (g.nodes.toFinset.image some).card ≤ g.nodes.length :=
      Finset.card_image_le.trans (toFinset_card_le _)
    rw [Finset.card_product, Finset.card_range, Finset.card_range]
    have := Nat.mul_le_mul_right (p.capacity + 1) himage
    omega
  obtain ⟨i, hi, j, hj, hne, hsame⟩ := Finset.exists_ne_map_eq_of_card_lt_of_maps_to hcard hplaces
  have hloop (i j : Nat) (hij : i < j) (hj : j + 2 < path.length)
      (hsame : p.place (path.take (i + 1)) = p.place (path.take (j + 1))) :
      ∃ a c rest, path = a ++ c ++ rest ∧ c ≠ [] ∧ rest ≠ [] ∧ Alike p a (a ++ c) ∧
        ∃ counts, p.stackCounts a = .ok counts := by
    have hsplit : path.take (i + 1) ++ (path.take (j + 1)).drop (i + 1) = path.take (j + 1) := by
      rw [show path.take (i + 1) = (path.take (j + 1)).take (i + 1) by rw [take_take, min_eq_left (by omega)]]
      exact take_append_drop _ _
    have hfirst : path.take (i + 1) ≠ [] := by
      rw [← length_pos_iff, length_take]
      omega
    obtain ⟨counts, hok, -⟩ := hcounts i (by omega)
    obtain ⟨counts', hok', -⟩ := hcounts j hj
    obtain ⟨hlast, htotal⟩ := Prod.mk.inj hsame
    simp only [hok, hok', Except.toOption, Option.getD_some] at htotal
    have heq : counts' = counts := by
      rcases stackCounts_append hfirst hok (hsplit ▸ hok') with heq | hmore
      · exact heq
      · omega
    refine ⟨path.take (i + 1), (path.take (j + 1)).drop (i + 1), path.drop (j + 1), ?_, ?_, ?_,
      ⟨hfirst, by simp [hfirst], ?_, ?_⟩, counts, hok⟩
    · rw [hsplit, take_append_drop]
    · rw [← length_pos_iff, length_drop, length_take]
      omega
    · rw [← length_pos_iff, length_drop]
      omega
    · rw [hsplit, hlast]
    · rw [hsplit, hok, hok', heq]
  have hi' := Finset.mem_range.mp hi
  have hj' := Finset.mem_range.mp hj
  rcases Nat.lt_or_gt_of_ne hne with hlt | hgt
  · exact hloop i j hlt (by omega) hsame
  · exact hloop j i hgt (by omega) hsame.symm

theorem Bounded.length_le (hparser : p.parser = .ok parser) (hg : p.parserGraph = .ok g)
    (hbounded : Bounded p g init false) (h : Walkable p g init false path) :
    path.length ≤ g.nodes.length * (p.capacity + 1) + 2 := by
  by_contra hlong
  obtain ⟨longest, hlongest⟩ := hbounded
  obtain ⟨a, c, rest, rfl, hc, -, halike, -⟩ := h.exists_loop hparser hg (Nat.lt_of_not_le hlong)
  obtain ⟨b, hb, -, hlength⟩ := h.of_append.pump hc halike (longest + 1)
  have := hlongest b hb
  omega

/-- Whether each way on from a path ends after a number of edges. -/
def endsWithin (p : Program) (g : Graph String ParserStep) (init : String) (collapsed : Bool) : Nat → ParserPath → Bool
  | 0, path => decide path.AtEnd
  | n + 1, path => decide path.AtEnd ||
      ((p.onward collapsed path (path.leaving g init)).toOption.getD []).all fun e =>
        endsWithin p g init collapsed n (path ++ [e])

theorem bounded_of_endsWithin (h : endsWithin p g init collapsed n [] = true) : Bounded p g init collapsed := by
  suffices hall : ∀ (n : Nat) (path q : ParserPath), endsWithin p g init collapsed n path = true →
      Walkable p g init collapsed q → path <+: q → q.length ≤ path.length + n from
    ⟨n, fun q hq => by simpa using hall n [] q h hq nil_prefix⟩
  intro n
  induction n with
  | zero =>
    intro path q hends hq hprefix
    by_cases hsame : path = q
    · exact hsame ▸ Nat.le_refl _
    · exact absurd (of_decide_eq_true hends) (hq.beyond hprefix hsame).1
  | succ n ih =>
    intro path q hends hq hprefix
    by_cases hsame : path = q
    · exact hsame ▸ Nat.le_add_right _ _
    · obtain ⟨hopen, next, e, hways, he, hlonger⟩ := hq.beyond hprefix hsame
      simp only [endsWithin, hopen, decide_false, Bool.false_or, hways, Except.toOption, Option.getD_some,
        all_eq_true] at hends
      have hlength := ih _ q (hends e he) hq hlonger
      simp only [length_append, length_singleton] at hlength
      omega

theorem treeSize_le_visitBound (p : Program) (g : Graph String ParserStep) :
    treeSize g.numEdges (g.nodes.length * (p.capacity + 1) + 2) ≤ p.visitBound g := by
  have hextractions : p.capacity + 1 ≤ p.headerStacks.values.foldl (fun n s => n + s.size.toNat + 1) 1 := by
    have hsum (ss : List Stack) (n : Nat) : (ss.map fun s => s.size.toNat).sum + n ≤
        ss.foldl (fun n s => n + s.size.toNat + 1) n := by
      induction ss generalizing n with
      | nil => simp
      | cons s ss ih =>
        have hrest := ih (n + s.size.toNat + 1)
        simp only [map_cons, sum_cons, foldl_cons]
        omega
    exact hsum _ 1
  refine (treeSize_le _ _).trans (Nat.pow_le_pow_right (by omega) ?_)
  have hmul := Nat.mul_le_mul_left g.nodes.length hextractions
  have hexpand (n m : Nat) : (n + 1) * (m + 1) = n * m + n + m + 1 := by
    rw [Nat.add_mul, Nat.mul_add]
    omega
  rw [hexpand]
  omega

section

variable (hparser : p.parser = .ok parser)
  (hlength : ∀ path, Walkable p g parser.initState collapsed path →
    path.length ≤ g.nodes.length * (p.capacity + 1) + 2)
  (h : p.parserPaths g collapsed = .ok paths)

include hparser hlength h

/-- The bound on the visits is not reached: no path is left waiting. -/
theorem finds_parserPaths : Finds p g parser.initState collapsed [[]] paths [] := by
  obtain ⟨parser', left, hparser', hfinds, hall⟩ := parserPaths_ok h
  obtain rfl : parser' = parser := Except.ok.inj (hparser'.symm.trans hparser)
  obtain rfl := hall g.numEdges _ ⟨fun path next hways => length_onward_le hways, hlength⟩
    (treeSize_le_visitBound p g)
  exact hfinds

theorem mem_parserPaths :
    (∀ q, q ∈ paths ↔ Walkable p g parser.initState collapsed q ∧ q.AtEnd) ∧
      ∀ q, Walkable p g parser.initState collapsed q → ¬ q.AtEnd →
        ∃ next, p.onward collapsed q (q.leaving g parser.initState) = .ok next := by
  have hfinds := finds_parserPaths hparser hlength h
  have hroot : ∀ path ∈ ([[]] : List ParserPath), Walkable p g parser.initState collapsed path := by
    simpa using Walkable.start
  have hcomplete (q : ParserPath) (hq : Walkable p g parser.initState collapsed q) :=
    hfinds.complete hq ⟨[], by simp, nil_prefix⟩
  refine ⟨fun q => ⟨(hfinds.sound hroot).1 q, fun hq => ?_⟩, fun q hq hopen => ?_⟩
  · rcases hcomplete q hq.1 with hfound | ⟨path, hpath, -⟩ | ⟨hopen, -⟩
    · exact hfound
    · cases hpath
    · exact absurd hq.2 hopen
  · rcases hcomplete q hq with hfound | ⟨path, hpath, -⟩ | ⟨-, hnext⟩
    · exact absurd ((hfinds.sound hroot).1 q hfound).2 hopen
    · cases hpath
    · exact hnext

end

end Program

end PacketSmith
