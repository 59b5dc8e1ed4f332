import Mathlib.Data.List.Sort
import PacketSmith.Console.Parameter

/-!
# Maps of ports

The map of some ports is read from its end: the character for a port is one if the port is among them (`Maps`). The
characters are put down from the lowest port to the highest, `next` being the port that the next one is for
(`portChars_of_lt`), and a port that comes twice is one that lies behind `next` (`portChars_of_repeated`).
-/

namespace PacketSmith.Console

open List

/-- One more than the largest port, and zero without ports. -/
def span (ns : List Nat) : Nat := ns.foldr (fun p n => max (p + 1) n) 0

/-- A text of zeros and ones, one for each port up to the largest, with ones for the ports. -/
structure Maps (ns : List Nat) (shown : String) : Prop where
  length : shown.length = span ns
  zeroOne : ∀ c ∈ shown.toList, c = '0' ∨ c = '1'
  ones : ∀ p, shown.toList.reverse[p]? = some '1' ↔ p ∈ ns

/-- The text of a number that is not negative. -/
def IsPort (s : String) : Prop := ∃ n : Nat, Text.int? s = some (n : Int)

def portOf (s : String) : Nat := ((Text.int? s).getD 0).toNat

variable {noun : String} {next : Nat} {ns ms : List Nat} {ports : List String}

/-! ## Characters -/

def mark (ns : List Nat) (p : Nat) : Char := if p ∈ ns then '1' else '0'

def chart (ns : List Nat) : String := String.ofList ((List.range' 0 (span ns)).map (mark ns)).reverse

theorem lt_span (h : p ∈ ns) : p < span ns := by
  induction ns with
  | nil => cases h
  | cons q ns ih =>
    have hspan : span (q :: ns) = max (q + 1) (span ns) := rfl
    rcases mem_cons.mp h with rfl | h
    · omega
    · have := ih h
      omega

theorem maps_chart (ns : List Nat) : Maps ns (chart ns) where
  length := by simp [chart]
  zeroOne c hc := by
    obtain ⟨p, -, rfl⟩ := mem_map.mp (mem_reverse.mp (String.toList_ofList ▸ hc))
    unfold mark
    split <;> simp
  ones p := by
    rw [chart, String.toList_ofList, reverse_reverse, List.getElem?_map]
    by_cases hp : p < span ns
    · simp [List.getElem?_range' hp, mark]
    · simp [hp, mt lt_span hp]

theorem chart_perm (h : ns.Perm ms) : chart ns = chart ms := by
  have hspan : span ns = span ms := h.foldr_eq' (fun p _ q _ n => by omega) 0
  have hmark : mark ns = mark ms := funext fun p => by simp [mark, h.mem_iff]
  rw [chart, hspan, hmark, chart]

theorem portChars_of_lt (hlt : ns.Pairwise (· < ·)) (hnext : ∀ p ∈ ns, next ≤ p) :
    portChars noun next ns = .ok ((List.range' next (span ns - next)).map (mark ns)) := by
  induction ns generalizing next with
  | nil => simp [portChars, span]
  | cons p rest ih =>
    obtain ⟨hfirst, hrest⟩ := pairwise_cons.mp hlt
    have hp := hnext p mem_cons_self
    have hspan : span (p :: rest) - next = p - next + (span rest - (p + 1) + 1) := by
      have : span (p :: rest) = max (p + 1) (span rest) := rfl
      omega
    have hzeros : (List.range' next (p - next)).map (mark (p :: rest)) = List.replicate (p - next) '0' := by
      refine eq_replicate_iff.mpr ⟨by simp, fun c hc => ?_⟩
      obtain ⟨q, hq, rfl⟩ := mem_map.mp hc
      have hlow := (mem_range'_1.mp hq).2
      exact if_neg fun hmem => by grind
    have hlater : (List.range' (p + 1) (span rest - (p + 1))).map (mark (p :: rest)) =
        (List.range' (p + 1) (span rest - (p + 1))).map (mark rest) := by
      refine map_congr_left fun q hq => ?_
      have hne : q ≠ p := Nat.ne_of_gt (mem_range'_1.mp hq).1
      simp [mark, hne]
    rw [hspan, List.range'_append_1.symm, map_append, hzeros, Nat.add_sub_cancel' hp, List.range'_succ,
      map_cons, hlater, portChars, if_neg (by omega), ih hrest hfirst]
    simp [mark, bind, Except.bind, pure, Except.pure]

theorem portChars_of_repeated (noun : String) (hle : ns.Pairwise (· ≤ ·)) (hnext : ∀ p ∈ ns, next ≤ p + 1)
    (h : ¬ns.Nodup ∨ ∃ p ∈ ns, p + 1 = next) : ∃ text, portChars noun next ns = .error (.input text) := by
  induction ns generalizing next with
  | nil => simp at h
  | cons p rest ih =>
    obtain ⟨hfirst, hrest⟩ := pairwise_cons.mp hle
    by_cases hp : p + 1 = next
    · exact ⟨_, by rw [portChars, if_pos hp]; rfl⟩
    · -- the port that comes twice is `p` itself, or comes later
      have hlater : ¬rest.Nodup ∨ ∃ q ∈ rest, q + 1 = p + 1 := by
        rcases h with h | ⟨q, hq, hback⟩
        · rw [nodup_cons, not_and_or, not_not] at h
          exact h.symm.imp_right fun hmem => ⟨p, hmem, rfl⟩
        · have := hnext p mem_cons_self
          rcases mem_cons.mp hq with rfl | hq
          · exact absurd hback hp
          · have := hfirst q hq
            omega
      obtain ⟨text, htext⟩ := ih hrest (fun q hq => Nat.succ_le_succ (hfirst q hq)) hlater
      exact ⟨text, by rw [portChars, if_neg hp, htext]; rfl⟩

/-! ## Texts -/

/-- The texts are those of different ports. -/
def Distinct (ports : List String) : Prop := (∀ s ∈ ports, IsPort s) ∧ (ports.map portOf).Nodup

theorem portNumber_cases (noun s : String) :
    IsPort s ∧ portNumber noun s = .ok (portOf s) ∨ ¬IsPort s ∧ ∃ text, portNumber noun s = .error (.input text) := by
  unfold portNumber IsPort portOf
  rcases Text.int? s with _ | (n | n)
  · exact .inr ⟨by simp, _, rfl⟩
  · exact .inl ⟨⟨n, rfl⟩, rfl⟩
  · exact .inr ⟨by simp, _, if_pos (Int.negSucc_lt_zero n)⟩

theorem mapM_portNumber_cases (noun : String) (ports : List String) :
    (∀ s ∈ ports, IsPort s) ∧ ports.mapM (portNumber noun) = .ok (ports.map portOf) ∨
    ¬(∀ s ∈ ports, IsPort s) ∧ ∃ text, ports.mapM (portNumber noun) = .error (.input text) := by
  induction ports with
  | nil => exact .inl ⟨by simp, rfl⟩
  | cons s ports ih =>
    rw [mapM_cons, forall_mem_cons]
    rcases portNumber_cases noun s with ⟨hs, hread⟩ | ⟨hs, text, hread⟩
    · rw [hread]
      rcases ih with ⟨hports, hrest⟩ | ⟨hports, text, hrest⟩
      · exact .inl ⟨⟨hs, hports⟩, by rw [hrest]; rfl⟩
      · exact .inr ⟨fun h => hports h.2, text, by rw [hrest]; rfl⟩
    · exact .inr ⟨fun h => hs h.1, text, by rw [hread]; rfl⟩

theorem portMap_cases (noun : String) (ports : List String) :
    Distinct ports ∧ portMap noun ports = .ok (chart (ports.map portOf)) ∨
    ¬Distinct ports ∧ ∃ text, portMap noun ports = .error (.input text) := by
  rcases mapM_portNumber_cases noun ports with ⟨hports, hread⟩ | ⟨hports, text, hread⟩
  · have hperm := mergeSort_perm (ports.map portOf) (· ≤ ·)
    have hsorted := pairwise_mergeSort' (· ≤ ·) (ports.map portOf)
    simp only [portMap, hread, bind, Except.bind]
    by_cases hnodup : (ports.map portOf).Nodup
    · have hlt := (hsorted.and (hperm.nodup_iff.mpr hnodup)).imp fun h => Nat.lt_of_le_of_ne h.1 h.2
      refine .inl ⟨⟨hports, hnodup⟩, ?_⟩
      rw [portChars_of_lt hlt fun p _ => Nat.zero_le p, ← chart_perm hperm]
      rfl
    · obtain ⟨text, hchars⟩ := portChars_of_repeated noun hsorted (fun p _ => Nat.zero_le _)
        (.inl fun h => hnodup (hperm.nodup_iff.mp h))
      exact .inr ⟨fun h => hnodup h.2, text, by rw [hchars]⟩
  · exact .inr ⟨fun h => hports h.1, text, by rw [portMap, hread]; rfl⟩

/-- Texts of different ports have the map of these ports, other texts are refused, and the order of the texts makes
no difference to the map. -/
theorem portMap_denotes (noun : String) (ports : List String) :
    (Distinct ports → ∃ shown, portMap noun ports = .ok shown ∧ Maps (ports.map portOf) shown) ∧
    (¬Distinct ports → ∃ text, portMap noun ports = .error (.input text)) ∧
    ∀ ports', ports.Perm ports' → (portMap noun ports').toOption = (portMap noun ports).toOption := by
  refine ⟨fun h => ?_, fun h => ((portMap_cases noun ports).resolve_left fun h' => h h'.1).2, fun ports' hperm => ?_⟩
  · have hshown := ((portMap_cases noun ports).resolve_right fun h' => h'.1 h).2
    exact ⟨_, hshown, maps_chart _⟩
  · have hdistinct : Distinct ports ↔ Distinct ports' := by
      simp only [Distinct, hperm.mem_iff, (hperm.map portOf).nodup_iff]
    rcases portMap_cases noun ports with ⟨h, hshown⟩ | ⟨h, text, hshown⟩
    · rw [((portMap_cases noun ports').resolve_right fun h' => h'.1 (hdistinct.mp h)).2, hshown,
        chart_perm (hperm.map portOf)]
    · obtain ⟨text', hshown'⟩ := ((portMap_cases noun ports').resolve_left fun h' => h (hdistinct.mpr h'.1)).2
      rw [hshown, hshown']
      rfl

end PacketSmith.Console
