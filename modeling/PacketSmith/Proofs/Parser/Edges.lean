import Mathlib.Data.List.Nodup
import PacketSmith.Proofs.BranchPairs

/-!
# The edges of a parser graph

The edges that leave a node of a parser graph are those of the states that bear its name: the
transitions in their order and then the errors. If the states of a parser are listed under their
own names, as they are once a parser was read, there is one such state (`outEdges_of_state`).
-/

namespace PacketSmith

open List Dict Transition Program PacketSmith.Graph

namespace Graph

variable {V L : Type} [DecidableEq V] {g : Graph V L}

theorem outEdges_foldl_addEdge (es : List (Edge V L)) (g : Graph V L) (v : V) :
    (es.foldl addEdge g).outEdges v = g.outEdges v ++ es.filter fun e => e.src = v := by
  induction es generalizing g with
  | nil => simp
  | cons e es ih =>
    rw [foldl_cons, ih, outEdges_addEdge]
    by_cases h : e.src = v <;> simp [h]

theorem mem_nodes_addNode : u ∈ (g.addNode v).nodes ↔ u ∈ g.nodes ∨ u = v := by
  unfold addNode nodes
  split
  · rename_i hv
    obtain ⟨es, hes⟩ := Option.isSome_iff_exists.mp hv
    have hmem : v ∈ g.out.keys := mem_map.mpr ⟨_, mem_entries_of_get? hes, rfl⟩
    constructor
    · exact .inl
    · rintro (hu | rfl)
      · exact hu
      · exact hmem
  · rw [keys_insert]
    split
    · rename_i hmem
      constructor
      · exact .inl
      · rintro (hu | rfl)
        · exact hu
        · exact hmem
    · simp

theorem mem_nodes_addEdge : v ∈ (g.addEdge e).nodes ↔ v ∈ g.nodes ∨ v = e.src ∨ v = e.dst := by
  have hsrc : e.src ∈ ((g.addNode e.src).addNode e.dst).nodes :=
    mem_nodes_addNode.mpr (.inl (mem_nodes_addNode.mpr (.inr rfl)))
  have hkeys : (g.addEdge e).nodes = ((g.addNode e.src).addNode e.dst).nodes := by
    change (insert _ e.src _).keys = _
    rw [keys_insert]
    exact if_pos hsrc
  rw [hkeys, mem_nodes_addNode, mem_nodes_addNode, or_assoc]

theorem mem_nodes_foldl_addEdge {es : List (Edge V L)} :
    v ∈ (es.foldl addEdge g).nodes ↔ v ∈ g.nodes ∨ ∃ e ∈ es, v = e.src ∨ v = e.dst := by
  induction es generalizing g with
  | nil => simp
  | cons e es ih => simp [ih, mem_nodes_addEdge, or_assoc]

end Graph

def Transition.node (t : Transition) : String :=
  match t.target with
  | .text name => name
  | _ => Transition.sink

namespace ParseState

def edge (s : ParseState) (t : Transition) : ParserEdge := ⟨s.name, t.node, .transition t⟩

def errorEdge (s : ParseState) (e : ParseError) : ParserEdge := ⟨s.name, sink, .error e⟩

def edges (s : ParseState) : List ParserEdge := s.transitions.map s.edge ++ s.errors.map s.errorEdge

variable {s : ParseState}

theorem src_of_mem_edges (h : e ∈ s.edges) : e.src = s.name := by
  rcases mem_append.mp h with h | h
  · obtain ⟨t, -, rfl⟩ := mem_map.mp h
    rfl
  · obtain ⟨err, -, rfl⟩ := mem_map.mp h
    rfl

end ParseState

namespace Program

variable {p : Program} {parser : Parser} {states : Dict String ParseState} {next : Option String}

theorem node_of_follow (h : Parser.follow states t = .ok next)
    (hend : next = none → t.destination = .text Transition.sink) : t.node = next.getD Transition.sink := by
  cases next with
  | some name =>
    have htarget : t.target = .text name := by
      unfold Parser.follow at h
      split at h
      · split at h
        · split at h
          · cases h
            assumption
          · cases h
        · cases h
      · cases h
    simp [Transition.node, htarget]
  | none =>
    have hsink := hend rfl
    unfold Transition.destination at hsink
    split at hsink
    · rename_i hnull
      simp [Transition.node, eq_of_beq hnull]
    · simp [Transition.node, hsink]

theorem edgesOfState_ok (h : edgesOfState states s = .ok es) : es = s.edges := by
  obtain ⟨transitions, htransitions, h⟩ := bind_eq_ok.mp h
  cases h
  have hedges : transitions.map id = s.transitions.map s.edge := by
    refine map_of_mapM (fun t e he => ?_) htransitions
    obtain ⟨next, hnext, he⟩ := bind_eq_ok.mp he
    cases next with
    | some name =>
      cases he
      rw [ParseState.edge, node_of_follow hnext (by simp)]
      rfl
    | none =>
      obtain ⟨hend, he⟩ := require_bind_eq_ok.mp he
      cases he
      rw [ParseState.edge, node_of_follow hnext fun _ => eq_of_beq hend]
      rfl
  rw [map_id] at hedges
  rw [hedges]
  rfl

section

variable (hparser : p.parser = .ok parser) (h : p.parserGraph = .ok g)

include hparser h

theorem parserGraph_ok : g = (parser.states.values.flatMap ParseState.edges).foldl Graph.addEdge .empty := by
  obtain ⟨parser', hparser', h⟩ := bind_eq_ok.mp h
  obtain rfl : parser' = parser := Except.ok.inj (hparser'.symm.trans hparser)
  obtain ⟨edges, hedges, h⟩ := bind_eq_ok.mp h
  cases h
  have hmap : edges.map id = parser'.states.values.map ParseState.edges :=
    map_of_mapM (fun s es hes => edgesOfState_ok hes) hedges
  rw [map_id] at hmap
  rw [hmap, ← flatMap_def]

theorem outEdges_parserGraph (v : String) :
    g.outEdges v = (parser.states.values.flatMap ParseState.edges).filter fun e => e.src = v := by
  rw [parserGraph_ok hparser h, outEdges_foldl_addEdge]
  rfl

theorem mem_outEdges_parserGraph (he : e ∈ g.outEdges v) : e.src = v ∧ e.dst ∈ g.nodes ∧ ∃ s ∈ parser.states.values,
    s.name = v ∧ e ∈ s.edges := by
  rw [outEdges_parserGraph hparser h, mem_filter, mem_flatMap] at he
  obtain ⟨⟨s, hs, he⟩, hsrc⟩ := he
  have hsrc : e.src = v := by simpa using hsrc
  refine ⟨hsrc, ?_, s, hs, ?_, he⟩
  · rw [parserGraph_ok hparser h, mem_nodes_foldl_addEdge]
    exact .inr ⟨e, mem_flatMap.mpr ⟨s, hs, he⟩, .inr rfl⟩
  · rw [← hsrc, ParseState.src_of_mem_edges he]

end

end Program

/-! ## Parsers that were read -/

namespace ParseState

/-- A state that was read: it raises no error in two ways, has no transition twice, and lists the
stacks that its operations extract into. -/
structure WellFormed (s : ParseState) : Prop where
  transitions : s.transitions.Nodup
  errors : s.errors.Nodup
  extracts : ∃ parts, s.ops.mapM stackExtract = .ok parts ∧ s.stackExtracts = parts.flatten

theorem nodup_distinct (ts : List Transition) : (distinct ts).Nodup := by
  suffices h : ∀ (ts kept : List Transition), kept.Nodup → (ts.foldl (fun kept t =>
      if kept.any fun k => k.value == t.value && k.mask == t.mask then kept else kept ++ [t]) kept).Nodup from
    h ts [] nodup_nil
  intro ts
  induction ts with
  | nil => exact fun kept h => h
  | cons t ts ih =>
    intro kept h
    refine ih _ ?_
    dsimp only
    split
    · exact h
    · rename_i hnew
      refine nodup_append.mpr ⟨h, by simp, ?_⟩
      rintro k hk t' ht rfl
      obtain rfl := mem_singleton.mp ht
      exact hnew (any_eq_true.mpr ⟨k, hk, by simp⟩)

variable {lengthErrors : Bool}

theorem nodup_errorsOf {errors : List Label} (h : errorsOf table lengthErrors op = .ok errors) : errors.Nodup := by
  unfold errorsOf at h
  split at h
  · split at h
    · cases h
    · cases herror : table.named _ with
      | error f =>
        rw [herror] at h
        cases h
      | ok e =>
        rw [herror] at h
        cases h
        simp
    · cases herror : table.named _ with
      | error f =>
        rw [herror] at h
        cases h
      | ok e =>
        rw [herror] at h
        cases h
        simp
    · cases h
  · split at h
    · cases h
      split <;> split <;> decide
    · cases h
      exact nodup_nil

theorem readOps_ok {ops : List ParseOp} {extracted : List Json} {errors : List ParseError}
    (h : readOps table lengthErrors i vs = .ok (ops, extracted, errors)) :
    errors.Nodup ∧ (∀ e ∈ errors, ∃ j, i ≤ j ∧ e.opIndex = some j) ∧
      ∃ parts, ops.mapM stackExtract = .ok parts ∧ extracted = parts.flatten := by
  induction vs generalizing i ops extracted errors with
  | nil =>
    cases h
    exact ⟨nodup_nil, by simp, [], rfl, rfl⟩
  | cons v vs ih =>
    obtain ⟨op, -, h⟩ := bind_eq_ok.mp h
    obtain ⟨own, hown, h⟩ := bind_eq_ok.mp h
    obtain ⟨raised, hraised, h⟩ := bind_eq_ok.mp h
    obtain ⟨⟨ops', extracted', errors'⟩, hrest, h⟩ := bind_eq_ok.mp h
    cases h
    obtain ⟨hnodup, hlater, parts, hparts, rfl⟩ := ih hrest
    refine ⟨?_, ?_, own :: parts, ?_, rfl⟩
    · refine nodup_append.mpr ⟨?_, hnodup, ?_⟩
      · exact List.Nodup.map (fun a b hab => (ParseError.mk.inj hab).1) (nodup_errorsOf hraised)
      · rintro e he e' he' rfl
        obtain ⟨j, hj, hindex⟩ := hlater e he'
        obtain ⟨error, -, rfl⟩ := mem_map.mp he
        cases hindex
        omega
    · intro e he
      rcases mem_append.mp he with he | he
      · obtain ⟨error, -, rfl⟩ := mem_map.mp he
        exact ⟨i, Nat.le_refl i, rfl⟩
      · obtain ⟨j, hj, hindex⟩ := hlater e he
        exact ⟨j, by omega, hindex⟩
    · rw [mapM_cons, hown, hparts]
      rfl

theorem wellFormed_of_ofJson (h : ofJson table lengthErrors v = .ok s) : s.WellFormed := by
  obtain ⟨_ | name, -, h⟩ := bind_eq_ok.mp h
  · cases h
  obtain ⟨_ | id, -, h⟩ := bind_eq_ok.mp h
  · cases h
  simp only [bind_eq_ok] at h
  obtain ⟨_, -, _, -, _, -, ⟨ops, extracted, errors⟩, hops, _, -, _, -, _, -, _, -, _, -, _, -, h⟩ := h
  obtain ⟨hnodup, hlater, hparts⟩ := readOps_ok hops
  split at h
  · cases h
    refine ⟨nodup_distinct _, ?_, hparts⟩
    refine nodup_append.mpr ⟨hnodup, by simp, ?_⟩
    rintro e he e' he' rfl
    obtain ⟨j, -, hindex⟩ := hlater e he
    obtain rfl := mem_singleton.mp he'
    cases hindex
  · cases h
    exact ⟨nodup_distinct _, hnodup, hparts⟩

end ParseState

/-- A parser that was read: its states are well-formed and listed under their own names. -/
structure Parser.WellFormed (parser : Parser) : Prop where
  nodup : parser.states.keys.Nodup
  name : ∀ x ∈ parser.states.entries, x.2.name = x.1
  states : ∀ s ∈ parser.states.values, s.WellFormed

variable {κ ν : Type}

theorem Dict.mem_put_eq [DecidableEq κ] {es : List (κ × ν)} (h : x ∈ put k v es) : x = (k, v) ∨ x ∈ es := by
  induction es with
  | nil => exact .inl (mem_singleton.mp h)
  | cons e es ih =>
    rw [put] at h
    split at h
    · next hk =>
      rcases mem_cons.mp h with rfl | h
      · exact .inl (by rw [hk])
      · exact .inr (mem_cons_of_mem _ h)
    · rcases mem_cons.mp h with rfl | h
      · exact .inr mem_cons_self
      · exact (ih h).imp id (mem_cons_of_mem _)

theorem Dict.ofList_spec [DecidableEq κ] (pairs : List (κ × ν)) :
    (ofList pairs).keys.Nodup ∧ ∀ x ∈ (ofList pairs).entries, x ∈ pairs := by
  suffices h : ∀ (pairs : List (κ × ν)) (d : Dict κ ν), d.keys.Nodup →
      (pairs.foldl (fun d e => d.insert e.1 e.2) d).keys.Nodup ∧
        ∀ x ∈ (pairs.foldl (fun d e => d.insert e.1 e.2) d).entries, x ∈ d.entries ∨ x ∈ pairs by
    obtain ⟨hnodup, hmem⟩ := h pairs .empty nodup_nil
    exact ⟨hnodup, fun x hx => (hmem x hx).resolve_left (by simp [empty])⟩
  intro pairs
  induction pairs with
  | nil => exact fun d hd => ⟨hd, fun x hx => .inl hx⟩
  | cons e pairs ih =>
    intro d hd
    obtain ⟨hnodup, hmem⟩ := ih (d.insert e.1 e.2) (nodup_keys_insert hd e.1 e.2)
    refine ⟨hnodup, fun x hx => ?_⟩
    rcases hmem x hx with hx | hx
    · rcases mem_put_eq hx with rfl | hx
      · exact .inr mem_cons_self
      · exact .inl hx
    · exact .inr (mem_cons_of_mem _ hx)

theorem Parser.wellFormed_of_ofJson {lengthErrors : Bool} {parser : Parser}
    (h : Parser.ofJson table lengthErrors v = .ok parser) : parser.WellFormed := by
  obtain ⟨_ | name, -, h⟩ := bind_eq_ok.mp h
  · cases h
  obtain ⟨_ | id, -, h⟩ := bind_eq_ok.mp h
  · cases h
  obtain ⟨id, -, h⟩ := bind_eq_ok.mp h
  obtain ⟨_ | initState, -, h⟩ := bind_eq_ok.mp h
  · cases h
  obtain ⟨items, -, h⟩ := bind_eq_ok.mp h
  obtain ⟨items, -, h⟩ := bind_eq_ok.mp h
  obtain ⟨states, hstates, h⟩ := bind_eq_ok.mp h
  obtain ⟨_, -, h⟩ := bind_eq_ok.mp h
  cases h
  obtain ⟨hnodup, hmem⟩ := ofList_spec (states.map fun s => (s.name, s))
  refine ⟨hnodup, fun x hx => ?_, fun s hs => ?_⟩
  · obtain ⟨s, -, rfl⟩ := mem_map.mp (hmem x hx)
    rfl
  · obtain ⟨x, hx, rfl⟩ := mem_map.mp hs
    obtain ⟨s, hmem, rfl⟩ := mem_map.mp (hmem x hx)
    obtain ⟨v, -, hread⟩ := mem_of_mapM hstates s hmem
    exact ParseState.wellFormed_of_ofJson hread

namespace Program

variable {p : Program} {parser : Parser}

theorem parser_wellFormed {lengthErrors : Bool} {source : Json} (h : Program.ofJson lengthErrors source = .ok p)
    (hparser : p.parser = .ok parser) : parser.WellFormed := by
  have hparsers : ∃ table parsers vs, List.mapM (Parser.ofJson table lengthErrors) vs = .ok parsers ∧
      p.parsers = Dict.ofList (parsers.map fun p => (p.name, p)) := by
    obtain ⟨source, -, h⟩ := bind_eq_ok.mp h
    obtain ⟨about, -, h⟩ := bind_eq_ok.mp h
    split at h
    all_goals
      simp only [bind_eq_ok] at h
      obtain ⟨_, -, _, -, _, -, _, -, _, -, _, -, _, -, _, -, _, -, _, -, _, -, table, -, _, -, vs, -, parsers, hparsers, h⟩ := h
      obtain ⟨_, -, _, -, _, -, _, -, _, -, _, -, _, -, _, -, _, -, h⟩ := h
      cases h
      exact ⟨table, parsers, vs, hparsers, rfl⟩
  obtain ⟨table, parsers, vs, hread, hlist⟩ := hparsers
  unfold Program.parser at hparser
  split at hparser
  · rename_i found hfound
    cases hparser
    rw [hlist] at hfound
    obtain ⟨parser', hmem, heq⟩ := mem_map.mp ((ofList_spec _).2 _ (mem_entries_of_get? hfound))
    obtain rfl := (Prod.mk.inj heq).2
    obtain ⟨v, -, hjson⟩ := mem_of_mapM hread parser' hmem
    exact Parser.wellFormed_of_ofJson hjson
  · cases hparser

theorem outEdges_of_state (hparser : p.parser = .ok parser) (hwell : parser.WellFormed)
    (h : p.parserGraph = .ok g) (hs : parser.states.get? v = some s) : g.outEdges v = s.edges := by
  rw [outEdges_parserGraph hparser h]
  have hkeep (s : ParseState) : (s.edges.filter fun e => e.src = v) = if s.name = v then s.edges else [] := by
    split
    · next hname =>
      refine filter_eq_self.mpr fun e he => ?_
      simpa [ParseState.src_of_mem_edges he] using hname
    · next hname =>
      refine filter_eq_nil_iff.mpr fun e he => ?_
      simpa [ParseState.src_of_mem_edges he] using hname
  -- only one entry has the name
  have hone (es : List (String × ParseState)) (hnodup : (es.map Prod.fst).Nodup) (hname : ∀ x ∈ es, x.2.name = x.1) :
      (((es.map Prod.snd).flatMap ParseState.edges).filter fun e => e.src = v) =
        ((Dict.lookup v es).map ParseState.edges).getD [] := by
    induction es with
    | nil => rfl
    | cons x es ih =>
      obtain ⟨k, t⟩ := x
      obtain ⟨hfirst, hrest⟩ := nodup_cons.mp hnodup
      have ht : t.name = k := hname (k, t) mem_cons_self
      rw [map_cons, flatMap_cons, filter_append, hkeep,
        ih hrest fun x hx => hname x (mem_cons_of_mem _ hx), Dict.lookup, ht]
      by_cases hk : k = v
      · subst hk
        have hnone : Dict.lookup k es = none := by
          cases hfind : Dict.lookup k es with
          | none => rfl
          | some s => exact absurd (mem_map.mpr ⟨_, mem_of_lookup hfind, rfl⟩) hfirst
        simp [hnone]
      · simp [hk]
  have hlookup := hone parser.states.entries hwell.nodup hwell.name
  rw [show Dict.lookup v parser.states.entries = some s from hs] at hlookup
  exact hlookup

end Program

namespace Small

def headerType (name : String) (fields : List (String × Int)) : Json :=
  .obj [("name", .str name), ("id", .int 0),
    ("fields", .arr (fields.map fun f => .arr [.str f.1, .int f.2, .bool false]))]

def header (name type : String) (metadata : Bool) : Json :=
  .obj [("name", .str name), ("id", .int 0), ("header_type", .str type), ("metadata", .bool metadata),
    ("pi_omit", .bool true)]

def tagged (type : String) (v : Json) : Json := .obj [("type", .str type), ("value", v)]

def field (header name : String) : Json := tagged "field" (.arr [.str header, .str name])

def operation (op : String) (parameters : List Json) : Json :=
  .obj [("op", .str op), ("parameters", .arr parameters)]

/-- The source of a transition. Without a value it is a default, without a state it leads to the end. -/
def transition (value next : Option String) : Json :=
  .obj [("value", .str (value.getD "default")), ("mask", .null), ("next_state", (next.map Json.str).getD .null)]

def state (name : String) (ops key transitions : List Json) : Json :=
  .obj [("name", .str name), ("id", .int 0), ("parser_ops", .arr ops), ("transition_key", .arr key),
    ("transitions", .arr transitions)]

def source (types headers stacked : List Json) (init : String) (states : List Json) (ingress : List (String × Json)) :
    Json :=
  .obj [("program", .str "small"), ("__meta__", .null),
    ("header_types", .arr (headerType "standard_metadata_t" [("ingress_port", 9), ("egress_spec", 9),
      ("packet_length", 32), ("instance_type", 32), ("mcast_grp", 16), ("parser_error", 32)] :: types)),
    ("headers", .arr (header "standard_metadata" "standard_metadata_t" true :: headers)),
    ("header_stacks", .arr stacked),
    ("errors", .arr [.arr [.str "NoError", .int 0], .arr [.str "PacketTooShort", .int 1],
      .arr [.str "HeaderTooShort", .int 2], .arr [.str "StackOutOfBounds", .int 3]]),
    ("parsers", .arr [.obj [("name", .str "parser"), ("id", .int 0), ("init_state", .str init),
      ("parse_states", .arr states)]]),
    ("actions", .arr []),
    ("pipelines", .arr [.obj (("name", .str "ingress") :: ("id", .int 0) :: ingress)]),
    ("extern_instances", .arr [])]

def passing : List (String × Json) := [("init_table", .null), ("tables", .arr []), ("conditionals", .arr [])]

theorem ok_of_any {x : Except Fault α} (h : x.toOption.any q = true) : ∃ a, x = .ok a ∧ q a = true := by
  cases x with
  | error f => cases h
  | ok a => exact ⟨a, rfl, h⟩

/-- A source is loaded, it has a parser with a graph, and they are as they should be. -/
def parses (lengthErrors : Bool) (source : Json) (q : Program → Parser → Graph String ParserStep → Bool) : Bool :=
  (ofJson lengthErrors source).toOption.any fun p => p.parser.toOption.any fun parser =>
    p.parserGraph.toOption.any (q p parser)

theorem of_parses {source : Json} (h : parses lengthErrors source q = true) : ∃ p parser g,
    ofJson lengthErrors source = .ok p ∧ p.parser = .ok parser ∧ p.parserGraph = .ok g ∧ q p parser g = true := by
  obtain ⟨p, hload, h⟩ := ok_of_any h
  obtain ⟨parser, hparser, h⟩ := ok_of_any h
  obtain ⟨g, hg, h⟩ := ok_of_any h
  exact ⟨p, parser, g, hload, hparser, hg, h⟩

end Small

end PacketSmith
