import PacketSmith.Proofs.Parser.Arrivals
import PacketSmith.Proofs.Parser.Choices
import PacketSmith.Proofs.Parser.FirstMatch

/-!
# Taking transitions as one keeps the packets

A parser path with transitions taken as one is taken by the packets that take one of the paths it stands for. `Splits`
says this of what comes of a symbolic step. Up to the comparison of its key a state does not depend on which component
is taken (`arrive_of_component`), and the comparison itself has the same effect for each.
-/

namespace PacketSmith

open List ParseState Program
open ParserEdge

open ParserPath (Chosen)

namespace Symbolic

/-- A step comes out as each of some other ones does, and its constraints hold if and only if those of
one of the others do. -/
inductive Splits {α τ : Type} (kind : α → τ) (constraints : α → List Formula)
    (whole : Except Fault α × SymbolicState) (parts : Except Fault α × SymbolicState → Prop) : Prop where
  | fails {f : Fault} {t : SymbolicState} (failed : whole = (.error f, t)) (same : ∀ r, parts r → r = whole)
  | holds {a : α} {t : SymbolicState} (succeeded : whole = (.ok a, t))
    (same : ∀ r, parts r → ∃ b, r = (.ok b, t) ∧ kind b = kind a)
    (sat : ∀ ρ : Assignment, ρ.Satisfies (constraints a) ↔ ∃ b, parts (.ok b, t) ∧ ρ.Satisfies (constraints b))

variable {e : ParserEdge} {s : ParseState} {whole : ParserPath}

theorem Splits.congr {constraints : α → List Formula} {whole : Except Fault α × SymbolicState}
    {parts parts' : Except Fault α × SymbolicState → Prop} (hparts : ∀ r, parts r ↔ parts' r)
    (h : Splits kind constraints whole parts) : Splits kind constraints whole parts' := by
  obtain rfl : parts = parts' := funext fun r => propext (hparts r)
  exact h

theorem Splits.of_same {constraints : α → List Formula} {whole : Except Fault α × SymbolicState}
    (hsome : ∃ r, parts r) (hsame : ∀ r, parts r → r = whole) : Splits kind constraints whole parts := by
  obtain ⟨r, hr⟩ := hsome
  obtain rfl := hsame r hr
  obtain ⟨_ | a, t⟩ := r
  · exact .fails rfl hsame
  · refine .holds rfl (fun r hr => ⟨a, hsame r hr, rfl⟩) fun ρ => ?_
    constructor
    · exact fun hρ => ⟨a, hr, hρ⟩
    · rintro ⟨b, hb, hρ⟩
      cases hsame _ hb
      exact hρ

/-! ## Edges -/

inductive Grouped (s : ParseState) (e : ParserEdge) : Prop where
  | plain (self : components e = [e])
  | composite {parts : List Transition} (label : e.label = .composite parts) (sub : parts.Sublist s.transitions)
    (two : 2 ≤ parts.length)

theorem Grouped.components_ne_nil (h : Grouped s e) : components e ≠ [] := by
  cases h with
  | plain self => simp [self]
  | composite label sub two =>
    simp only [components, label]
    rintro hnil
    rw [map_eq_nil_iff.mp hnil] at two
    simp at two

theorem grouped_of_mem_edges (he : e ∈ s.edges) : Grouped s e :=
  .plain ((oneState_of_states fun _ he => ⟨src_of_mem_edges he, s, he⟩).plain e he)

theorem group_edges (s : ParseState) (target : Label) :
    group s.edges target = (s.transitions.filter fun t => t.target = target).map s.edge := by
  have herrors : (s.errors.map s.errorEdge).filter (fun e => target? e = some target) = [] := by
    rw [filter_eq_nil_iff]
    intro e he
    obtain ⟨err, -, rfl⟩ := mem_map.mp he
    simp [target?, errorEdge]
  rw [group, edges, filter_append, herrors, append_nil, filter_map]
  refine congrArg (List.map s.edge) (filter_congr fun t _ => ?_)
  simp [target?, edge]

theorem grouped_of_mem_collapse (he : e ∈ collapse s.edges) : Grouped s e := by
  rcases mem_collapse.mp he with ⟨hmem, -⟩ | ⟨target, hmerge⟩
  · exact grouped_of_mem_edges hmem
  · have hsub : (s.transitions.filter fun t => t.target = target).Sublist s.transitions := filter_sublist
    have hmem : ∀ t ∈ s.transitions.filter (fun t => t.target = target), s.edge t ∈ s.edges :=
      fun t ht => mem_append_left _ (mem_map.mpr ⟨t, (mem_filter.mp ht).1, rfl⟩)
    rw [group_edges] at hmerge
    generalize (s.transitions.filter fun t => t.target = target) = ts at hmerge hsub hmem
    rcases ts with _ | ⟨a, _ | ⟨b, rest⟩⟩
    · cases hmerge
    · cases hmerge
      exact grouped_of_mem_edges (hmem a mem_cons_self)
    · cases hmerge
      have hback (ts : List Transition) : (ts.map s.edge).filterMap transition? = ts := by
        rw [filterMap_map]
        exact filterMap_some
      refine .composite (hback (a :: b :: rest) ▸ rfl) hsub (by simp)

variable {parser : Parser} {e e' : ParserEdge} {s : ParseState}

theorem mem_components (label : e'.label = .composite parts) :
    e ∈ components e' ↔ ∃ t ∈ parts, e = { e' with label := .transition t } := by
  simp [components, label, eq_comm]

theorem onward_splits (h : Grouped s e')
    (hdefault : ∀ t ∈ s.transitions.dropLast, t.value.isSome = true) (t : SymbolicState) :
    Splits (fun _ => ()) id ((onwardConstraints env s e').result t) fun r => ∃ e ∈ components e',
      r = (onwardConstraints env s e).result t := by
  obtain ⟨e₀, he₀⟩ := exists_mem_of_ne_nil _ h.components_ne_nil
  have hsome : ∃ r, ∃ e ∈ components e', r = (onwardConstraints env s e).result t := ⟨_, e₀, he₀, rfl⟩
  cases h with
  | plain self =>
    refine .of_same hsome ?_
    rintro r ⟨e, he, rfl⟩
    rw [self, mem_singleton] at he
    rw [he]
  | @composite parts label sub two =>
    have hparts : ∀ part ∈ parts, part ∈ s.transitions := fun part hpart => sub.subset hpart
    have hne : parts ≠ [] := ne_nil_of_length_pos (by omega)
    rcases hkeys : (s.key.mapM (keyElement env)).result t with ⟨f | keys, u⟩
    · refine .of_same hsome ?_
      rintro r ⟨e, -, rfl⟩
      rw [onwardConstraints, onwardConstraints, result_bind_error hkeys, result_bind_error hkeys]
    · have hwhole : (onwardConstraints env s e').result t =
          if keys.isEmpty then (.ok [], u) else (Transition.compositeConstraints keys s.transitions parts, u) := by
        rw [onwardConstraints, result_bind_ok hkeys, label]
        split
        · rfl
        · exact result_lift _ _
      have hpart (part : Transition) : (onwardConstraints env s { e' with label := .transition part }).result t =
          if keys.isEmpty then (.ok [], u) else (Transition.constraints keys s.transitions part, u) := by
        rw [onwardConstraints, result_bind_ok hkeys]
        split
        · rfl
        · exact result_lift _ _
      rw [hwhole]
      by_cases hempty : keys.isEmpty = true
      · rw [if_pos hempty]
        refine .of_same hsome ?_
        rintro r ⟨e, he, rfl⟩
        obtain ⟨part, -, rfl⟩ := (mem_components label).mp he
        rw [hpart, if_pos hempty]
      · have hkey : keys ≠ [] := fun hnil => hempty (by rw [hnil]; rfl)
        rw [if_neg hempty]
        by_cases hmissing : none ∈ keys
        · have htwo := two.trans sub.length_le
          rw [Transition.compositeConstraints_of_missing hdefault hparts hne htwo hmissing]
          refine .of_same hsome ?_
          rintro r ⟨e, he, rfl⟩
          obtain ⟨part, hmem, rfl⟩ := (mem_components label).mp he
          rw [hpart, if_neg hempty,
            Transition.constraints_of_missing_of_mem hdefault htwo hmissing (hparts part hmem)]
        · obtain ⟨fs, hfs, hsat⟩ := Transition.compositeConstraints_ok hdefault hparts hne hmissing hkey
          have heach (part : Transition) (hmem : part ∈ parts) :=
            Transition.constraints_ok hmissing hkey
              (Transition.isSome_of_mem_takeWhile hdefault (hparts part hmem))
          rw [hfs]
          refine .holds rfl ?_ fun ρ => (hsat ρ).trans ?_
          · rintro r ⟨e, he, rfl⟩
            obtain ⟨part, hmem, rfl⟩ := (mem_components label).mp he
            obtain ⟨gs, hgs, -⟩ := heach part hmem
            exact ⟨gs, by rw [hpart, if_neg hempty, hgs], rfl⟩
          · constructor
            · rintro ⟨part, hmem, hfirst⟩
              obtain ⟨gs, hgs, hiff⟩ := heach part hmem
              refine ⟨gs, ⟨_, (mem_components label).mpr ⟨part, hmem, rfl⟩, ?_⟩, (hiff ρ).mpr hfirst⟩
              rw [hpart, if_neg hempty, hgs]
            · rintro ⟨gs, ⟨e, he, hresult⟩, hρ⟩
              obtain ⟨part, hmem, rfl⟩ := (mem_components label).mp he
              obtain ⟨gs', hgs, hiff⟩ := heach part hmem
              rw [hpart, if_neg hempty, hgs] at hresult
              cases hresult
              exact ⟨part, hmem, (hiff ρ).mp hρ⟩

/-! ## Paths -/

theorem arrive_of_component (h : e ∈ components e') (pos : Bits) :
    arrive env parser pos e = arrive env parser pos e' := by
  unfold components at h
  split at h
  · rename_i parts label
    obtain ⟨t, -, rfl⟩ := mem_map.mp h
    have hops (ops : List ParseOp) (i : Nat) (fail : Label) (pos : Bits) :
        stateOps env { e' with label := .transition t } i fail pos ops = stateOps env e' i fail pos ops := by
      induction ops generalizing i fail pos with
      | nil => rfl
      | cons op ops ih => simp only [stateOps, failAt, label, ih]
    simp only [arrive, hops, label]
  · rw [mem_singleton.mp h]

/-- What a path comes to, apart from the constraints. -/
def StatesResult.fail? : StatesResult → Option Label
  | .impossible => none
  | .reached fail _ => some fail

/-- The constraints of a path, if a packet can take it. -/
def StatesResult.constraints : StatesResult → List Formula
  | .impossible => []
  | .reached _ fs => fs

theorem StatesResult.fail?_after (fs : List Formula) (r : StatesResult) : (r.after fs).fail? = r.fail? := by
  cases r <;> rfl

theorem Splits.after {n' : Symbolic StatesResult} {P : ι → Prop} {Q : κ → Prop}
    {m : ι → Symbolic (List Formula)} {n : κ → Symbolic StatesResult} (added : List Formula)
    (hP : ∃ i, P i) (hQ : ∃ j, Q j)
    (hm : Splits (fun _ => ()) id (m'.result u) fun r => ∃ i, P i ∧ r = (m i).result u)
    (hn : ∀ v, Splits StatesResult.fail? StatesResult.constraints (n'.result v) fun r => ∃ j, Q j ∧ r = (n j).result v) :
    Splits StatesResult.fail? StatesResult.constraints
      ((do let taken ← m'; return (← n').after (added ++ taken)).result u) fun r => ∃ i j, P i ∧ Q j ∧
        r = (do let taken ← m i; return (← n j).after (added ++ taken)).result u := by
  obtain ⟨i₀, hi₀⟩ := hP
  obtain ⟨j₀, hj₀⟩ := hQ
  have hsome : ∃ r, ∃ i j, P i ∧ Q j ∧
      r = (do let taken ← m i; return (← n j).after (added ++ taken)).result u := ⟨_, i₀, j₀, hi₀, hj₀, rfl⟩
  cases hm with
  | @fails f v failed same =>
    refine .of_same hsome ?_
    rintro r ⟨i, j, hi, -, rfl⟩
    rw [result_bind_error ((same _ ⟨i, hi, rfl⟩).trans failed), result_bind_error failed]
  | @holds taken' v succeeded same sat =>
    have htaken (i : ι) (hi : P i) : ∃ taken, (m i).result u = (.ok taken, v) := by
      obtain ⟨taken, htaken, -⟩ := same _ ⟨i, hi, rfl⟩
      exact ⟨taken, htaken⟩
    cases hn v with
    | @fails f w failed' same' =>
      refine .of_same hsome ?_
      rintro r ⟨i, j, hi, hj, rfl⟩
      obtain ⟨taken, htaken⟩ := htaken i hi
      rw [result_bind_ok htaken, result_bind_error ((same' _ ⟨j, hj, rfl⟩).trans failed'), result_bind_ok succeeded,
        result_bind_error failed']
    | @holds r' w succeeded' same' sat' =>
      have hboth {m : Symbolic (List Formula)} {n : Symbolic StatesResult} {taken : List Formula} {r : StatesResult}
          (hm : m.result u = (.ok taken, v)) (hn : n.result v = (.ok r, w)) :
          (do let taken ← m; return (← n).after (added ++ taken)).result u = (.ok (r.after (added ++ taken)), w) := by
        rw [result_bind_ok hm, result_bind_ok hn]
        rfl
      have hrest (j : κ) (hj : Q j) : ∃ r, (n j).result v = (.ok r, w) ∧ r.fail? = r'.fail? := same' _ ⟨j, hj, rfl⟩
      refine .holds (hboth succeeded succeeded') ?_ fun ρ => ?_
      · rintro r ⟨i, j, hi, hj, rfl⟩
        obtain ⟨taken, htaken⟩ := htaken i hi
        obtain ⟨r, hr, hkind⟩ := hrest j hj
        exact ⟨_, hboth htaken hr, by rw [StatesResult.fail?_after, StatesResult.fail?_after, hkind]⟩
      · -- the path is impossible for all choices, or its constraints are those of the edge and of the rest
        have hsat (taken : List Formula) (r : StatesResult) (hkind : r.fail? = r'.fail?) :
            ρ.Satisfies (r.after (added ++ taken)).constraints ↔
              (r'.fail? = none ∨ ρ.Satisfies added ∧ ρ.Satisfies taken) ∧ ρ.Satisfies r.constraints := by
          rw [← hkind]
          cases r <;> simp [StatesResult.after, StatesResult.constraints, StatesResult.fail?, and_assoc]
        rw [hsat taken' r' rfl, sat', ← id_eq taken', sat]
        constructor
        · rintro ⟨htaken', r, ⟨j, hj, hr⟩, hρ⟩
          obtain ⟨r'', hr'', hkind⟩ := hrest j hj
          cases hr.trans hr''
          rcases htaken' with himpossible | ⟨hadded, taken, ⟨i, hi, htaken⟩, hρ'⟩
          · obtain ⟨taken, htaken⟩ := htaken i₀ hi₀
            exact ⟨_, ⟨i₀, j, hi₀, hj, (hboth htaken hr.symm).symm⟩, (hsat _ _ hkind).mpr ⟨.inl himpossible, hρ⟩⟩
          · exact ⟨_, ⟨i, j, hi, hj, (hboth htaken.symm hr.symm).symm⟩, (hsat _ _ hkind).mpr ⟨.inr ⟨hadded, hρ'⟩, hρ⟩⟩
        · rintro ⟨b, ⟨i, j, hi, hj, hb⟩, hρ⟩
          obtain ⟨taken, htaken⟩ := htaken i hi
          obtain ⟨r, hr, hkind⟩ := hrest j hj
          rw [hboth htaken hr] at hb
          cases hb
          obtain ⟨hfirst, hρ⟩ := (hsat _ _ hkind).mp hρ
          refine ⟨hfirst.imp_right fun h => ⟨h.1, taken, ⟨i, hi, htaken.symm⟩, h.2⟩, r, ⟨j, hj, hr.symm⟩, hρ⟩

/-- A path whose edges belong to states of which the default comes last. -/
def Ordered (parser : Parser) (whole : ParserPath) : Prop :=
  ∀ e ∈ whole, ∀ s, parser.states.get? e.src = some s →
    Grouped s e ∧ ∀ t ∈ s.transitions.dropLast, t.value.isSome = true

theorem states_splits (h : Ordered parser whole)
    (hchoice : ∃ path, Chosen whole path) (pos : Bits) (t : SymbolicState) :
    Splits StatesResult.fail? StatesResult.constraints ((states env parser pos whole).result t) fun r =>
      ∃ path, Chosen whole path ∧ r = (states env parser pos path).result t := by
  induction whole generalizing pos t with
  | nil =>
    refine .of_same ⟨_, [], .nil, rfl⟩ ?_
    rintro r ⟨path, hpath, rfl⟩
    cases hpath
    rfl
  | cons e' whole ih =>
    obtain ⟨hfirst, hothers⟩ := forall_mem_cons.mp h
    obtain ⟨_, _ | ⟨he₀, hpath₀⟩⟩ := hchoice
    have hsome : ∃ r, ∃ path, Chosen (e' :: whole) path ∧ r = (states env parser pos path).result t :=
      ⟨_, _, .cons he₀ hpath₀, rfl⟩
    rcases harrive : (arrive env parser pos e').result t with ⟨f | a, u⟩
    · refine .of_same hsome ?_
      rintro r ⟨path, _ | ⟨he, hpath⟩, rfl⟩
      rw [states_cons, states_cons, arrive_of_component he, result_bind_error harrive, result_bind_error harrive]
    · cases a with
      | ended r =>
        refine .of_same hsome ?_
        rintro r ⟨path, _ | ⟨he, hpath⟩, rfl⟩
        rw [states_cons, states_cons, arrive_of_component he, result_bind_ok harrive, result_bind_ok harrive]
        rfl
      | onward s newPos fail added =>
        obtain ⟨hs, -⟩ := arrive_onward harrive
        obtain ⟨hgrouped, hdefault⟩ := hfirst s hs
        have hrest (v : SymbolicState) : Splits StatesResult.fail? StatesResult.constraints
            ((follow env parser newPos fail whole).result v) fun r =>
              ∃ path, Chosen whole path ∧ r = (follow env parser newPos fail path).result v := by
          by_cases hnil : whole = []
          · subst hnil
            refine .of_same ⟨_, [], .nil, rfl⟩ ?_
            rintro r ⟨path, hpath, rfl⟩
            cases hpath
            rfl
          · have hgo (path : ParserPath) (hpath : Chosen whole path) : path ≠ [] := by
              rintro rfl
              cases hpath
              exact hnil rfl
            rw [follow, if_neg hnil]
            refine (ih hothers ⟨_, hpath₀⟩ newPos.settle v).congr fun r => exists_congr fun path => ?_
            refine and_congr_right fun hpath => ?_
            rw [follow, if_neg (hgo path hpath)]
        rw [states_cons, result_bind_ok harrive]
        refine (Splits.after added ⟨_, he₀⟩ ⟨_, hpath₀⟩ (onward_splits hgrouped hdefault u) hrest).congr fun r => ?_
        constructor
        · rintro ⟨e, path, he, hpath, rfl⟩
          refine ⟨e :: path, .cons he hpath, ?_⟩
          rw [states_cons, arrive_of_component he, result_bind_ok harrive]
          rfl
        · rintro ⟨_, _ | ⟨he, hpath⟩, rfl⟩
          refine ⟨_, _, he, hpath, ?_⟩
          rw [states_cons, arrive_of_component he, result_bind_ok harrive]
          rfl

theorem parserPath_splits (hparser : env.program.parser = .ok parser) (h : Ordered parser whole)
    (hchoice : ∃ path, Chosen whole path) (t : SymbolicState) : Splits Option.isSome (·.getD [])
    ((parserPath env whole).result t) fun r => ∃ path, Chosen whole path ∧ r = (parserPath env path).result t := by
  have hsome : ∃ r, ∃ path, Chosen whole path ∧ r = (parserPath env path).result t := by
    obtain ⟨path, hpath⟩ := hchoice
    exact ⟨_, path, hpath, rfl⟩
  by_cases hnil : whole = []
  · subst hnil
    refine .of_same hsome ?_
    rintro r ⟨path, hpath, rfl⟩
    cases hpath
    rfl
  have hne (path : ParserPath) (hpath : Chosen whole path) : path ≠ [] := by
    rintro rfl
    cases hpath
    exact hnil rfl
  rw [parserPath_eq hparser hnil]
  cases states_splits h hchoice (Bits.ofInt 0 32) t with
  | @fails f u failed same =>
    refine .of_same hsome ?_
    rintro r ⟨path, hpath, rfl⟩
    rw [parserPath_eq hparser (hne path hpath), result_bind_error ((same _ ⟨path, hpath, rfl⟩).trans failed),
      result_bind_error failed]
  | @holds r' u succeeded same sat =>
    rw [result_bind_ok succeeded]
    have hpath (path : ParserPath) (hpath : Chosen whole path) :
        ∃ r, (states env parser (Bits.ofInt 0 32) path).result t = (.ok r, u) ∧ r.fail? = r'.fail? ∧
          (parserPath env path).result t = (conclude env r).result u := by
      obtain ⟨r, hr, hkind⟩ := same _ ⟨path, hpath, rfl⟩
      exact ⟨r, hr, hkind, by rw [parserPath_eq hparser (hne path hpath), result_bind_ok hr]⟩
    cases r' with
    | impossible =>
      refine .of_same hsome ?_
      rintro _ ⟨path, hchosen, rfl⟩
      obtain ⟨r, -, hkind, hresult⟩ := hpath path hchosen
      rw [hresult]
      cases r with
      | impossible => rfl
      | reached fail constraints => cases hkind
    | reached fail constraints =>
      have hreached (path : ParserPath) (hchosen : Chosen whole path) :
          ∃ cs, (states env parser (Bits.ofInt 0 32) path).result t = (.ok (.reached fail cs), u) ∧
            (parserPath env path).result t = (conclude env (.reached fail cs)).result u := by
        obtain ⟨r, hr, hkind, hresult⟩ := hpath path hchosen
        cases r with
        | impossible => cases hkind
        | reached fail' cs =>
          cases hkind
          exact ⟨cs, hr, hresult⟩
      rcases hpacket : (finishPacket env fail).result u with ⟨f | extra, w⟩
      · refine .of_same hsome ?_
        rintro _ ⟨path, hchosen, rfl⟩
        obtain ⟨cs, -, hresult⟩ := hreached path hchosen
        rw [hresult, conclude, conclude, result_bind_error hpacket, result_bind_error hpacket]
      · have hend (cs : List Formula) : (conclude env (.reached fail cs)).result u = (.ok (some (cs ++ extra)), w) := by
          rw [conclude, result_bind_ok hpacket]
          rfl
        refine .holds (hend constraints) ?_ fun ρ => ?_
        · rintro _ ⟨path, hchosen, rfl⟩
          obtain ⟨cs, -, hresult⟩ := hreached path hchosen
          exact ⟨_, hresult.trans (hend cs), rfl⟩
        · rw [Option.getD_some, Assignment.satisfies_append]
          constructor
          · rintro ⟨hρ, hextra⟩
            obtain ⟨r, ⟨path, hchosen, hr⟩, hρ⟩ := (sat ρ).mp hρ
            obtain ⟨cs, hcs, hresult⟩ := hreached path hchosen
            cases hr.trans hcs
            exact ⟨_, ⟨path, hchosen, ((hresult.trans (hend cs)).symm)⟩, Assignment.satisfies_append.mpr ⟨hρ, hextra⟩⟩
          · rintro ⟨b, ⟨path, hchosen, hb⟩, hρ⟩
            obtain ⟨cs, hcs, hresult⟩ := hreached path hchosen
            rw [hresult, hend] at hb
            cases hb
            obtain ⟨hρ, hextra⟩ := Assignment.satisfies_append.mp hρ
            exact ⟨(sat ρ).mpr ⟨_, ⟨path, hchosen, hcs.symm⟩, hρ⟩, hextra⟩

end Symbolic

namespace Program

open Symbolic

variable {p : Program} {g : Graph String ParserStep} {parser : Parser} {init : String} {whole : ParserPath}

def Complete (p : Program) (g : Graph String ParserStep) (init : String) (collapsed : Bool) (path : ParserPath) : Prop :=
  Walkable p g init collapsed path ∧ path.AtEnd

theorem src_of_mem_collapse (hparser : p.parser = .ok parser) (hg : p.parserGraph = .ok g)
    (he : e ∈ collapse (g.outEdges v)) : e.src = v := by
  have hone : OneState (g.outEdges v) := oneState_of_states fun e he =>
    have hmem := mem_outEdges_parserGraph hparser hg he
    ⟨hmem.1, hmem.2.2.imp fun _ h => h.2.2⟩
  obtain ⟨a, ha⟩ := exists_mem_of_ne_nil _ (components_ne_nil hone he)
  rw [← (ends_of_mem_components ha).1]
  exact (mem_outEdges_parserGraph hparser hg (mem_of_mem_collapse hone he ha)).1

theorem Walkable.ordered (hparser : p.parser = .ok parser) (hwell : parser.WellFormed) (hg : p.parserGraph = .ok g)
    (hdefault : ∀ s ∈ parser.states.values, ∀ t ∈ s.transitions.dropLast, t.value.isSome = true)
    (h : Walkable p g init true whole) : Ordered parser whole := by
  induction h with
  | start => exact forall_mem_nil _
  | @onward path next e before opens ways mem ih =>
    refine forall_mem_append.mpr ⟨ih, forall_mem_singleton.mpr fun s hs => ⟨?_, ?_⟩⟩
    · obtain ⟨counts, full, -, -, rfl⟩ := onward_ok ways
      cases full with
      | true =>
        have hleaving : e ∈ path.leaving g init := (mem_filter.mp mem).1
        have hsrc := (mem_outEdges_parserGraph hparser hg hleaving).1
        rw [hsrc] at hs
        exact grouped_of_mem_edges (outEdges_of_state hparser hwell hg hs ▸ hleaving)
      | false =>
        have hleaving : e ∈ collapse (path.leaving g init) := mem
        have hsrc := src_of_mem_collapse hparser hg hleaving
        rw [hsrc] at hs
        exact grouped_of_mem_collapse (outEdges_of_state hparser hwell hg hs ▸ hleaving)
    · exact hdefault s (mem_map.mpr ⟨_, Dict.mem_entries_of_get? hs, rfl⟩)

/-- Taking transitions as one keeps the packets, if the default of a state comes last. Each complete
path is a choice from exactly one path with transitions taken as one, and every choice is complete.
These are the paths that are found if the walk over them ends. The constraints of transitions taken as
one hold if and only if those of one of them do, and so do those of a whole path. -/
theorem collapsing_keeps_packets {env : Setting} {lengthErrors : Bool} {source : Json}
    (hload : Program.ofJson lengthErrors source = .ok env.program) (hparser : env.program.parser = .ok parser)
    (hg : env.program.parserGraph = .ok g)
    (hdefault : ∀ s ∈ parser.states.values, ∀ t ∈ s.transitions.dropLast, t.value.isSome = true) :
    (∀ path, Complete env.program g parser.initState false path →
      ∃! whole, Complete env.program g parser.initState true whole ∧ Chosen whole path) ∧
    (∀ whole path, Complete env.program g parser.initState true whole → Chosen whole path →
      Complete env.program g parser.initState false path) ∧
    (∀ plain, Bounded env.program g parser.initState false → env.program.parserPaths g false = .ok plain →
      ∃ merged, env.program.parserPaths g true = .ok merged ∧
        (∀ path, path ∈ plain ↔ Complete env.program g parser.initState false path) ∧
        ∀ whole, whole ∈ merged ↔ Complete env.program g parser.initState true whole) ∧
    (∀ v s, parser.states.get? v = some s → ∀ e ∈ collapse (g.outEdges v), ∀ t,
      Splits (fun _ => ()) id ((onwardConstraints env s e).result t) fun r =>
        ∃ part ∈ components e, r = (onwardConstraints env s part).result t) ∧
    ∀ whole, Complete env.program g parser.initState true whole → ∀ t,
      Splits Option.isSome (·.getD []) ((Symbolic.parserPath env whole).result t) fun r =>
        ∃ path, Chosen whole path ∧ r = (Symbolic.parserPath env path).result t := by
  have hwell := parser_wellFormed hload hparser
  refine ⟨fun path hpath => ?_, fun whole path hwhole hchosen => ?_, fun plain hbounded hplain => ?_,
    fun v s hs e he t => ?_, fun whole hwhole t => ?_⟩
  · obtain ⟨whole, hwhole, hchosen⟩ := exists_chosen hparser hg hpath.1
    refine ⟨whole, ⟨⟨hwhole, hchosen.atEnd.mp hpath.2⟩, hchosen⟩, fun whole' hwhole' => ?_⟩
    exact chosen_unique hparser hg hwhole'.1.1 hwhole hwhole'.2 hchosen
  · exact ⟨Chosen.walkable hparser hg hwhole.1 hchosen, hchosen.atEnd.mpr hwhole.2⟩
  · exact parserPaths_collapsed hparser hg hbounded hplain
  · rw [outEdges_of_state hparser hwell hg hs] at he
    exact onward_splits (grouped_of_mem_collapse he)
      (hdefault s (mem_map.mpr ⟨_, Dict.mem_entries_of_get? hs, rfl⟩)) t
  · exact parserPath_splits hparser (hwhole.1.ordered hparser hwell hg hdefault) (exists_choice hparser hg hwhole.1) t

end Program

/-- Three transitions of the first state lead to the end, with one between them that does not. -/
def Small.forked : Json :=
  source [] [] [] "start"
    [state "start" [] [field "standard_metadata" "ingress_port"]
      [transition (some "0x01") none, transition (some "0x02") (some "next"), transition (some "0x03") none,
        transition none none],
    state "next" [] [] [transition none none]] passing

/-- Defaults come last, paths end after two edges, and of four paths two are left. -/
def Small.folds (p : Program) (parser : Parser) (g : Graph String ParserStep) (plain merged : List ParserPath) : Bool :=
  (parser.states.values.all fun s => s.transitions.dropLast.all fun t => t.value.isSome) &&
    p.endsWithin g parser.initState false 2 [] && plain.length = 4 && merged.length = 2

theorem Program.collapsing_forked :
    ∃ p parser g plain merged, Program.ofJson true Small.forked = .ok p ∧ p.parser = .ok parser ∧
      p.parserGraph = .ok g ∧ (∀ s ∈ parser.states.values, ∀ t ∈ s.transitions.dropLast, t.value.isSome = true) ∧
      p.parserPaths g false = .ok plain ∧ p.parserPaths g true = .ok merged ∧ plain.length = 4 ∧ merged.length = 2 ∧
      ∀ path ∈ plain, ∃! whole, whole ∈ merged ∧ Chosen whole path := by
  have hcomputed : (Small.parses true Small.forked fun p parser g => (p.parserPaths g false).toOption.any fun plain =>
      (p.parserPaths g true).toOption.any fun merged => Small.folds p parser g plain merged) = true := by
    decide +kernel
  obtain ⟨p, parser, g, hload, hparser, hg, h⟩ := Small.of_parses hcomputed
  obtain ⟨plain, hplain, h⟩ := Small.ok_of_any h
  obtain ⟨merged, hmerged, h⟩ := Small.ok_of_any h
  simp only [Small.folds, Bool.and_eq_true, all_eq_true, decide_eq_true_eq] at h
  obtain ⟨⟨⟨hdefault, hends⟩, hfour⟩, htwo⟩ := h
  obtain ⟨hunique, -, hfound, -⟩ := Program.collapsing_keeps_packets
    (show Program.ofJson true Small.forked = .ok (⟨{}, p, default, {}⟩ : Setting).program from hload) hparser hg hdefault
  obtain ⟨_, hmerged', hcomplete, hcomplete'⟩ := hfound plain (bounded_of_endsWithin hends) hplain
  obtain rfl := Except.ok.inj (hmerged.symm.trans hmerged')
  refine ⟨p, parser, g, plain, merged, hload, hparser, hg, hdefault, hplain, hmerged, hfour, htwo, fun path hpath => ?_⟩
  simp only [hcomplete']
  exact hunique path ((hcomplete path).mp hpath)

end PacketSmith
