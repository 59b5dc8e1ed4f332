import PacketSmith.Proofs.Renumbering.Action

/-!
# Twin runs of parser paths

The operations of a parser, the states of a path and the whole path, each from two
states that differ by numbers. The position in the packet is a term, and so it is
renum as well.
-/

namespace PacketSmith

open Bits Transition

open Numbered (renum)

instance : Numbered Symbolic.OpsResult :=
  ⟨fun σ r => match r with
    | .impossible => .impossible
    | .reached pos fail added => .reached (renum σ pos) fail (renum σ added)⟩

instance : Numbered Symbolic.StatesResult :=
  ⟨fun σ r => match r with
    | .impossible => .impossible
    | .reached fail constraints => .reached fail (renum σ constraints)⟩

namespace Symbolic

/-! ## Operations -/

theorem outOfBounds_go_regular (env : Setting) (vs : List Operand) :
    Regular σ true env.options c (outOfBounds.go env vs) (outOfBounds.go env vs) := by
  induction vs with
  | nil => exact .pure' false
  | cons v vs ih =>
    refine .lift_bind _ fun name => .lift_bind _ fun key => ?_
    refine .bind (stackCount_regular key) fun count => ?_
    refine .lift_bind _ fun (_, s) => .require_bind _ _ ?_
    rw [renum_nat]
    split
    all_goals
      dsimp only
      split
      · exact .pure' true
      · exact ih

theorem enter_regular (env : Setting) (v : Operand) (key : Label) :
    Regular σ true env.options true (enter env v key) (enter env v key) := by
  unfold enter
  split
  · refine .bind (nextElement_regular key) fun name => ?_
    exact .bind (setValid_regular env.options name true) fun _ => .pure' name
  · split
    · exact .pure' key
    · exact .bind (setValid_regular env.options key true) fun _ => .pure' key

theorem advance_regular (pos offset : Bits) :
    Regular σ true o c (advance (renum σ pos) (renum σ offset)) (advance pos offset) :=
  .lift' (arith_renum σ .add pos offset)

theorem tooShort_regular (pos : Bits) : Regular σ true o c (tooShort (renum σ pos)) (tooShort pos) := by
  rw [tooShort, arithInt_renum, settle_renum]
  exact setMaxLength_regular _

theorem extractHeader_regular (env : Setting) (v : Operand) (fail : Label) (pos : Bits) :
    Regular σ true env.options true (extractHeader env v fail (renum σ pos)) (extractHeader env v fail pos) := by
  refine .lift_bind _ fun (key, type) => ?_
  dsimp only
  split
  · have hsizes := mapM_same σ (fun f : Field => (word_renum σ f.size).symm) type.fields.values
    refine .bind (.lift' hsizes) fun sizes => ?_
    refine .bind (.foldlM advance_regular (ofInt 0 32) sizes) fun needed => ?_
    refine .bind (advance_regular pos needed) fun beyond => ?_
    exact .bind (tooShort_regular beyond) fun _ => .pure' pos
  · refine .bind (enter_regular env v key) fun name => ?_
    refine .bind (.foldlM_same (fun offset e => ?_) (ofInt 0 32) _) fun length =>
      advance_regular pos length
    refine .bind (extract_regular env.options e.2.size none _) fun data => ?_
    refine .bind (putField_regular _ data) fun _ => ?_
    exact .bind (.lift' (word_renum σ e.2.size).symm) fun b => advance_regular offset b

theorem varyingLength_regular (length : Bits) (fields : List Field) :
    Regular σ true o c (varyingLength (renum σ length) fields) (varyingLength length fields) := by
  refine .foldlM_same (fun sum f => ?_) (ofInt 0 32) fields
  split
  · exact .pure' sum
  · split
    · exact advance_regular sum length
    · exact .bind (.lift' (word_renum σ f.size).symm) fun b => advance_regular sum b

theorem headerTooShort_regular (env : Setting) (length pos offset : Bits) (fields : List Field) :
    Regular σ true env.options c (headerTooShort env (renum σ length) (renum σ pos) (renum σ offset) fields)
      (headerTooShort env length pos offset fields) := by
  induction fields generalizing offset with
  | nil => exact .throw' _
  | cons f fields ih =>
    unfold headerTooShort
    split
    · cases f.size with
      | none => exact .throw' _
      | some size =>
        refine .bind (advance_regular pos offset) fun start => ?_
        refine .bind (.lift' (rel_renum σ .ult (ofInt size length.width) length))
          fun beyond => ?_
        refine .bind (.lift' (arith_renum σ .sub (ofInt Packet.maxSize 32) start))
          fun room => ?_
        refine .bind (.lift' (rel_renum σ .ult length room)) fun fits => ?_
        exact .bind (extract_regular env.options (some size) (some length) none) fun _ =>
          .pure' (Term.conn .and beyond fits)
    · split
      · exact ih offset
      · refine .bind (.lift' (word_renum σ f.size).symm) fun b => ?_
        exact .bind (advance_regular offset b) ih

theorem extractVarying_regular (env : Setting) (name : Label) (length offset : Bits) (fields : List (String × Field))
    : Regular σ true env.options c (extractVarying env name (renum σ length) (renum σ offset) fields)
    (extractVarying env name length offset fields) := by
  induction fields generalizing offset with
  | nil => exact .pure' (offset, ([] : List Formula))
  | cons e fields ih =>
    obtain ⟨fieldName, f⟩ := e
    unfold extractVarying
    split
    · exact .bind (setValid_regular env.options name true) fun _ => ih offset
    · split
      · refine .bind (extract_regular env.options f.size (some length) _) fun data => ?_
        cases f.size with
        | none => exact .throw' _
        | some size =>
          refine .bind (.lift' (rel_renum σ .ule length (ofInt size length.width)))
            fun bound => ?_
          refine .bind (recordLength_regular _ length) fun _ => ?_
          refine .bind (putField_regular _ data) fun _ => ?_
          refine .bind (advance_regular offset length) fun offset => ?_
          exact .bind (ih offset) fun r => .pure' (r.1, bound :: r.2)
      · refine .bind (extract_regular env.options f.size none _) fun data => ?_
        refine .bind (putField_regular _ data) fun _ => ?_
        refine .bind (.lift' (word_renum σ f.size).symm) fun b => ?_
        exact .bind (advance_regular offset b) ih

theorem extractVaryingHeader_regular (env : Setting) (v size : Operand) (fail : Label) (pos : Bits) :
    Regular σ true env.options true (extractVaryingHeader env v size fail (renum σ pos))
      (extractVaryingHeader env v size fail pos) := by
  refine .bind (value_regular env size) fun n => ?_
  refine .bind (.lift' (n.sized_renum σ)) fun length => ?_
  rw [arithInt_renum, relInt_renum]
  refine .lift_bind _ fun (key, type) => ?_
  dsimp only
  split
  · refine .bind (varyingLength_regular length type.fields.values) fun needed => ?_
    refine .bind (advance_regular pos needed) fun beyond => ?_
    exact .bind (tooShort_regular beyond) fun _ => .pure' (pos, [(length.arithInt .and 7).relInt .eq 0])
  · split
    · exact .bind (headerTooShort_regular env length pos (ofInt 0 32) type.fields.values)
        fun excess => .pure' (pos, [(length.arithInt .and 7).relInt .eq 0, excess])
    · refine .bind (enter_regular env v key) fun name => ?_
      refine .bind (extractVarying_regular env name length (ofInt 0 32) type.fields.entries)
        fun r => ?_
      exact .bind (advance_regular pos r.1) fun beyond =>
        .pure' (beyond, (length.arithInt .and 7).relInt .eq 0 :: r.2)

theorem setField_regular (env : Setting) (target source : Operand) :
    Regular σ true env.options c (setField env target source) (setField env target source) := by
  cases target with
  | field h f =>
    refine .lift_bind _ fun field => ?_
    refine .bind (value_regular env source) fun v => ?_
    exact .bind (.lift' (fitField_renum σ field.size v)) fun b =>
      write_regular env.options (h.asLabel, f.asLabel) (some b)
  | _ => exact .throw' _

theorem parseOp_regular_of_ne (env : Setting) (fail : Label) (pos : Bits)
    (hop : ∀ values, op ≠ .plain .extract values ∧ op ≠ .plain .extractVL values) :
    Regular σ true env.options c (parseOp env op fail (renum σ pos)) (parseOp env op fail pos) := by
  unfold parseOp
  split
  · exact absurd rfl (hop _).1
  · split
    · rename_i target source
      exact .bind (setField_regular env target source) fun _ => .pure' (pos, ([] : List Formula))
    · exact .throw' _
  · exact absurd rfl (hop _).2
  · rename_i values
    cases values.head? with
    | none => exact .throw' _
    | some v =>
      refine .bind (value_regular env v) fun c => ?_
      exact .bind (.lift' (c.isTruth_renum σ _)) fun f => .pure' (pos, [f])
  · exact .throw' _
  · rename_i call
    split
    · cases call.parameters.head? with
      | none => exact .throw' _
      | some v =>
        refine .lift_bind _ fun name => .lift_bind _ fun header => ?_
        exact .bind (setValid_regular env.options header true) fun _ =>
          .pure' (pos, ([] : List Formula))
    · exact .throw' _

theorem parseOp_regular (env : Setting) (op : ParseOp) (fail : Label) (pos : Bits) :
    Regular σ true env.options true (parseOp env op fail (renum σ pos)) (parseOp env op fail pos) := by
  cases op with
  | primitive call => exact parseOp_regular_of_ne env fail pos (by simp)
  | plain kind values =>
    cases kind with
    | extract =>
      unfold parseOp
      dsimp only
      split
      · rename_i v
        refine .require_bind _ _ ?_
        exact .bind (extractHeader_regular env v fail pos) fun b => .pure' (b, ([] : List Formula))
      · exact .throw' _
    | extractVL =>
      unfold parseOp
      dsimp only
      split
      · rename_i v size
        exact .require_bind _ _ (extractVaryingHeader_regular env v size fail pos)
      · exact .throw' _
    | _ => exact parseOp_regular_of_ne env fail pos (by simp)

/-! ## States -/

theorem stateOps_regular (env : Setting) (e : ParserEdge) (i : Nat) (fail : Label) (pos : Bits) (ops : List ParseOp) :
    Regular σ true env.options true (stateOps env e i fail (renum σ pos) ops) (stateOps env e i fail pos ops) := by
  induction ops generalizing i fail pos with
  | nil => exact .pure' (OpsResult.reached pos fail [])
  | cons op ops ih =>
    refine .bind (outOfBounds_go_regular env op.stackParts) fun out => ?_
    rw [renum_bool]
    dsimp only
    split
    · exact .pure' OpsResult.impossible
    · split
      · exact .pure' OpsResult.impossible
      · refine .bind (parseOp_regular env op _ pos) fun r => ?_
        obtain ⟨pos, added⟩ := r
        split
        · exact .pure' (OpsResult.reached pos _ added)
        · refine .bind (ih (i + 1) _ pos) fun r => ?_
          cases r with
          | impossible => exact .pure' OpsResult.impossible
          | reached pos fail more =>
            exact .pure_of_eq (congrArg (OpsResult.reached (renum σ pos) fail)
              (renum_append σ added more).symm)

theorem keyElement_regular (env : Setting) (v : Operand) :
    Regular σ true env.options c (keyElement env v) (keyElement env v) := by
  cases v with
  | field h f => exact .lift_bind _ fun h => .lift_bind _ fun f => read_regular env.options (h, f)
  | stackField stack f =>
    refine .lift_bind _ fun (key, s) => ?_
    refine .bind (lastElement_regular key s.size) fun element => ?_
    exact .lift_bind _ fun f => read_regular env.options (element, f)
  | _ => exact .throw' _

theorem keyUnderflow_regular (vs : List Operand) : Regular σ true o c (keyUnderflow vs) (keyUnderflow vs) := by
  induction vs with
  | nil => exact .pure' false
  | cons v vs ih =>
    refine .lift_bind _ fun name => .lift_bind _ fun key => ?_
    refine .bind (stackCount_regular key) fun count => ?_
    rw [renum_nat]
    split
    · exact .pure' true
    · exact ih

theorem onwardConstraints_regular (env : Setting) (s : ParseState) (e : ParserEdge) :
    Regular σ true env.options c (onwardConstraints env s e) (onwardConstraints env s e) := by
  refine .bind (.mapM_same (keyElement_regular env) s.key) fun keys => ?_
  rw [isEmpty_renum]
  split
  · exact .pure' []
  · cases e.label with
    | composite parts =>
      exact .lift' (compositeConstraints_renum σ keys s.transitions parts)
    | transition t => exact .lift' (constraints_renum σ keys s.transitions t)
    | error err => exact .pure' []

theorem states_regular (env : Setting) (parser : Parser) (pos : Bits) (path : ParserPath) :
    Regular σ true env.options true (states env parser (renum σ pos) path) (states env parser pos path) := by
  induction path generalizing pos with
  | nil => exact .pure' (StatesResult.reached (.text "") [])
  | cons e rest ih =>
    unfold states
    cases parser.states.get? e.src with
    | none => exact .throw' _
    | some s =>
      refine .bind (stateOps_regular env e 0 (.text "") pos s.ops) fun r => ?_
      cases r with
      | impossible => exact .pure' StatesResult.impossible
      | reached newPos fail added =>
        change Regular σ true env.options true (if _ then _ else _) (if _ then _ else _)
        split
        · exact .bind (tooShort_regular newPos) fun _ => .pure' (StatesResult.reached fail added)
        · split
          · exact .pure' (StatesResult.reached fail added)
          · refine .bind (keyUnderflow_regular s.stackKeys) fun under => ?_
            rw [renum_bool]
            cases e.label with
            | error err =>
              refine .require_bind _ _ (.require_bind _ _ (.require_bind _ _ ?_))
              split
              · exact .pure' (StatesResult.reached err.error added)
              · exact .pure' StatesResult.impossible
            | _ =>
              dsimp only
              split
              · exact .pure' StatesResult.impossible
              · refine .bind (onwardConstraints_regular env s e) fun onward => ?_
                cases rest with
                | nil =>
                  exact .pure_of_eq (congrArg (StatesResult.reached fail)
                    (renum_append σ added onward).symm)
                | cons e' rest =>
                  rw [settle_renum]
                  refine .bind (ih newPos.settle) fun r => ?_
                  cases r with
                  | impossible => exact .pure' StatesResult.impossible
                  | reached fail more =>
                    refine .pure_of_eq (congrArg (StatesResult.reached fail) ?_)
                    rw [renum_append, renum_append]

theorem setError_regular (env : Setting) (fail : Label) :
    Regular σ true env.options c (setError env fail) (setError env fail) := by
  unfold setError
  split
  · exact .bind (.lift' (env.program.errorBits_renum σ fail)) fun b =>
      write_regular env.options _ (some b)
  · exact .pure' ()

theorem parserPath_regular (env : Setting) (path : ParserPath) :
    Regular σ true env.options true (parserPath env path) (parserPath env path) := by
  refine .lift_bind _ fun parser => .require_bind _ _ ?_
  refine .bind (states_regular env parser (ofInt 0 32) path) fun r => ?_
  cases r with
  | impossible => exact .pure' none
  | reached fail constraints =>
    refine .bind (write_regular env.options _ (some Packet.size)) fun _ => ?_
    refine .bind (setError_regular env fail) fun _ => ?_
    refine .bind (packetConstraints_regular env.options) fun added => ?_
    exact .pure_of_eq (congrArg some (renum_append σ constraints added).symm)

end Symbolic

end PacketSmith
