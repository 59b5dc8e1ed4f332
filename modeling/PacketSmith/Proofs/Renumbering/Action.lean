import PacketSmith.Proofs.Effects

/-!
# Twin runs of operands, actions and edges

The value of an operand, the primitives of an action and the edges of a control graph,
each from two states that differ by numbers.

*Externs.* The methods of externs are not part of the program. A setting is `Uniform`
if they do not see the numbers of variables either.
-/

namespace PacketSmith

open List Value Bits ExternArgument
open Numbered (renum)

def ExternObject.Uniform (object : ExternObject) : Prop :=
  ∀ method call, object method = some call → ∀ (σ : ℕ ↪o ℕ) (given : List ExternArgument),
    call (renum σ given) = renum σ (call given)

def Setting.Uniform (env : Setting) : Prop :=
  ∀ name object, env.externs.get? name = some object → ExternObject.Uniform object

def Setting.UniformAt (env : Setting) (σ : ℕ ↪o ℕ) : Prop :=
  ∀ name object, env.externs.get? name = some object → ∀ method call, object method = some call →
    ∀ given : List ExternArgument, call (renum σ given) = renum σ (call given)

theorem Setting.Uniform.at {env : Setting} (henv : env.Uniform) (σ : ℕ ↪o ℕ) : env.UniformAt σ :=
  fun name object hobject method call hcall => henv name object hobject method call hcall σ

theorem Variable.renum_refl (x : Variable) : renum (RelEmbedding.refl _) x = x := by
  induction x with
  | shift x ih => exact congrArg shift ih
  | _ => rfl

theorem Term.renum_refl (t : Term k) : renum (RelEmbedding.refl _) t = t := by
  induction t with
  | var x w => exact congrArg (var · w) x.renum_refl
  | _ => simp_all

section Same

variable {α : Type} [Numbered α] {σ : ℕ ↪o ℕ}

theorem renum_option_of_same (h : ∀ a : α, renum σ a = a) (a : Option α) : renum σ a = a := by
  cases a with
  | none => rfl
  | some a => exact congrArg some (h a)

theorem renum_list_of_same (h : ∀ a : α, renum σ a = a) (as : List α) : renum σ as = as := by
  induction as with
  | nil => rfl
  | cons a as ih => exact congrArg₂ List.cons (h a) ih

end Same

theorem Setting.uniformAt_refl (env : Setting) : env.UniformAt (RelEmbedding.refl _) := by
  have hbits : ∀ v : Option Bits, renum (RelEmbedding.refl _) v = v :=
    renum_option_of_same fun b => congrArg (Bits.mk b.width) b.term.renum_refl
  have hgiven (a : ExternArgument) : renum (RelEmbedding.refl _) a = a := by
    cases a with
    | field v => exact congrArg field (hbits v)
    | header vs => exact congrArg header (renum_list_of_same hbits vs)
  have hset (b : ExternResult) : renum (RelEmbedding.refl _) b = b := by
    cases b with
    | field v => exact congrArg ExternResult.field (renum_option_of_same hbits v)
    | header vs => exact congrArg ExternResult.header (renum_list_of_same (renum_option_of_same hbits) vs)
  intro name object _ method call _ given
  rw [renum_list_of_same hgiven]
  cases call given with
  | error f => rfl
  | ok set => exact congrArg Except.ok (renum_list_of_same hset set).symm

namespace Extern

variable (σ : ℕ ↪o ℕ)

theorem shiftField_renum (n : Int) (a b : Option Bits) :
    shiftField n (renum σ a) (renum σ b) = renum σ (shiftField n a b) := by
  cases a with
  | none => rfl
  | some a =>
    cases b with
    | none => rfl
    | some b => exact bind_same σ (require (a.width == b.width)) fun _ => rfl

theorem kept_renum (a : ExternArgument) : (renum σ a).kept = renum σ a.kept := by
  cases a with
  | field v => rfl
  | header vs =>
    refine congrArg ExternResult.header ?_
    change (vs.map (renum σ)).map _ = (vs.map _).map (renum σ)
    rw [map_map, map_map]
    rfl

theorem applyFields_renum (n : Int) (given : List ExternArgument) :
    applyFields n (renum σ given) = renum σ (applyFields n given) := by
  match given with
  | [.field a, .field b] => exact bind_renum σ (shiftField_renum σ n a b) fun _ => rfl
  | [] | [.header _] | [.field _] | [.field _, .header _] | [.header _, _] => rfl
  | .field _ :: .field _ :: _ :: _ => rfl
  | .field _ :: .header _ :: _ :: _ => rfl
  | .header _ :: _ :: _ :: _ => rfl

theorem applyHeaders_renum (n : Int) (given : List ExternArgument) :
    applyHeaders n (renum σ given) = renum σ (applyHeaders n given) := by
  match given with
  | .header a :: .header b :: rest =>
    have hlength : ((renum σ a).length == (renum σ b).length) = (a.length == b.length) := by
      rw [length_renum, length_renum]
    have hzip : (renum σ a).zip (renum σ b) = renum σ (a.zip b) := zip_map
    change (require ((renum σ a).length == (renum σ b).length) >>= fun _ =>
      ((renum σ a).zip (renum σ b)).mapM _ >>= _) = _
    rw [hlength, hzip]
    refine bind_same σ _ fun _ => ?_
    refine bind_renum σ
      (mapM_renum σ (fun (x, y) => shiftField_renum σ n x y) (a.zip b)) fun shifted => ?_
    have hshifted : (renum σ shifted).map (fun b => some (some b)) = renum σ (shifted.map fun b => some (some b)) := by
      change (shifted.map (renum σ)).map _ = (shifted.map _).map (renum σ)
      rw [map_map, map_map]
      rfl
    have hrest : (rest.map (renum σ)).map kept = renum σ (rest.map kept) := by
      change _ = (rest.map _).map (renum σ)
      rw [map_map, map_map]
      exact map_congr_left fun b _ => kept_renum σ b
    change Except.ok (kept (renum σ (header a)) :: .header _ :: _) = _
    rw [hshifted, hrest, kept_renum]
    rfl
  | [] | [.header _] | [.field _] => rfl
  | .field _ :: .field _ :: _ => rfl
  | .field _ :: .header _ :: _ => rfl
  | .header _ :: .field _ :: _ => rfl

theorem shiftRight_uniform {attributes : List Int} {object : ExternObject}
    (h : shiftRight attributes = .ok object) : object.Uniform := by
  unfold shiftRight at h
  split at h
  · cases h
    intro method call hcall σ given
    dsimp only at hcall
    split at hcall
    · cases hcall
      exact applyFields_renum σ _ given
    · cases hcall
      exact applyHeaders_renum σ _ given
    · cases hcall
      rfl
    · cases hcall
      rfl
    · cases hcall
  · cases h

end Extern

namespace Symbolic

/-! ## Operands -/

theorem readNamed_regular (o : Options) (header field : Json) :
    Regular σ p o c (readNamed o header field) (readNamed o header field) := by
  refine .lift_bind _ fun h => .lift_bind _ fun f => ?_
  refine .bind (read_regular o (h, f)) fun v => ?_
  rw [ofField_renum]
  exact .pure' (ofField v)

theorem readLastNamed_regular (env : Setting) (stack field : Json) :
    Regular σ p env.options c (readLastNamed env stack field) (readLastNamed env stack field) := by
  refine .lift_bind _ fun (key, s) => ?_
  refine .bind (lastElement_regular key s.size) fun element => ?_
  refine .lift_bind _ fun f => ?_
  refine .bind (read_regular env.options (element, f)) fun v => ?_
  rw [ofField_renum]
  exact .pure' (ofField v)

theorem isValid_regular (o : Options) (header : Json) : Regular σ p o c (isValid o header) (isValid o header) := by
  refine .bind (readNamed_regular o header _) fun v => ?_
  cases v with
  | bits b =>
    exact .bind (.lift' (b.rel_renum σ .eq (ofInt 1 1))) fun f =>
      .pure' (formula f)
  | formula f => exact .throw' _
  | absent => exact .pure' (formula (.truth false))

theorem operator_regular (o : Options) (op : Json) (operand : Operand) {cond left right cond' left' right' : Symbolic Value}
    (hcond : Regular σ p o c cond' cond) (hleft : Regular σ p o c left' left) (hright : Regular σ p o c right' right) :
    Regular σ p o c (operator o op operand cond' left' right') (operator o op operand cond left right) := by
  cases op with
  | str name =>
    unfold operator
    dsimp only
    cases Operand.connective? name with
    | some conn =>
      refine .bind hleft fun a => .bind hright fun b => ?_
      refine .bind (.lift' (a.truth_renum σ)) fun f => ?_
      exact .bind (.lift' (b.truth_renum σ)) fun g =>
        .pure' (formula (.conn conn f g))
    | none =>
      cases hunary : Operand.unary? name with
      | some f =>
        exact .bind hright fun v => .lift' (Operand.unary?_renum σ hunary v)
      | none =>
        cases hbinary : Operand.binary? name with
        | some f =>
          refine .bind hleft fun a => .bind hright fun b => ?_
          refine .bind (.lift' (a.sized_renum σ)) fun a => ?_
          refine .bind (.lift' (b.sized_renum σ)) fun b => ?_
          rw [Operand.binary?_renum σ hbinary]
          exact .pure' (f a b)
        | none =>
          dsimp only
          split
          · cases operand with
            | header h => exact isValid_regular o h
            | _ => exact .throw' _
          · split
            · refine .bind hcond fun c => .bind hleft fun a => .bind hright fun b => ?_
              refine .bind (.lift' (a.sized_renum σ)) fun a => ?_
              refine .bind (.lift' (b.sized_renum σ)) fun b => ?_
              rw [equalize_renum]
              refine .bind (.lift' (c.truth_renum σ)) fun c => ?_
              exact .bind (.lift' (choose_renum σ c _ _)) fun v =>
                .pure' (bits v)
            · exact .throw' _
  | _ => exact .throw' _

theorem value_regular (env : Setting) : ∀ v : Operand, Regular σ p env.options c (value env p v) (value env p v)
  | .hexstr n => by
    rw [value]
    exact .require_bind _ _ (.pure' (bits (ofInt n (bitLength n.toNat))))
  | .bool b => by
    rw [value]
    exact .pure' (formula (.truth b.truth))
  | .lookahead offset size => by
    rw [value]
    cases p with
    | false => exact .throw' _
    | true =>
      refine .require_bind _ _ ?_
      exact .bind (lookahead_regular env.options offset size) fun b => .pure' (bits b)
  | .field h f => by
    rw [value]
    exact readNamed_regular env.options h f
  | .stackField h f => by
    rw [value]
    exact readLastNamed_regular env h f
  | .runtimeData i => by
    rw [value]
    refine .bind .context fun c => ?_
    exact .bind (.lift' (c.currentParameter_renum σ i)) fun b => .pure' (bits b)
  | .expression op cond left right => by
    unfold value
    refine operator_regular env.options op right ?_ ?_ (value_regular env right)
    · match cond with
      | some c => exact value_regular env c
      | none => exact .throw' _
    · match left with
      | some l => exact value_regular env l
      | none => exact .throw' _
  | .header _ | .stack _ | .headerStack _ | .calculation _ | .counterArray _ | .meterArray _
  | .registerArray _ | .regular _ | .externInstance _ => by
    unfold value
    exact .throw' _

/-! ## Headers -/

theorem invalidate_regular (o : Options) (header : Label) :
    Regular σ p o c (invalidate o header) (invalidate o header) :=
  .bind (setValid_regular o header false) fun _ => clear_regular header

theorem elementValidity_regular (o : Options) (name : Label) :
    Regular σ p o c (elementValidity o name) (elementValidity o name) := by
  refine .bind (read_regular o (name, Context.valid)) fun v => ?_
  cases v with
  | none => exact .throw' _
  | some v =>
    rw [renum_some]
    dsimp only
    rw [settle_renum]
    exact .pure' v.settle

theorem copyFields_regular (o : Options) (type : HeaderType) (src dst : Label) :
    Regular σ p o c (copyFields o type src dst) (copyFields o type src dst) :=
  .forM_same (fun _ => .bind (read_regular o _) fun v => write_regular o _ v) _

theorem handOn_regular (o : Options) (type : HeaderType) (validity : Bits) (src dst : Label) :
    Regular σ p o c (handOn o type (renum σ validity) src dst) (handOn o type validity src dst) := by
  rw [handOn, isBit_renum]
  refine .lift_bind _ fun known => ?_
  cases known with
  | true => exact copyFields_regular o type src dst
  | false => exact invalidate_regular o dst

theorem assignStack_regular (env : Setting) (target source : Json) :
    Regular σ p env.options c (assignStack env target source) (assignStack env target source) := by
  refine .lift_bind _ fun src => .lift_bind _ fun dst => .lift_bind _ fun type => ?_
  refine .forM_same (fun i => ?_) _
  refine .bind (elementValidity_regular env.options _) fun validity => ?_
  refine .bind (write_regular env.options _ (some validity)) fun _ => ?_
  exact handOn_regular env.options type validity _ _

theorem moveElement_regular (env : Setting) (type : HeaderType) (stack : Label) (src dst : Int) :
    Regular σ p env.options c (moveElement env type stack src dst) (moveElement env type stack src dst) :=
  .bind (elementValidity_regular env.options _) fun validity =>
    handOn_regular env.options type validity _ _

theorem pop_regular (env : Setting) (parameters : List Operand) :
    Regular σ p env.options c (pop env parameters) (pop env parameters) := by
  refine .lift_bind _ fun (stack, s, type, n) => ?_
  refine .bind (.forM_same (fun i => moveElement_regular env type stack i (i - n)) _) fun _ => ?_
  exact .forM_same (fun i => invalidate_regular env.options _) _

theorem push_regular (env : Setting) (parameters : List Operand) :
    Regular σ p env.options c (push env parameters) (push env parameters) := by
  refine .lift_bind _ fun (stack, s, type, n) => ?_
  refine .bind (.forM_same (fun i => moveElement_regular env type stack (i - n) i) _) fun _ => ?_
  exact .forM_same (fun i => invalidate_regular env.options _) _

theorem drop_regular (o : Options) : Regular σ p o c (drop o) (drop o) :=
  .bind (write_regular o _ (some (ofInt 511 9))) fun _ =>
    write_regular o _ (some (ofInt 0 16))

theorem assign_regular (env : Setting) (parameters : List Operand) :
    Regular σ false env.options c (assign env parameters) (assign env parameters) := by
  unfold assign
  cases parameters[1]? with
  | none => exact .throw' _
  | some source =>
    cases parameters.head? with
    | none => exact .throw' _
    | some target =>
      refine .bind (value_regular env source) fun v => ?_
      refine .lift_bind _ fun name => .lift_bind _ fun key => ?_
      split
      · refine .lift_bind _ fun field => .lift_bind _ fun fieldKey => ?_
        split
        · rename_i f _
          exact .bind (.lift' (fitField_renum σ f.size v)) fun b =>
            write_regular env.options (key, fieldKey) (some b)
        · exact .throw' _
      · exact .throw' _

/-! ## Externs -/

theorem readArgument_regular (o : Options) (ref : FieldRef) :
    Regular σ p o c (readArgument o ref) (readArgument o ref) := by
  refine .bind .context fun c => ?_
  rw [Context.values_renum, Dict.contains_renum]
  split
  · exact read_regular o ref
  · cases c.fields.get? ref with
    | none => exact .throw' _
    | some info =>
      dsimp only
      split
      · exact read_regular o ref
      · exact .bind (.lift' (constant_renum σ 0 info.size).symm) fun b =>
          .pure' (some b)

theorem externArgument_regular (env : Setting) (v : Operand) :
    Regular σ p env.options c (externArgument env v) (externArgument env v) := by
  cases v with
  | field h f =>
    refine .lift_bind _ fun h => .lift_bind _ fun f => ?_
    exact .bind (readArgument_regular env.options (h, f)) fun v => .pure' (field v)
  | header name =>
    refine .lift_bind _ fun refs => ?_
    exact .bind (.mapM_same (readArgument_regular env.options) refs) fun vs =>
      .pure' (header vs)
  | _ => exact .throw' _

theorem sameSizes_renum (σ : ℕ ↪o ℕ) (a : Option Bits) (b : Option (Option Bits)) :
    sameSizes (renum σ a) ((renum σ b).getD (renum σ a)) = sameSizes a (b.getD a) := by
  have hsame (a b : Option Bits) : sameSizes (renum σ a) (renum σ b) = sameSizes a b := by
    cases a <;> cases b <;> rfl
  cases b with
  | none => exact hsame a a
  | some b => exact hsame a b

theorem argumentFits_renum (σ : ℕ ↪o ℕ) (a : ExternArgument) (b : ExternResult) :
    argumentFits (renum σ a) (renum σ b) = argumentFits a b := by
  cases a with
  | field a =>
    cases b with
    | field b => exact sameSizes_renum σ a b
    | header bs => rfl
  | header as =>
    cases b with
    | field b => rfl
    | header bs =>
      change ((renum σ as).length == (renum σ bs).length && _) = _
      rw [length_renum, length_renum]
      exact congrArg (as.length == bs.length && ·)
        (all_zip_renum σ _ (sameSizes_renum σ) as bs)

theorem storeField_regular (o : Options) (ref : FieldRef) (set : Option (Option Bits)) :
    Regular σ p o c (storeField o ref (renum σ set)) (storeField o ref set) := by
  cases set with
  | none => exact .pure' ()
  | some b => exact write_regular o ref b

theorem storeArgument_regular (env : Setting) (v : Operand) (set : ExternResult) :
    Regular σ p env.options c (storeArgument env v (renum σ set)) (storeArgument env v set) := by
  cases v with
  | field h f =>
    cases set with
    | field b => exact .lift_bind _ fun h => .lift_bind _ fun f => storeField_regular env.options (h, f) b
    | header bs => exact .pure' ()
  | header name =>
    cases set with
    | field b => exact .pure' ()
    | header bs =>
      refine .lift_bind _ fun refs => .lift_bind _ fun key => ?_
      refine .bind (setValid_regular env.options key true) fun _ => ?_
      exact .forM_zip (storeField_regular env.options) refs bs
  | _ => exact .pure' ()

theorem callExtern_regular (env : Setting) {method : ExternMethod}
    (hmethod : ∀ given, method (renum σ given) = renum σ (method given)) (operands : List Operand) :
    Regular σ p env.options c (callExtern env method operands) (callExtern env method operands) := by
  refine .bind (.mapM_same (externArgument_regular env) operands) fun given => ?_
  refine .bind (.lift' (hmethod given)) fun set => ?_
  rw [length_renum, length_renum, all_zip_renum σ _ (argumentFits_renum σ)]
  refine .require_bind _ _ (.require_bind _ _ ?_)
  exact .forM_zip (storeArgument_regular env) operands set

theorem externPrimitive_regular (henv : env.UniformAt σ) (op name : Json) (operands : List Operand) :
    Regular σ p env.options c (externPrimitive env op name operands) (externPrimitive env op name operands) := by
  refine .lift_bind _ fun key => ?_
  cases env.program.externs.get? key with
  | none => exact .throw' _
  | some e =>
    cases op with
    | str op =>
      refine .require_bind _ _ ?_
      cases hobject : env.externs.get? e.name with
      | none => exact .throw' _
      | some object =>
        dsimp only
        split
        · rename_i call hcall
          exact callExtern_regular env (henv _ _ hobject _ _ hcall) operands
        · exact .throw' _
    | _ => exact .throw' _

/-! ## Primitives -/

theorem primitive?_regular (env : Setting) (parameters : List Operand)
    (hstep : primitive? env parameters name = some step) : Regular σ false env.options c step step := by
  unfold primitive? at hstep
  split at hstep
  · cases hstep
    exact assign_regular env parameters
  · cases hstep
    exact assign_regular env parameters
  · cases hstep
    exact drop_regular env.options
  · cases hstep
    exact drop_regular env.options
  · cases hstep
    exact .lift_bind _ fun header => setValid_regular env.options header true
  · cases hstep
    exact .lift_bind _ fun header => invalidate_regular env.options header
  · cases hstep
    cases parameters[1]? with
    | none => exact .throw' _
    | some source =>
      refine .lift_bind _ fun source => .lift_bind _ fun _ => ?_
      cases parameters.head? with
      | none => exact .throw' _
      | some target => exact .lift_bind _ fun target => assignStack_regular env target source
  · cases hstep
    exact pop_regular env parameters
  · cases hstep
    exact push_regular env parameters
  · cases hstep

theorem primitive_regular (henv : env.UniformAt σ) (call : PrimitiveCall) :
    Regular σ false env.options c (primitive env call) (primitive env call) := by
  unfold primitive
  split
  · rename_i step hstep
    obtain ⟨name, -, hstep⟩ := Option.bind_eq_some_iff.1 hstep
    exact primitive?_regular env call.parameters hstep
  · split
    · exact externPrimitive_regular henv _ _ _
    · split
      · split
        · exact .pure' ()
        · exact .throw' _
      · exact .throw' _

theorem primitives_regular (henv : env.UniformAt σ) (calls : List PrimitiveCall) :
    Regular σ false env.options c (primitives env calls) (primitives env calls) := by
  induction calls with
  | nil => exact .pure' ()
  | cons call calls ih =>
    refine .bind (setSource_regular call.source) fun _ => ?_
    refine .bind (primitive_regular henv call) fun _ => ?_
    exact .bind (setSource_regular none) fun _ => ih

theorem action_regular (henv : env.UniformAt σ) (table : Label) (a : Action) :
    Regular σ false env.options c (action env table a) (action env table a) := by
  refine .bind (setAction_regular table a.name) fun _ => ?_
  refine .bind (addParameters_regular env.options table a.name _) fun _ => ?_
  refine .bind (.modifyContext (fun t => .currentTable t table) fun _ => rfl) fun _ => ?_
  exact (primitives_regular henv a.primitives).finally' (fun t => .currentTable t .null) fun _ => rfl

/-! ## Edges -/

theorem readTarget_regular (o : Options) (k : TableKey) : Regular σ p o c (readTarget o k) (readTarget o k) := by
  refine .lift_bind _ fun items => ?_
  split
  · refine .lift_bind _ fun h => .lift_bind _ fun f => ?_
    exact .lift_bind _ fun h => .lift_bind _ fun f => read_regular o (h, f)
  · exact .throw' _

theorem branch_regular (env : Setting) (node : Label) (b : Bool) :
    Regular σ false env.options c (branch env node b) (branch env node b) := by
  unfold branch
  cases env.pipeline.conditionals.get? node with
  | none => exact .throw' _
  | some c =>
    refine .bind (setSource_regular c.source) fun _ => ?_
    refine .bind (value_regular env c.expression) fun v => ?_
    exact .bind (.lift' (v.isTruth_renum σ b)) fun f => .pure' [f]

theorem tableAction_regular (henv : env.UniformAt σ) (node name : Label) (id : Int) :
    Regular σ false env.options c (tableAction env node name id) (tableAction env node name id) := by
  unfold tableAction
  cases env.pipeline.tables.get? node with
  | none => exact .throw' _
  | some t =>
    refine .bind (setSource_regular t.source) fun _ => .require_bind _ _ ?_
    refine .bind (.mapM_same (readTarget_regular env.options) t.key) fun keys => ?_
    refine .bind (setKeys_regular node keys) fun _ => .lift_bind _ fun a => ?_
    exact .bind (action_regular henv node a) fun _ => .pure' []

theorem controlStep_regular (henv : env.UniformAt σ) (node : Label) (step : ControlStep) :
    Regular σ false env.options c (controlStep env node step) (controlStep env node step) := by
  cases step with
  | branch b _ => exact branch_regular env node b
  | action name id _ => exact tableAction_regular henv node name id
  | constAction _ _ _ => exact .throw' _
  | noop => exact .pure' []

theorem controlEdge_regular (henv : env.UniformAt σ) (e : ControlEdge) :
    Regular σ false env.options c (controlEdge env e) (controlEdge env e) :=
  .bind (controlStep_regular henv e.src e.label) fun added =>
    .bind (setSource_regular none) fun _ => .pure' added

end Symbolic

end PacketSmith
