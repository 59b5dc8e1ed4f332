import PacketSmith.Proofs.Renumbering.Packet

/-!
# Renumbering of contexts

A context holds terms in its fields, in the keys and parameters of tables and in its
input. What is recorded about reads and writes has names of the program only, and so it
is the same after renumbering.

The functions on contexts, on values and on the keys of transitions commute with
renumbering. No new variable with a number is made in them.
-/

namespace PacketSmith

open List Dict Bits Term
open Numbered (renum)

variable (σ : ℕ ↪o ℕ)

/-! ## Values -/

instance : Numbered Value :=
  ⟨fun σ v => match v with
    | .bits b => .bits (renum σ b)
    | .formula f => .formula (renum σ f)
    | .absent => .absent⟩

instance : Numbered ExternArgument :=
  ⟨fun σ v => match v with
    | .field v => .field (renum σ v)
    | .header vs => .header (renum σ vs)⟩

instance : Numbered ExternResult :=
  ⟨fun σ v => match v with
    | .field v => .field (renum σ v)
    | .header vs => .header (renum σ vs)⟩

namespace Value

variable (σ : ℕ ↪o ℕ)

@[simp] theorem renum_bits (b : Bits) : renum σ (bits b) = bits (renum σ b) := rfl

@[simp] theorem renum_formula (f : Formula) : renum σ (formula f) = formula (renum σ f) := rfl

@[simp] theorem renum_absent : renum σ absent = absent := rfl

theorem ofField_renum (v : Option Bits) : ofField (renum σ v) = renum σ (ofField v) := by
  cases v <;> rfl

theorem sized_renum (v : Value) : (renum σ v).sized = renum σ v.sized := by
  cases v <;> rfl

theorem truth_renum (v : Value) : (renum σ v).truth = renum σ v.truth := by
  cases v <;> rfl

theorem isTruth_renum (v : Value) (b : Bool) : (renum σ v).isTruth b = renum σ (v.isTruth b) := by
  cases v <;> rfl

end Value

namespace Operand

variable (σ : ℕ ↪o ℕ)

theorem binary?_renum (hf : binary? name = some f) (a b : Bits) : f (renum σ a) (renum σ b) = renum σ (f a b) := by
  unfold binary? at hf
  split at hf
  all_goals
    cases hf
    try simp

theorem unary?_renum (hf : unary? name = some f) (v : Value) : f (renum σ v) = renum σ (f v) := by
  unfold unary? at hf
  split at hf
  · obtain rfl := Option.some.inj hf
    exact bind_renum σ (v.truth_renum σ) fun f => rfl
  · obtain rfl := Option.some.inj hf
    cases v <;> rfl
  · obtain rfl := Option.some.inj hf
    cases v <;> rfl
  · obtain rfl := Option.some.inj hf
    exact bind_renum σ (v.truth_renum σ) fun f => rfl
  · cases hf

end Operand

theorem Symbolic.fitField_renum (size : Option Int) (v : Value) :
    fitField size (renum σ v) = renum σ (fitField size v) := by
  refine bind_renum σ (v.sized_renum σ) fun b => ?_
  cases size with
  | none => rfl
  | some n => exact b.fit_renum σ n

/-! ## Contexts -/

instance : Numbered Context :=
  ⟨fun σ c => { c with
    values := renum σ c.values
    inputMetadata := renum σ c.inputMetadata
    tableKeys := renum σ c.tableKeys
    tableData := renum σ c.tableData
    displacements := renum σ c.displacements }⟩

instance : Numbered Tally := ⟨fun σ t => { t with lengths := renum σ t.lengths }⟩

namespace Context

variable (σ : ℕ ↪o ℕ) (c : Context)

@[simp] theorem values_renum : (renum σ c).values = renum σ c.values := rfl
@[simp] theorem fields_renum : (renum σ c).fields = c.fields := rfl
@[simp] theorem uninitializedReads_renum : (renum σ c).uninitializedReads = c.uninitializedReads := rfl
@[simp] theorem invalidWrites_renum : (renum σ c).invalidWrites = c.invalidWrites := rfl
@[simp] theorem tableData_renum : (renum σ c).tableData = renum σ c.tableData := rfl
@[simp] theorem tableActions_renum : (renum σ c).tableActions = c.tableActions := rfl
@[simp] theorem currentTable_renum : (renum σ c).currentTable = c.currentTable := rfl

theorem put_renum (ref : FieldRef) (v : Option Bits) : (renum σ c).put ref (renum σ v) = renum σ (c.put ref v) := by
  have h := insert_renum σ c.values ref v
  simp only [put, values_renum, h]
  rfl

theorem validityIs_renum (header : Label) (b : Bool) : (renum σ c).validityIs header b = c.validityIs header b := by
  simp only [validityIs, values_renum, get?_renum]
  cases c.values.get? (header, valid) with
  | none => rfl
  | some v =>
    cases v with
    | none => rfl
    | some v => exact v.isBit_renum σ b

theorem write_renum (o : Options) (ref : FieldRef) (v : Option Bits) :
    (renum σ c).write o ref (renum σ v) = renum σ (c.write o ref v) := by
  rw [write, validityIs_renum]
  refine bind_same σ _ fun invalid => ?_
  have hput := c.put_renum σ ref v
  split
  · split
    · rfl
    · exact congrArg Except.ok
        (put_renum σ { c with invalidWrites := c.invalidWrites ++ [(ref, c.source)] } ref v)
  · exact congrArg Except.ok hput

@[simp] theorem fieldsOf_renum (header : Label) : (renum σ c).fieldsOf header = c.fieldsOf header := by
  rw [fieldsOf, values_renum, keys_renum, fieldsOf]

theorem clear_renum (header : Label) : (renum σ c).clear header = renum σ (c.clear header) := by
  rw [clear, fieldsOf_renum, clear]
  generalize c.fieldsOf header = refs
  induction refs generalizing c with
  | nil => rfl
  | cons ref refs ih =>
    rw [foldl_cons, foldl_cons, ← ih]
    exact congrArg (refs.foldl _) (c.put_renum σ ref none)

theorem parameter_renum (table : Label) (i : Int) : (renum σ c).parameter table i = renum σ (c.parameter table i) := by
  simp only [parameter, tableData_renum, get?_renum]
  cases c.tableData.get? table with
  | none => rfl
  | some made =>
    simp only [renum_some, length_renum, getElem?_renum]
    generalize (if i < 0 then i + (made.length : Int) else i) = j
    split
    · rfl
    · cases made[j.toNat]? <;> rfl

theorem currentParameter_renum (i : Int) : (renum σ c).currentParameter i = renum σ (c.currentParameter i) :=
  bind_same σ _ fun _ => c.parameter_renum σ c.currentTable i

theorem setAction_renum (table action : Label) :
    (renum σ c).setAction table action = renum σ (c.setAction table action) := by
  simp only [setAction, tableActions_renum]
  cases c.tableActions.get? table with
  | none => rfl
  | some a =>
    dsimp only
    split <;> rfl

theorem addParameters_go_renum (o : Options)
    (table action : Label) (i : Nat) (made : List Bits) (params : List (Label × Int)) :
    addParameters.go o table action i (renum σ made) params (renum σ c) =
      renum σ (addParameters.go o table action i made params c) := by
  induction params generalizing i made c with
  | nil =>
    rw [addParameters.go, tableData_renum, insert_renum]
    rfl
  | cons param params ih =>
    obtain ⟨name, width⟩ := param
    rw [addParameters.go, addParameters.go]
    have hnew : newVariable o.randomize (parameterName table action name) (some width) =
        renum σ (newVariable o.randomize (parameterName table action name) (some width)) :=
      newVariable_renum σ o.randomize (.plain (parameterName table action name)) (some width)
    cases hvar : newVariable o.randomize (parameterName table action name) (some width) with
    | error f => rfl
    | ok r =>
      obtain ⟨v, shifts⟩ := r
      -- the variable has a text for a name, so renumbering leaves it alone
      obtain ⟨hv, hshifts⟩ : v = renum σ v ∧ shifts = renum σ shifts := by
        simpa [hvar] using hnew
      have hctx : { renum σ c with
            displacements := (renum σ c).displacements ++ shifts } =
          renum σ { c with displacements := c.displacements ++ shifts } := by
        conv_lhs => rw [hshifts]
        exact congrArg (fun ds => { renum σ c with displacements := ds })
          (renum_append σ c.displacements shifts).symm
      dsimp only
      rw [hctx]
      generalize { c with displacements := c.displacements ++ shifts } = c'
      generalize ((.text (table.display ++ "." ++ action.display ++ "." ++ name.display),
        .text (toString i)) : FieldRef) = ref
      have hwrite := c'.write_renum σ o ref (some v)
      rw [renum_some, ← hv] at hwrite
      rw [hwrite]
      cases c'.write o ref (some v) with
      | error f => rfl
      | ok c'' =>
        have hmade : renum σ made ++ [v] = renum σ (made ++ [v]) := by
          rw [renum_append, renum_cons, ← hv]
          rfl
        rw [hmade]
        exact ih c'' (i + 1) (made ++ [v])

theorem addParameters_renum (o : Options) (table action : Label) (params : List (Label × Int)) :
    (renum σ c).addParameters o table action params = renum σ (c.addParameters o table action params) := by
  rw [addParameters, tableData_renum, contains_renum, addParameters]
  split
  · rfl
  · exact c.addParameters_go_renum σ o table action 0 [] params

end Context

theorem Symbolic.lastValid_renum (stack : Label) (n : Nat) (c : Context) :
    lastValid stack n (renum σ c) = lastValid stack n c := by
  induction n with
  | zero => rfl
  | succ n ih =>
    simp only [lastValid, Context.values_renum, Dict.get?_renum, ih]
    cases c.values.get? (Context.elementName stack n, Context.valid) with
    | none => rfl
    | some v =>
      cases v with
      | none => rfl
      | some v => exact congrArg (· >>= _) (v.isBit_renum σ true)

theorem Program.errorBits_renum (p : Program) (error : Label) : p.errorBits error = renum σ (p.errorBits error) := by
  rw [errorBits]
  cases p.errors.byName.get? error <;> rfl

theorem Program.startContext_renum (p : Program) (o : Options) : p.startContext o = renum σ (p.startContext o) := by
  have hzero (c : Context) (ref : FieldRef) : (renum σ c).write o ref (some (ofInt 0 1)) =
        renum σ (c.write o ref (some (ofInt 0 1))) :=
    c.write_renum σ o ref (some (ofInt 0 1))
  rw [startContext]
  refine bind_renum σ ?headers fun c => ?_
  case headers =>
    refine foldlM_same σ (fun c h => ?_) ({} : Context) p.headers.values
    refine foldlM_same σ (fun c f => ?_) c h.fields.values
    split
    · exact hzero c _
    · rfl
  refine bind_renum σ ?elements fun c => ?_
  case elements =>
    refine foldlM_same σ (fun c e => ?_) c p.headerStacks.entries
    exact foldlM_same σ (fun c i => hzero c _) c (List.range e.2.size.toNat)
  refine bind_renum σ ?standard fun c => ?_
  case standard =>
    -- the values of the standard metadata are constants and variables with texts for names
    simp only [foldlM_cons, foldlM_nil]
    refine bind_renum σ (c.write_renum σ o _ (some ⟨9, .var "$ingress_port$" 9⟩))
      fun c => ?_
    refine bind_renum σ (c.write_renum σ o _ (some Packet.size)) fun c => ?_
    refine bind_renum σ (c.write_renum σ o _ (some ⟨32, .var "$instance_type$" 32⟩))
      fun c => ?_
    refine bind_renum σ (c.write_renum σ o _ (some (ofInt 0 9))) fun c => ?_
    rfl
  refine bind_renum σ (p.errorBits_renum σ _) fun b => c.write_renum σ o _ (some b)

/-! ## Keys of transitions -/

namespace Transition

variable (σ : ℕ ↪o ℕ) (keys : List (Option Bits))

theorem wholeBytes_renum (k : Bits) : wholeBytes (renum σ k) = renum σ (wholeBytes k) :=
  k.resize_renum σ _

theorem foldl_sideBySide_renum (a : Bits) (bs : List Bits) :
    (renum σ bs).foldl sideBySide (renum σ a) = renum σ (bs.foldl sideBySide a) := by
  induction bs generalizing a with
  | nil => rfl
  | cons b bs ih => exact ih (sideBySide a b)

theorem keyConstraint_renum (value mask : Option Int) :
    keyConstraint (renum σ keys) value mask = renum σ (keyConstraint keys value mask) := by
  cases value with
  | none => rfl
  | some value =>
    cases keys with
    | nil => rfl
    | cons k keys =>
      refine bind_renum σ (mapM_renum σ (fun k => ?_) (k :: keys)) fun parts => ?_
      · cases k with
        | none => rfl
        | some k => exact congrArg Except.ok (wholeBytes_renum σ k)
      · cases parts with
        | nil => rfl
        | cons first rest =>
          simp only [renum_cons]
          rw [foldl_sideBySide_renum]
          rfl

theorem agrees_renum (t : Transition) : agrees (renum σ keys) t = renum σ (agrees keys t) :=
  keyConstraint_renum σ keys t.value t.mask

theorem noneOf_renum (ts : List Transition) : noneOf (renum σ keys) ts = renum σ (noneOf keys ts) := by
  refine bind_renum σ (mapM_same σ (agrees_renum σ keys) ts) fun fs => ?_
  rw [isEmpty_renum, any_renum]
  split <;> rfl

theorem constraints_renum (all : List Transition) (t : Transition) :
    constraints (renum σ keys) all t = renum σ (constraints keys all t) := by
  refine bind_renum σ (noneOf_renum σ keys _) fun earlier => ?_
  split
  · exact bind_renum σ (agrees_renum σ keys t) fun f => by simp
  · rfl

theorem compositeConstraints_renum (all parts : List Transition) :
    compositeConstraints (renum σ keys) all parts = renum σ (compositeConstraints keys all parts) := by
  refine bind_renum σ (mapM_same σ (fun t => bind_same σ _ fun _ => agrees_renum σ keys t) _)
    fun fs => ?_
  refine bind_same σ _ fun _ => ?_
  refine bind_renum σ (mapM_same σ (fun t =>
    bind_renum σ (constraints_renum σ keys _ t) fun fs => ?_) parts) fun each => ?_
  · exact congrArg Except.ok (all_renum σ fs)
  · rw [isEmpty_renum, any_renum, any_renum]
    split <;> rfl

end Transition

end PacketSmith
