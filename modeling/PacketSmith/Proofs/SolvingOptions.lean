import PacketSmith.Proofs.Feasible

/-!
# Options of the search

Three options say how paths are searched for: whether constraints are kept from a path to
those that extend it, and which outcomes are inferred without the solver. What a path
means does not depend on them. The constraints of a parser path and of an edge are the
same under all of their settings, and so is how a standing can come about
(`Trail.solving`).
-/

namespace PacketSmith

/-- The options with other settings of the search: whether constraints are kept, and whether outcomes
are inferred at tables and at conditionals. -/
def Options.solving (o : Options) (keep tables branches : Bool) : Options :=
  { o with incremental := keep, tableOpt := tables, conditionalOpt := branches }

def Setting.solving (env : Setting) (keep tables branches : Bool) : Setting :=
  { env with options := env.options.solving keep tables branches }

def Engine.solving (engine : Engine) (keep tables branches : Bool) : Engine :=
  { engine with setting := engine.setting.solving keep tables branches }

variable (env : Setting) (keep tables branches : Bool)

theorem Engine.uniform_solving (engine : Engine) (h : engine.setting.Uniform) :
    (engine.solving keep tables branches).setting.Uniform := h

/-! ## Edges -/

theorem Context.addParameters_go_solving (o : Options) (table action : Label)
    (i : Nat) (made : List Bits) (params : List (Label × Int)) (c : Context) :
    addParameters.go (o.solving keep tables branches) table action i made params c =
      addParameters.go o table action i made params c := by
  induction params generalizing i made c with
  | nil => rfl
  | cons param rest ih =>
    simp only [addParameters.go, ih]
    rfl

namespace Symbolic

theorem value_solving (inParser : Bool) (v : Operand) :
    value (env.solving keep tables branches) inParser v = value env inParser v := by
  induction v using value.induct with
  | case8 op cond left right hcond hleft hright =>
    unfold value
    change operator env.options op right _ _ _ = _
    refine congr (congr (congrArg (operator env.options op right) ?_) ?_) hright
    · cases cond with
      | none => rfl
      | some c => exact hcond
    · cases left with
      | none => rfl
      | some l => exact hleft
  | case9 other _ _ _ _ _ _ _ hother =>
    cases other with
    | expression op cond left right => exact (hother _ _ _ _ rfl).elim
    | _ => rfl
  | _ => rfl

theorem assign_solving (parameters : List Operand) :
    assign (env.solving keep tables branches) parameters = assign env parameters := by
  simp only [assign, value_solving]
  rfl

theorem primitive_solving (call : PrimitiveCall) :
    primitive (env.solving keep tables branches) call = primitive env call := by
  have hstep (name : String) : primitive? (env.solving keep tables branches) call.parameters name =
      primitive? env call.parameters name := by
    unfold primitive?
    rw [assign_solving]
    rfl
  unfold primitive
  rw [funext hstep]
  rfl

theorem addParameters_solving (o : Options) (table action : Label) (params : List (Label × Int)) :
    addParameters (o.solving keep tables branches) table action params =
      addParameters o table action params := by
  simp only [addParameters, Context.addParameters, Context.addParameters_go_solving]

theorem primitives_solving (calls : List PrimitiveCall) :
    primitives (env.solving keep tables branches) calls = primitives env calls := by
  induction calls with
  | nil => rfl
  | cons call rest ih => rw [primitives, primitives, primitive_solving, ih]

theorem controlEdge_solving (e : ControlEdge) :
    controlEdge (env.solving keep tables branches) e = controlEdge env e := by
  have hstep : controlStep (env.solving keep tables branches) e.src e.label = controlStep env e.src e.label := by
    cases e.label with
    | branch value source =>
      simp only [controlStep, branch, value_solving]
      rfl
    | action name id data =>
      simp only [controlStep, tableAction, action, primitives_solving]
      simp only [Setting.solving, addParameters_solving]
      rfl
    | constAction | noop => rfl
  rw [controlEdge, controlEdge, hstep]

/-! ## Parser paths -/

theorem extractVarying_solving (name : Label) (length offset : Bits) (fields : List (String × Field)) :
    extractVarying (env.solving keep tables branches) name length offset fields =
      extractVarying env name length offset fields := by
  induction fields generalizing offset with
  | nil => rfl
  | cons field rest ih =>
    simp only [extractVarying, ih]
    rfl

theorem headerTooShort_solving (length pos offset : Bits) (fields : List Field) :
    headerTooShort (env.solving keep tables branches) length pos offset fields =
      headerTooShort env length pos offset fields := by
  induction fields generalizing offset with
  | nil => rfl
  | cons field rest ih =>
    simp only [headerTooShort, ih]
    rfl

theorem parseOp_solving (op : ParseOp) (fail : Label) (pos : Bits) :
    parseOp (env.solving keep tables branches) op fail pos = parseOp env op fail pos := by
  simp only [parseOp, extractVaryingHeader, setField, value_solving, extractVarying_solving,
    headerTooShort_solving]
  rfl

theorem outOfBounds_solving (op : ParseOp) :
    outOfBounds (env.solving keep tables branches) op = outOfBounds env op := by
  unfold outOfBounds
  induction op.stackParts with
  | nil => rfl
  | cons v rest ih =>
    simp only [outOfBounds.go, ih]
    rfl

theorem stateOps_solving (e : ParserEdge) (i : Nat) (fail : Label) (pos : Bits) (ops : List ParseOp) :
    stateOps (env.solving keep tables branches) e i fail pos ops = stateOps env e i fail pos ops := by
  induction ops generalizing i fail pos with
  | nil => rfl
  | cons op rest ih =>
    simp only [stateOps, outOfBounds_solving, parseOp_solving, ih]

theorem states_solving (parser : Parser) (pos : Bits) (path : ParserPath) :
    states (env.solving keep tables branches) parser pos path = states env parser pos path := by
  induction path generalizing pos with
  | nil => rfl
  | cons e rest ih =>
    simp only [states, stateOps_solving, ih]
    rfl

theorem parserPath_solving (path : ParserPath) :
    parserPath (env.solving keep tables branches) path = parserPath env path := by
  simp only [parserPath, states_solving]
  rfl

end Symbolic

namespace PathSolver

theorem lastConstraints_solving (path : ControlPath) :
    lastConstraints (env.solving keep tables branches) path = lastConstraints env path := by
  have hedge : edgeConstraints (env.solving keep tables branches) path.getLast? =
      edgeConstraints env path.getLast? := by
    cases path.getLast? with
    | none => rfl
    | some e => exact Symbolic.controlEdge_solving env keep tables branches e
  rw [lastConstraints, lastConstraints, hedge]
  rfl

end PathSolver

theorem Trail.solving {parser : ParserPath} :
    Trail (env.solving keep tables branches) parser path s n ↔ Trail env parser path s n := by
  constructor
  · intro h
    induction h with
    | start context run bound => exact .start context (Symbolic.parserPath_solving env .. ▸ run) bound
    | edge before run bound ih => exact .edge ih (PathSolver.lastConstraints_solving env .. ▸ run) bound
  · intro h
    induction h with
    | start context run bound =>
      exact .start context ((Symbolic.parserPath_solving env keep tables branches parser).symm ▸ run) bound
    | edge before run bound ih =>
      exact .edge ih ((PathSolver.lastConstraints_solving env keep tables branches _).symm ▸ run) bound

end PacketSmith
