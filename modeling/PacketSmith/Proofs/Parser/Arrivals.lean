import PacketSmith.Proofs.TakenEdges

/-!
# States of a path, one by one

A path is run state by state. `arrive` is the part of a state before its key is compared: the path
ends there, or it goes on from the position and the constraints that the operations left.
-/

namespace PacketSmith

namespace Symbolic

/-- Where a path is once the operations of a state were run. -/
inductive Arrival where
  | ended (r : StatesResult)
  | onward (s : ParseState) (pos : Bits) (fail : Label) (added : List Formula)

/-- Runs the operations of the state that an edge leaves. -/
def arrive (env : Setting) (parser : Parser) (pos : Bits) (e : ParserEdge) : Symbolic Arrival := do
  let some s := parser.states.get? e.src | throw (.missing e.src)
  match ← stateOps env e 0 (.text "") pos s.ops with
  | .impossible => return .ended .impossible
  | .reached newPos fail added =>
    if e.dst = shortState then
      tooShort newPos
      return .ended (.reached fail added)
    else if isFailure fail then return .ended (.reached fail added)
    else
      let under ← keyUnderflow s.stackKeys
      match e.label with
      | .error err =>
        require err.opIndex.isNone
        require (err.error == stackOutOfBounds)
        require (e.dst == Transition.sink)
        if under then return .ended (.reached err.error added) else return .ended .impossible
      | _ => if under then return .ended .impossible else return .onward s newPos fail added

def StatesResult.after (constraints : List Formula) : StatesResult → StatesResult
  | .impossible => .impossible
  | .reached fail more => .reached fail (constraints ++ more)

def follow (env : Setting) (parser : Parser) (pos : Bits) (fail : Label) (rest : ParserPath) : Symbolic StatesResult :=
  if rest = [] then return .reached fail [] else states env parser pos.settle rest

def depart (env : Setting) (parser : Parser) (e : ParserEdge) (rest : ParserPath) : Arrival → Symbolic StatesResult
  | .ended r => return r
  | .onward s pos fail added => do
    let taken ← onwardConstraints env s e
    return (← follow env parser pos fail rest).after (added ++ taken)

theorem states_cons (env : Setting) (parser : Parser) (pos : Bits) (e : ParserEdge) (rest : ParserPath) :
    states env parser pos (e :: rest) = arrive env parser pos e >>= depart env parser e rest := by
  rw [states, arrive]
  cases parser.states.get? e.src with
  | none => rfl
  | some s =>
    simp only [bind_assoc]
    refine bind_congr fun r => ?_
    cases r with
    | impossible => simp [depart]
    | reached newPos fail added =>
      dsimp only
      split
      · simp [depart]
      · split
        · simp [depart]
        · rw [bind_assoc]
          refine bind_congr fun under => ?_
          cases e.label with
          | error err => cases under <;> simp [depart]
          | _ =>
            cases under with
            | true => simp [depart]
            | false =>
              refine bind_congr fun taken => ?_
              cases rest with
              | nil => simp [follow, StatesResult.after]
              | cons e' rest =>
                refine bind_congr fun r => ?_
                cases r <;> rfl

/-- What is asked of the packet once all states of a path were run. -/
def finishPacket (env : Setting) (fail : Label) : Symbolic (List Formula) := do
  write env.options (.text "meta_meta", .text "packet_len") (some Packet.size)
  setError env fail
  packetConstraints env.options

def conclude (env : Setting) : StatesResult → Symbolic (Option (List Formula))
  | .impossible => return none
  | .reached fail constraints => do return some (constraints ++ (← finishPacket env fail))

variable {parser : Parser}

theorem parserPath_eq (hparser : env.program.parser = .ok parser) (hne : path ≠ []) :
    parserPath env path = states env parser (Bits.ofInt 0 32) path >>= conclude env := by
  have hlift : lift env.program.parser = pure parser := by
    rw [hparser]
    rfl
  have hrequire : (require (!path.isEmpty) .unset : Symbolic Unit) = pure () := by
    cases path with
    | nil => exact absurd rfl hne
    | cons e path => rfl
  rw [parserPath, hlift, pure_bind, hrequire, pure_bind]
  refine bind_congr fun r => ?_
  cases r with
  | impossible => rfl
  | reached fail constraints => simp [conclude, finishPacket]

theorem arrive_onward (h : (arrive env parser pos e).result t = (.ok (.onward s pos' fail added), u)) :
    parser.states.get? e.src = some s ∧ isFailure fail = false ∧ e.dst ≠ shortState ∧ ∃ v,
    (stateOps env e 0 (.text "") pos s.ops).result t = (.ok (.reached pos' fail added), v) ∧
    (keyUnderflow s.stackKeys).result v = (.ok false, u) := by
  rw [arrive] at h
  cases hs : parser.states.get? e.src with
  | none =>
    rw [hs] at h
    cases h
  | some s' =>
    rw [hs] at h
    obtain ⟨r, v, hops, h⟩ := result_bind_inv h
    cases r with
    | impossible => cases h
    | reached newPos fail' added' =>
      dsimp only at h
      split at h
      · cases h
      · split at h
        · cases h
        · rename_i hdst hfail
          obtain ⟨under, w, hunder, h⟩ := result_bind_inv h
          cases hlabel : e.label with
          | error err =>
            rw [hlabel] at h
            obtain ⟨_, _, -, h⟩ := result_bind_inv h
            obtain ⟨_, _, -, h⟩ := result_bind_inv h
            obtain ⟨_, _, -, h⟩ := result_bind_inv h
            cases under <;> cases h
          | _ =>
            rw [hlabel] at h
            cases under with
            | true => cases h
            | false =>
              cases h
              exact ⟨rfl, by simpa using hfail, hdst, v, hops, hunder⟩

end Symbolic

end PacketSmith
