import PacketSmith.Program.Edge

/-!
# Paths by positions

A choice is the position of an edge among those that leave the current node, where a negative position counts from the
end.
-/

namespace PacketSmith

inductive EdgeChoice where
  | one (i : Int)
  | several (is : List Int)

def pick {α : Type} (xs : List α) (i : Int) : Except Fault α :=
  let j := if i < 0 then i + xs.length else i
  if j < 0 then .error .outOfRange
  else match xs[j.toNat]? with
    | some x => .ok x
    | none => .error .outOfRange

def Edge.composite (edges : List ParserEdge) : Except Fault ParserEdge := do
  let parts ← edges.mapM fun e =>
    match e.label with
    | .transition t => Except.ok t
    | _ => Except.error Fault.violated
  match edges with
  | [] => throw .violated
  | e :: rest =>
    require (rest.all fun e' => e'.src == e.src && e'.dst == e.dst)
    return ⟨e.src, e.dst, .composite parts⟩

namespace Graph

def leaving {ν ε : Type} [DecidableEq ν] (g : Graph ν ε) (name : ν → Label) (v : ν) :
    Except Fault (List (Edge ν ε)) :=
  match g.outEdges? v with
  | some es => .ok es
  | none => .error (.missing (name v))

def chooseParser (g : Graph String ParserStep) : String → List EdgeChoice → Except Fault ParserPath
  | _, [] => .ok []
  | v, c :: rest => do
    let edges ← g.leaving Label.text v
    let e ← match c with
      | .several is => do Edge.composite (← is.mapM (pick edges))
      | .one i => pick edges i
    return e :: (← chooseParser g e.dst rest)

def chooseControl (g : Graph Label ControlStep) : Label → List Int → Except Fault ControlPath
  | _, [] => .ok []
  | v, i :: rest => do
    let e ← pick (← g.leaving id v) i
    return e :: (← chooseControl g e.dst rest)

end Graph

end PacketSmith
