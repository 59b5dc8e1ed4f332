import PacketSmith.Program.Edge

/-!
# Comparing what lies on paths

The items of a path are compared with each other and with what a trace names: an action by its name, a branch by its
value and the place of its condition, an empty pipeline by the text `No-Op`.
-/

namespace PacketSmith

inductive PathItem where
  | transition (src dst : Label) (t : Transition)
  | composite (id : Nat) (src dst : Label) (parts : List Transition)
  | error (id : Nat) (src dst error : Label)
  | action (src dst name : Label) (number : Int)
  | branch (src dst : Label) (value : Bool) (source : Option SourceInfo)
  | noop (src dst : Label)
  | plain (id : Nat) (src dst : Label)
  | place (s : SourceInfo)
  | value (v : Json)
  | pair (first : Json) (rest : Option (List Json))
  | thing (id : Nat)
deriving Inhabited

namespace PathItem

def compose (id : Nat) (items : List PathItem) : Except Fault PathItem := do
  let ts ← items.mapM fun i =>
    match i with
    | .transition src dst t => Except.ok (src, dst, t)
    | _ => Except.error Fault.violated
  match ts with
  | [] => throw .violated
  | (src, dst, _) :: _ =>
    require (ts.all fun t => t.1 == src && t.2.1 == dst)
    return .composite id src dst (ts.map fun t => t.2.2)

def tupleText : List String → String
  | [] => "()"
  | [s] => "(" ++ s ++ ",)"
  | parts => "(" ++ ", ".intercalate parts ++ ")"

def display : PathItem → String
  | transition src dst _ | composite _ src dst _ | plain _ src dst => src.display ++ " -> " ++ dst.display
  | error _ src dst e => src.display ++ " -(" ++ e.display ++ ")-> " ++ dst.display
  | action _ _ name _ => "u'" ++ name.display ++ "'"
  | branch _ _ v source => Edge.displayBranch v source
  | noop _ _ => "'No-Op'"
  | place s => s.display
  | value v => v.display
  | pair first rest =>
    tupleText [first.inner, match rest with
      | some parts => tupleText (parts.map Json.inner)
      | none => "None"]
  | thing _ => "<object>"

def describe : PathItem → String
  | place s => s.describe
  | value v => v.inner
  | item => item.display

def identical : PathItem → PathItem → Bool
  | composite i _ _ _, composite j _ _ _ | error i _ _ _, error j _ _ _ | plain i _ _, plain j _ _
  | thing i, thing j => i == j
  | _, _ => false

def sameValues : List Json → List Json → Bool
  | [], [] => true
  | v :: vs, w :: ws => v.same w && sameValues vs ws
  | _, _ => false

def samePlace : Option SourceInfo → Option SourceInfo → Bool
  | none, none => true
  | some a, some b => a.same b
  | _, _ => false

def pairEqual (first : Json) (rest : List Json) : PathItem → Bool
  | pair first' (some rest') => first.same first' && sameValues rest rest'
  | action _ _ name _ => name == .text (pair first (some rest)).display
  | _ => false

def branchParts (v : Bool) (s : SourceInfo) : Json × List Json :=
  (.bool v, [s.filename.toJson, s.line.toJson, s.fragment.toJson])

def isNoop : PathItem → Bool
  | value v => v.same (.str "No-Op")
  | action _ _ name _ => name == .text "No-Op"
  | _ => false

def firstPart : PathItem → Except Fault Json
  | pair first _ => .ok first
  | value v => v.elem 0
  | _ => .error .wrongKind

def rule (a b : PathItem) : Except Fault (Option Bool) :=
  match a with
  | transition _ _ t =>
    match b with
    | transition _ _ t' => .ok (some (t == t'))
    | _ => .ok (some false)
  | composite _ _ _ _ =>
    match b with
    | transition _ _ _ => .error .noPart
    | _ => .ok (if identical a b then some true else none)
  | action _ _ name number =>
    match b with
    | action _ _ _ number' => .ok (some (number == number'))
    | _ => .ok (some (name == .text b.display))
  | branch _ _ v source =>
    match b with
    | branch _ _ v' source' => .ok (some (v == v' && samePlace source source'))
    | _ =>
      match source with
      | some s =>
        let (first, rest) := branchParts v s
        .ok (some (pairEqual first rest b))
      | none => do return some ((Json.bool v).same (← firstPart b))
  | noop _ _ =>
    match b with
    | noop _ _ => .ok (some true)
    | _ => .ok (some b.isNoop)
  | place s =>
    match b with
    | place s' => .ok (some (s.same s'))
    | _ => .ok (some false)
  | value v =>
    match b with
    | value w => .ok (some (v.same w))
    | pair _ _ => .ok (some false)
    | _ => .ok none
  | pair first rest =>
    match b with
    | pair first' rest' =>
      match rest, rest' with
      | some r, some r' => .ok (some (first.same first' && sameValues r r'))
      | none, none => .ok (some (first.same first'))
      | _, _ => .ok (some false)
    | value _ => .ok (some false)
    | _ => .ok none
  | error _ _ _ _ | plain _ _ _ | thing _ => .ok (if identical a b then some true else none)

def isPlain : PathItem → Bool
  | plain _ _ _ => true
  | _ => false

def isSpecialEdge : PathItem → Bool
  | transition _ _ _ | composite _ _ _ _ | action _ _ _ _ | branch _ _ _ _ | noop _ _ => true
  | _ => false

def equal (a b : PathItem) : Except Fault Bool := do
  let (first, second) := if a.isPlain && b.isSpecialEdge then (b, a) else (a, b)
  match ← rule first second with
  | some answer => return answer
  | none =>
    match ← rule second first with
    | some answer => return answer
    | none => return identical a b

/-! ## Digests -/

inductive Digest where
  | object (id : Nat)
  | scalar (l : Label)
  | tuple (parts : List Digest)
deriving BEq

namespace Digest

def ofLabel (l : Label) : Digest :=
  match l.toJson.number? with
  | some n => .scalar (.int n)
  | none => .scalar l

def ofJson (v : Json) : Except Fault Digest := ofLabel <$> v.key

def ofInt? : Option Int → Digest
  | some n => .scalar (.int n)
  | none => .scalar .null

def ofTransition (t : Transition) : Digest :=
  .tuple [ofLabel t.kind, ofLabel t.target, ofInt? t.mask, ofInt? t.value]

def ofPlace (s : SourceInfo) : Digest :=
  .tuple [ofLabel s.filename, ofLabel s.line, ofLabel s.fragment]

end Digest

def digest : PathItem → Except Fault Digest
  | transition _ _ t => .ok (.ofTransition t)
  | composite _ _ _ parts => .ok (.tuple (parts.map Digest.ofTransition))
  | error id _ _ _ | plain id _ _ | thing id => .ok (.object id)
  | action _ _ name _ => .ok (.ofLabel name)
  | branch _ _ v source =>
    .ok (.tuple [.ofLabel (.bool v), match source with
      | some s => .ofPlace s
      | none => .scalar .null])
  | noop _ _ => .ok (.scalar (.text "No-Op"))
  | place s => .ok (.ofPlace s)
  | value v => Digest.ofJson v
  | pair first rest => do
    let first ← Digest.ofJson first
    match rest with
    | none => return .tuple [first, .scalar .null]
    | some parts => return .tuple [first, .tuple (← parts.mapM Digest.ofJson)]

end PathItem

end PacketSmith
