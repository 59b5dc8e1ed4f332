import PacketSmith.Decide.Circuit

/-!
# Search for an assignment

*Clauses.* All clauses lie in one array. A clause is known by its position there: first comes its length, then its
literals. The first two literals of a clause are watched, and a clause is looked at when one of them becomes false.

*Trail.* Literals become true one after the other, by a decision or since a clause has no other literal left, which is
then the reason.

*Conflicts.* If a clause has become false, the reasons are followed back to the last literal that all of them go
through. The clause learned from that is kept, and the search goes back to the level where it leaves one literal.
-/

namespace PacketSmith.Decide

/-- A literal: twice the number of a gate, plus one for the negation. -/
abbrev Lit := Nat

namespace Lit

@[inline] def neg (l : Lit) : Lit := l ^^^ 1

@[inline] def gate (l : Lit) : Nat := l >>> 1

end Lit

structure Search where
  arena : Array Nat := #[]
  watches : Array (Array Nat)
  values : ByteArray
  levels : Array Nat
  reasons : Array Nat
  trail : Array Lit := #[]
  marks : Array Nat := #[]
  done : Nat := 0
  refuted : Bool := false

namespace Search

open Lit Std.Sat

def start (gates : Nat) : Search :=
  { watches := Array.replicate (2 * gates) #[]
    values := ByteArray.mk (Array.replicate (2 * gates) 0)
    levels := Array.replicate gates 0
    reasons := Array.replicate gates 0 }

@[inline] def value (s : Search) (l : Lit) : UInt8 := s.values.get! l

@[inline] def level (s : Search) : Nat := s.marks.size

def assign (s : Search) (l : Lit) (reason : Nat) : Search :=
  let g := gate l
  { s with
    values := (s.values.set! l 1).set! (neg l) 2
    levels := s.levels.set! g s.marks.size
    reasons := s.reasons.set! g reason
    trail := s.trail.push l }

def attach (s : Search) (clause : Array Lit) : Search × Nat :=
  let position := s.arena.size
  let watch (ws : Array (Array Nat)) (i : Nat) := ws.modify clause[i]! (·.push position)
  ({ s with
    arena := s.arena.push clause.size ++ clause
    watches := watch (watch s.watches 0) 1 }, position)

def add (s : Search) (clause : Array Lit) : Search :=
  if s.refuted || clause.any fun l => s.value l == 1 then s
  else
    let unset := clause.filter fun l => s.value l == 0
    if unset.size == 0 then { s with refuted := true }
    else if unset.size == 1 then s.assign unset[0]! 0
    else (s.attach unset).1

def otherLiteral (s : Search) (position size : Nat) : Option Nat :=
  (List.range' 2 (size - 2)).find? fun k => s.value s.arena[position + 1 + k]! != 2

/-- Looks at the clauses that watch a literal which became false, until one of them is false too. The clauses that go
on watching it are collected in `kept`. -/
def lookAt (l : Lit) (ws : Array Nat) (s : Search) : Search × Array Nat × Option Nat :=
  ws.foldl (fun (s, kept, conflict) position =>
    if conflict.isSome then (s, kept.push position, conflict)
    else
      let s := if s.arena[position + 1]! == l then
          let other := s.arena[position + 2]!
          { s with arena := (s.arena.set! (position + 1) other).set! (position + 2) l }
        else s
      let first := s.arena[position + 1]!
      if s.value first == 1 then (s, kept.push position, none)
      else
        match otherLiteral s position s.arena[position]! with
        | some k =>
          let other := s.arena[position + 1 + k]!
          ({ s with
            arena := (s.arena.set! (position + 1 + k) l).set! (position + 2) other
            watches := s.watches.modify other (·.push position) }, kept, none)
        | none =>
          let kept := kept.push position
          if s.value first == 2 then (s, kept, some position)
          else (s.assign first (position + 1), kept, none)) (s, #[], none)

def propagate : Nat → Search → Search × Option Nat
  | 0, s => (s, none)
  | fuel + 1, s =>
    if s.done ≥ s.trail.size then (s, none)
    else
      let l := neg s.trail[s.done]!
      let ws := s.watches[l]!
      let s := { s with done := s.done + 1, watches := s.watches.set! l #[] }
      let (s, kept, conflict) := lookAt l ws s
      let s := { s with watches := s.watches.modify l (kept ++ ·) }
      match conflict with
      | some c => (s, some c)
      | none => propagate fuel s

def backTo (s : Search) (level : Nat) : Search :=
  if s.level ≤ level then s
  else
    let length := s.marks[level]!
    { s with
      values := s.trail.foldl (fun values l => (values.set! l 0).set! (neg l) 0) s.values length
      trail := s.trail.extract 0 length
      marks := s.marks.extract 0 level
      done := length }

structure Analysis where
  seen : ByteArray
  lower : Array Lit := #[]
  /-- The number of literals of the current level that are not followed yet. -/
  unset : Nat := 0

def meet (s : Search) (position : Nat) (skip : Option Lit) (a : Analysis) : Analysis :=
  (s.arena.extract (position + 1) (position + 1 + s.arena[position]!)).foldl (fun a l =>
    let g := gate l
    let level := s.levels[g]!
    if some l == skip || level == 0 || a.seen.get! g != 0 then a
    else
      let a := { a with seen := a.seen.set! g 1 }
      if level == s.level then { a with unset := a.unset + 1 } else { a with lower := a.lower.push l }) a

def follow (s : Search) : Nat → Analysis → Lit × Analysis
  | 0, a => (0, a)
  | i + 1, a =>
    let l := s.trail[i]!
    let g := gate l
    if a.seen.get! g == 0 || s.levels[g]! != s.level then follow s i a
    else if a.unset ≤ 1 then (l, a)
    else follow s i (meet s (s.reasons[g]! - 1) (some l) { a with unset := a.unset - 1 })

def learn (s : Search) (position : Nat) : Search :=
  let a : Analysis := { seen := ByteArray.mk (Array.replicate s.levels.size 0) }
  let (uip, a) := follow s s.trail.size (meet s position none a)
  let lower := a.lower
  -- The literal of the highest level is watched together with the new one.
  let best := (List.range lower.size).foldl (fun b i =>
    if s.levels[gate lower[i]!]! > s.levels[gate lower[b]!]! then i else b) 0
  let target := if lower.isEmpty then 0 else s.levels[gate lower[best]!]!
  let s := s.backTo target
  if lower.isEmpty then s.assign (neg uip) 0
  else
    let (s, position) := s.attach (#[neg uip] ++ lower.swapIfInBounds 0 best)
    s.assign (neg uip) (position + 1)

def branch (s : Search) : Option Search :=
  (List.range s.levels.size).find? (fun g => s.value (2 * g) == 0) |>.map fun g =>
    { s with marks := s.marks.push s.trail.size }.assign (2 * g + 1) 0

inductive Result where
  | found (s : Search)
  | refuted
  | unknown

def run : Nat → Search → Result
  | 0, _ => .unknown
  | fuel + 1, s =>
    let (s, conflict) := s.propagate s.levels.size
    match conflict with
    | some position => if s.level == 0 then .refuted else run fuel (s.learn position)
    | none =>
      match s.branch with
      | none => .found s
      | some s => run fuel s

/-! ## Clauses of a circuit -/

def clausesOf {α : Type} (n : Nat) : AIG.Decl α → List (Array Lit)
  | .false => [#[2 * n + 1]]
  | .atom _ => []
  | .gate l r => [#[2 * n + 1, l.val], #[2 * n + 1, r.val], #[2 * n, neg l.val, neg r.val]]

def ofCircuit {α : Type} [DecidableEq α] [Hashable α] (e : AIG.Entrypoint α) : Search :=
  let decls := e.aig.decls
  let root := (start decls.size).add #[2 * e.ref.gate + e.ref.invert.toNat]
  decls.zipIdx.foldl (fun s (d, n) => (clausesOf n d).foldl add s) root

end Search

end PacketSmith.Decide
