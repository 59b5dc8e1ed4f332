import PacketSmith.Text.Integer

/-!
# Patterns in lines

A run takes as many characters as it can, or as few if it is lazy, and gives characters back if the rest does not
match otherwise. Marked runs and texts are kept.
-/

namespace PacketSmith.Text

inductive Part where
  | text (s : String)
  | oneOf (texts : List String) (keep : Bool)
  | char (ofClass : Char → Bool)
  | run (ofClass : Char → Bool) (least : Nat) (greedy keep : Bool)
  | optional (parts : List Part)
  | lineEnd

namespace Part

mutual

def weight : Part → Nat
  | .text _ | .oneOf _ _ | .char _ => 1
  | .run _ _ _ _ => 1
  | .optional parts => weights parts + 1
  | .lineEnd => 1

def weights : List Part → Nat
  | [] => 0
  | p :: rest => p.weight + weights rest

end

mutual

def kept : Part → Nat
  | .run _ _ _ keep | .oneOf _ keep => if keep then 1 else 0
  | .optional parts => keptAll parts
  | _ => 0

def keptAll : List Part → Nat
  | [] => 0
  | p :: rest => p.kept + keptAll rest

end

def anything (c : Char) : Bool := c != '\n'

def isDigit (c : Char) : Bool := (plainDigit c).isDigit

end Part

def stripStart? : List Char → List Char → Option (List Char)
  | [], cs => some cs
  | _ :: _, [] => none
  | d :: ds, c :: cs => if d = c then stripStart? ds cs else none

def firstSome {α β : Type} (f : α → Option β) : List α → Option β
  | [] => none
  | a :: rest =>
    match f a with
    | some b => some b
    | none => firstSome f rest

def runLengths (ofClass : Char → Bool) (least : Nat) (greedy : Bool) (cs : List Char) : List Nat :=
  let most := (cs.takeWhile ofClass).length
  let lengths := (List.range (most + 1 - least)).map (· + least)
  if greedy then lengths.reverse else lengths

def matchStart? : Nat → List Part → List Char → Option (List (Option String))
  | _, [], _ => some []
  | 0, _ :: _, _ => none
  | fuel + 1, p :: rest, cs =>
    match p with
    | .text s => (stripStart? s.toList cs).bind (matchStart? fuel rest)
    | .oneOf texts keep =>
      firstSome (fun s =>
        ((stripStart? s.toList cs).bind (matchStart? fuel rest)).map fun found =>
          if keep then some s :: found else found) texts
    | .char ofClass =>
      match cs with
      | c :: cs => if ofClass c then matchStart? fuel rest cs else none
      | [] => none
    | .lineEnd => if cs = [] ∨ cs = ['\n'] then matchStart? fuel rest cs else none
    | .run ofClass least greedy keep =>
      firstSome (fun n =>
        (matchStart? fuel rest (cs.drop n)).map fun found =>
          if keep then some (String.ofList (cs.take n)) :: found else found)
        (runLengths ofClass least greedy cs)
    | .optional parts =>
      match matchStart? fuel (parts ++ rest) cs with
      | some found => some found
      | none => (matchStart? fuel rest cs).map (List.replicate (Part.keptAll parts) none ++ ·)

def searchChars (parts : List Part) : List Char → Option (List (Option String))
  | [] => matchStart? (Part.weights parts) parts []
  | c :: cs =>
    match matchStart? (Part.weights parts) parts (c :: cs) with
    | some found => some found
    | none => searchChars parts cs

def search (parts : List Part) (s : String) : Option (List (Option String)) :=
  searchChars parts s.toList

end PacketSmith.Text
