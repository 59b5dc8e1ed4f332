/-!
# Blanks and words

The characters that separate words are the white space of Unicode together with the four separators of ASCII.
-/

namespace PacketSmith.Text

def isBlank (c : Char) : Bool :=
  let n := c.toNat
  (0x09 ≤ n && n ≤ 0x0d) || (0x1c ≤ n && n ≤ 0x20) || n == 0x85 || n == 0xa0 || n == 0x1680 ||
    (0x2000 ≤ n && n ≤ 0x200a) || n == 0x2028 || n == 0x2029 || n == 0x202f || n == 0x205f ||
    n == 0x3000

def wordsOf : List Char → List Char → List String
  | [], word => if word.isEmpty then [] else [String.ofList word.reverse]
  | c :: cs, word =>
    if isBlank c then
      if word.isEmpty then wordsOf cs [] else String.ofList word.reverse :: wordsOf cs []
    else wordsOf cs (c :: word)

def words (s : String) : List String := wordsOf s.toList []

def trimBy (outer : Char → Bool) (cs : List Char) : List Char :=
  ((cs.dropWhile outer).reverse.dropWhile outer).reverse

def trimChars (cs : List Char) : List Char := trimBy isBlank cs

def trimEnd (s : String) : String := String.ofList (s.toList.reverse.dropWhile isBlank).reverse

def splitChars (sep : List Char) : Nat → List Char → List Char → List (List Char)
  | 0, part, _ => [part.reverse]
  | fuel + 1, part, cs =>
    match cs with
    | [] => [part.reverse]
    | c :: rest =>
      if sep.isPrefixOf cs then part.reverse :: splitChars sep fuel [] (cs.drop sep.length)
      else splitChars sep fuel (c :: part) rest

def split (sep s : String) : List String :=
  (splitChars sep.toList (s.length + 1) [] s.toList).map String.ofList

def startsWith (s start : String) : Bool := start.toList.isPrefixOf s.toList

def holds (s part : String) : Bool := go part.toList s.toList
where
  go (part : List Char) : List Char → Bool
    | [] => part.isEmpty
    | c :: cs => part.isPrefixOf (c :: cs) || go part cs

def padRight (width : Nat) (s : String) : String := s ++ "".pushn ' ' (width - s.length)

def padLeft (width : Nat) (s : String) : String := "".pushn ' ' (width - s.length) ++ s

/-- A text in the middle of blanks, one more on its right if they are odd in number. -/
def padCentre (width : Nat) (s : String) : String :=
  let gap := width - s.length
  "".pushn ' ' (gap / 2) ++ s ++ "".pushn ' ' (gap - gap / 2)

end PacketSmith.Text
