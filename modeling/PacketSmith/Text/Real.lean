import PacketSmith.Text.Integer

/-!
# Real numbers in texts

Digits stand before or after a point, or both, an exponent may follow, and a single underscore may stand between two
digits. The words `inf`, `infinity` and `nan` are numbers in any case of their letters.
-/

namespace PacketSmith.Text

def joinDigits? : Bool → List Char → Option (List Char)
  | _, [] => some []
  | afterDigit, '_' :: c :: cs =>
    if afterDigit && c.isDigit then (joinDigits? true cs).map (c :: ·) else none
  | _, ['_'] => none
  | _, c :: cs => (joinDigits? c.isDigit cs).map (c :: ·)

def spanDigits (cs : List Char) : List Char × List Char := (cs.takeWhile Char.isDigit, cs.dropWhile Char.isDigit)

def digitsValue (ds : List Char) : Nat := ds.foldl (fun n c => n * 10 + (c.toNat - '0'.toNat)) 0

def exponent? : List Char → Option Int
  | [] => some 0
  | c :: cs =>
    if c = 'e' || c = 'E' then
      let (negative, ds) := match cs with
        | '-' :: ds => (true, ds)
        | '+' :: ds => (false, ds)
        | ds => (false, ds)
      if ds.isEmpty || !ds.all Char.isDigit then none
      else some (if negative then -(digitsValue ds : Int) else digitsValue ds)
    else none

/-- A real number without sign. An exponent far beyond the range of numbers is cut, which leaves the
number infinite or zero. -/
def magnitude? (cs : List Char) : Option Float :=
  let word := (String.ofList cs).toLower
  if word == "inf" || word == "infinity" then some (1.0 / 0.0)
  else if word == "nan" then some (0.0 / 0.0)
  else do
    let cs ← joinDigits? false cs
    let (whole, rest) := spanDigits cs
    let (fraction, rest) := match rest with
      | '.' :: rest => spanDigits rest
      | rest => ([], rest)
    if whole.isEmpty && fraction.isEmpty then none
    else
      let most : Int := whole.length + fraction.length + 1000
      let e := max (-most) (min most ((← exponent? rest) - fraction.length))
      some (Float.ofScientific (digitsValue (whole ++ fraction)) (e < 0) e.natAbs)

def real? (s : String) : Option Float :=
  match (trimBy isPadding s.toList).map plainDigit with
  | '-' :: cs => (magnitude? cs).map fun x => -x
  | '+' :: cs => magnitude? cs
  | cs => magnitude? cs

end PacketSmith.Text
