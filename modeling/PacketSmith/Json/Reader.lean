import PacketSmith.Json.Basic
import PacketSmith.Text.Integer

/-!
# Reading JSON

A reader takes what it reads off the front of the text. Values nest, so the reader of values is bounded by the number
of characters that are left.
-/

namespace PacketSmith.Json

abbrev Reader := StateT (List Char) Option

namespace Reader

def blanks : Reader Unit := modify (·.dropWhile fun c => c = ' ' || c = '\t' || c = '\n' || c = '\r')

def next : Reader Char
  | [] => none
  | c :: cs => some (c, cs)

def expect (c : Char) : Reader Unit := do guard ((← next) = c)

def accepts (c : Char) : Reader Bool := (do expect c; return true) <|> return false

def word (v : Json) (s : String) : Reader Json := do
  s.toList.forM expect
  return v

/-! ## Strings -/

def unit? (a b c d : Char) : Option Nat := do
  let digit (x : Char) : Option Nat := (Text.digit? x).filter (· < 16)
  return (((← digit a) * 16 + (← digit b)) * 16 + (← digit c)) * 16 + (← digit d)

/-- The rest of a string, after the characters that were read. -/
def string (acc : List Char) : Reader String
  | [] => none
  | '"' :: rest => some (String.ofList acc.reverse, rest)
  | '\\' :: 'u' :: a :: b :: c :: d :: '\\' :: 'u' :: e :: f :: g :: h :: rest => do
    let hi ← unit? a b c d
    match unit? e f g h with
    | some lo =>
      if 0xd800 ≤ hi && hi < 0xdc00 && 0xdc00 ≤ lo && lo < 0xe000 then
        string (Char.ofNat (0x10000 + (hi - 0xd800) * 0x400 + (lo - 0xdc00)) :: acc) rest
      else string (Char.ofNat hi :: acc) ('\\' :: 'u' :: e :: f :: g :: h :: rest)
    | none => string (Char.ofNat hi :: acc) ('\\' :: 'u' :: e :: f :: g :: h :: rest)
  | '\\' :: 'u' :: a :: b :: c :: d :: rest => do string (Char.ofNat (← unit? a b c d) :: acc) rest
  | '\\' :: c :: rest => do string ((← (('/', '/') :: escapes).lookup c) :: acc) rest
  | c :: rest => if c.toNat < 0x20 then none else string (c :: acc) rest
termination_by cs => cs.length

/-! ## Numbers -/

def digits : Reader (List Char) := fun cs =>
  let ds := cs.takeWhile Char.isDigit
  if ds.isEmpty then none else some (ds, cs.dropWhile Char.isDigit)

def natOf (ds : List Char) : Nat := ds.foldl (fun n c => n * 10 + (c.toNat - '0'.toNat)) 0

def exponent : Reader Int := do
  guard ("eE".toList.contains (← next))
  if ← accepts '-' then return -natOf (← digits)
  let _ ← accepts '+'
  return natOf (← digits)

def number : Reader Json := do
  let negative ← accepts '-'
  let whole ← (do expect '0'; return ['0']) <|> digits
  let fraction ← (do expect '.'; digits) <|> return []
  let expo ← some <$> exponent <|> return none
  let n := natOf (whole ++ fraction)
  if fraction.isEmpty && expo.isNone then return .int (if negative then -n else n)
  let e : Int := expo.getD 0 - fraction.length
  let x := Float.ofScientific n (e < 0) e.natAbs
  return .float (if negative then -x else x)

/-! ## Values -/

mutual

def value : Nat → Reader Json
  | 0 => failure
  | fuel + 1 => do
    match ← getThe (List Char) with
    | '"' :: rest =>
      set rest
      return .str (← string [])
    | '[' :: rest =>
      set rest
      blanks
      if ← accepts ']' then return .arr [] else elements fuel []
    | '\x7b' :: rest =>
      set rest
      blanks
      if ← accepts '\x7d' then return .obj [] else members fuel []
    | _ =>
      word .null "null" <|> word (.bool true) "true" <|> word (.bool false) "false" <|>
        word (.float (0.0 / 0.0)) "NaN" <|> word (.float (1.0 / 0.0)) "Infinity" <|>
        word (.float (-1.0 / 0.0)) "-Infinity" <|> number

def elements : Nat → List Json → Reader Json
  | 0, _ => failure
  | fuel + 1, acc => do
    let acc := (← value fuel) :: acc
    blanks
    match ← next with
    | ',' =>
      blanks
      elements fuel acc
    | ']' => return .arr acc.reverse
    | _ => failure

def members : Nat → List (String × Json) → Reader Json
  | 0, _ => failure
  | fuel + 1, acc => do
    expect '"'
    let name ← string []
    blanks
    expect ':'
    blanks
    let acc := (name, ← value fuel) :: acc
    blanks
    match ← next with
    | ',' =>
      blanks
      members fuel acc
    | '\x7d' => return ofMembers acc.reverse
    | _ => failure

end

end Reader

def parse? (text : String) : Option Json := do
  let read : Reader Json := do
    Reader.blanks
    let v ← Reader.value (2 * text.length + 2)
    Reader.blanks
    guard (← getThe (List Char)).isEmpty
    return v
  return (← read text.toList).1

end PacketSmith.Json
