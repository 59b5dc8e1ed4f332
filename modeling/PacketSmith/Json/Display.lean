import PacketSmith.Decimal.Shortest
import PacketSmith.Json.Basic
import PacketSmith.Text.Integer

/-!
# Values in messages

A text shows as it is, or in quotes where it stands inside another value. The absent value is `None`, and the truth
values are `True` and `False`.
-/

/-! ## Quoted texts

Single quotes enclose a text, or double quotes if it holds a single quote and no double one. A character that cannot
be printed is written by its code.
-/

namespace PacketSmith.Text

/-- Whether a character beyond ASCII has no printed form: controls, formats, separators, private
and unassigned characters. -/
def isUnprintable (n : Nat) : Bool :=
  (0x7f ≤ n && n ≤ 0xa0) || n == 0xad || n == 0x378 || n == 0x379 ||
    (0x600 ≤ n && n ≤ 0x605) || n == 0x61c || n == 0x6dd || n == 0x70f || n == 0x1680 ||
    n == 0x180e || (0x2000 ≤ n && n ≤ 0x200f) || (0x2028 ≤ n && n ≤ 0x202f) ||
    (0x205f ≤ n && n ≤ 0x206f) || n == 0x3000 || (0xd800 ≤ n && n ≤ 0xf8ff) || n == 0xfeff ||
    (0xfff0 ≤ n && n ≤ 0xfffb) || (0xfffe ≤ n && n ≤ 0xffff) || (0xe0000 ≤ n && n ≤ 0xe0fff) ||
    0xf0000 ≤ n

def quoteChar (quote c : Char) : String :=
  if c = quote || c = '\\' then "\\".push c
  else if c = '\n' then "\\n"
  else if c = '\r' then "\\r"
  else if c = '\t' then "\\t"
  else
    let n := c.toNat
    if n < 0x20 || n == 0x7f then "\\x" ++ zeroFill 2 (hexDigits n)
    else if isUnprintable n then
      if n < 0x100 then "\\x" ++ zeroFill 2 (hexDigits n)
      else if n < 0x10000 then "\\u" ++ zeroFill 4 (hexDigits n)
      else "\\U" ++ zeroFill 8 (hexDigits n)
    else c.toString

def quoted (s : String) : String :=
  let cs := s.toList
  let quote := if cs.contains '\'' && !cs.contains '"' then '"' else '\''
  let body := cs.foldl (fun acc c => acc ++ quoteChar quote c) ""
  (quote.toString ++ body).push quote

end PacketSmith.Text

namespace PacketSmith

namespace Json

mutual

def inner : Json → String
  | .null => "None"
  | .bool b => if b then "True" else "False"
  | .int n => toString n
  | .float x => Decimal.text x
  | .str s => Text.quoted s
  | .arr elems => "[" ++ innerElements elems ++ "]"
  | .obj members => "OrderedDict(" ++ (if members.isEmpty then "" else "[" ++ innerMembers members ++ "]") ++ ")"

def innerElements : List Json → String
  | [] => ""
  | [v] => inner v
  | v :: w :: rest => inner v ++ ", " ++ innerElements (w :: rest)

def innerMembers : List (String × Json) → String
  | [] => ""
  | [(k, v)] => "(" ++ Text.quoted k ++ ", " ++ inner v ++ ")"
  | (k, v) :: m :: rest =>
    "(" ++ Text.quoted k ++ ", " ++ inner v ++ "), " ++ innerMembers (m :: rest)

end

def display : Json → String
  | .str s => s
  | v => v.inner

end Json

namespace Label

def inner (l : Label) : String := l.toJson.inner

def display (l : Label) : String := l.toJson.display

end Label

end PacketSmith
