import PacketSmith.Text.Blank

/-!
# Integers in texts

Blanks around the number do not count, other than the four separators of ASCII. A sign may stand in front, and a single
underscore may stand between two digits, which may be those of any script.
-/

/-! ## Decimal digits

The characters that stand for a decimal digit. Each script that has digits of its own has ten of them in a row, zero
first, so the table lists the zeros.
-/

namespace PacketSmith.Text

def zeros : List Nat := [
  0x660, 0x6f0, 0x7c0, 0x966, 0x9e6, 0xa66, 0xae6, 0xb66, 0xbe6, 0xc66, 0xce6, 0xd66, 0xde6, 0xe50,
  0xed0, 0xf20, 0x1040, 0x1090, 0x17e0, 0x1810, 0x1946, 0x19d0, 0x1a80, 0x1a90, 0x1b50, 0x1bb0,
  0x1c40, 0x1c50, 0xa620, 0xa8d0, 0xa900, 0xa9d0, 0xa9f0, 0xaa50, 0xabf0, 0xff10, 0x104a0, 0x10d30,
  0x11066, 0x110f0, 0x11136, 0x111d0, 0x112f0, 0x11450, 0x114d0, 0x11650, 0x116c0, 0x11730, 0x118e0,
  0x11950, 0x11c50, 0x11d50, 0x11da0, 0x16a60, 0x16ac0, 0x16b50, 0x1d7ce, 0x1d7d8, 0x1d7e2, 0x1d7ec,
  0x1d7f6, 0x1e140, 0x1e2f0, 0x1e950, 0x1fbf0]

def plainDigit (c : Char) : Char :=
  let n := c.toNat
  if n < 0x80 then c
  else match zeros.find? fun z => z ≤ n && n < z + 10 with
    | some z => Char.ofNat ('0'.toNat + (n - z))
    | none => c

def digit? (c : Char) : Option Nat :=
  if '0' ≤ c && c ≤ '9' then some (c.toNat - '0'.toNat)
  else if 'a' ≤ c && c ≤ 'z' then some (c.toNat - 'a'.toNat + 10)
  else if 'A' ≤ c && c ≤ 'Z' then some (c.toNat - 'A'.toNat + 10)
  else none

def digitRun (base : Nat) : Bool → Nat → List Char → Option Nat
  | closed, acc, [] => if closed then some acc else none
  | closed, acc, c :: cs =>
    if c = '_' then if closed then digitRun base false acc cs else none
    else
      match digit? c with
      | some d => if d < base then digitRun base true (acc * base + d) cs else none
      | none => none

def digitsAfterMark (base : Nat) : List Char → Option Nat
  | '_' :: cs => digitRun base false 0 cs
  | cs => digitRun base false 0 cs

def decimal? (cs : List Char) : Option Nat := digitRun 10 false 0 cs

def hexadecimal? : List Char → Option Nat
  | '0' :: 'x' :: cs | '0' :: 'X' :: cs => digitsAfterMark 16 cs
  | cs => digitRun 16 false 0 cs

def marked? : List Char → Option Nat
  | '0' :: 'x' :: cs | '0' :: 'X' :: cs => digitsAfterMark 16 cs
  | '0' :: 'o' :: cs | '0' :: 'O' :: cs => digitsAfterMark 8 cs
  | '0' :: 'b' :: cs | '0' :: 'B' :: cs => digitsAfterMark 2 cs
  | '0' :: cs =>
    match decimal? ('0' :: cs) with
    | some 0 => some 0
    | _ => none
  | cs => decimal? cs

/-- The blanks that may stand around a number. -/
def isPadding (c : Char) : Bool := isBlank c && !(0x1c ≤ c.toNat && c.toNat ≤ 0x1f)

def signed? (read : List Char → Option Nat) (s : String) : Option Int :=
  match (trimBy isPadding s.toList).map plainDigit with
  | '-' :: cs => (read cs).map fun n => -(n : Int)
  | '+' :: cs => (read cs).map Int.ofNat
  | cs => (read cs).map Int.ofNat

def int? (s : String) : Option Int := signed? decimal? s

def hexInt? (s : String) : Option Int := signed? hexadecimal? s

def markedInt? (s : String) : Option Int := signed? marked? s

def hexDigits (n : Nat) : String := String.ofList (Nat.toDigits 16 n)

def hex (n : Int) : String := if n < 0 then "-0x" ++ hexDigits n.natAbs else "0x" ++ hexDigits n.natAbs

def zeroFill (width : Nat) (s : String) : String := "".pushn '0' (width - s.length) ++ s

end PacketSmith.Text
