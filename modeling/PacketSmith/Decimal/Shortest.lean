/-!
# The shortest decimal of a floating point number

A finite number is `m * 2 ^ q`. The reals that round to it form an interval, whose ends belong to it when `m` is even.
-/

namespace PacketSmith.Decimal

structure Binary where
  m : Nat
  q : Int
  narrowBelow : Bool

def decode (x : Float) : Bool × Binary :=
  let bits := x.toBits.toNat
  let negative := bits / Nat.pow 2 63 == 1
  let expo : Nat := bits / Nat.pow 2 52 % Nat.pow 2 11
  let frac : Nat := bits % Nat.pow 2 52
  if expo == 0 then (negative, ⟨frac, -1074, false⟩)
  else (negative, ⟨Nat.pow 2 52 + frac, (expo : Int) - 1075, frac == 0 && expo != 1⟩)

def scale (b : Nat) (e : Int) (r : Nat × Nat) : Nat × Nat :=
  if e ≥ 0 then (r.1 * Nat.pow b e.toNat, r.2) else (r.1, r.2 * Nat.pow b (-e).toNat)

def below (orEqual : Bool) (a b : Nat × Nat) : Bool :=
  if orEqual then a.1 * b.2 ≤ b.1 * a.2 else a.1 * b.2 < b.1 * a.2

def magnitude (r : Nat × Nat) : Nat → Int → Int
  | 0, e => e
  | fuel + 1, e =>
    if below true (scale 10 e (1, 1)) r then e else magnitude r fuel (e - 1)

def shortest (b : Binary) : Nat × Int :=
  let v := scale 2 b.q (b.m, 1)
  let low := scale 2 (b.q - 2) (if b.narrowBelow then 4 * b.m - 1 else 4 * b.m - 2, 1)
  let high := scale 2 (b.q - 2) (4 * b.m + 2, 1)
  let even := b.m % 2 == 0
  let top := magnitude v 700 310
  let inside (d : Nat) (k : Int) : Bool :=
    let c := scale 10 k (d, 1)
    below even low c && below even c high
  let rec search : Nat → Nat → Nat × Int
    | 0, n =>
      let k := top - (n : Int) + 1
      let s := scale 10 (-k) v
      (s.1 / s.2, k)
    | fuel + 1, n =>
      let k := top - (n : Int) + 1
      let s := scale 10 (-k) v
      let d := s.1 / s.2
      match inside d k, inside (d + 1) k with
      | true, false => (d, k)
      | false, true => (d + 1, k)
      | true, true =>
        let twice := 2 * (s.1 % s.2)
        if twice < s.2 then (d, k)
        else if twice > s.2 then (d + 1, k)
        else if d % 2 == 0 then (d, k) else (d + 1, k)
      | false, false => search fuel (n + 1)
  search 17 1

/-- How numbers are written: positionally for exponents from -4 up to 15, with `.0` after a whole
number, and otherwise with a signed exponent of at least two digits. -/
def layout (digits : Nat) (last : Int) : String :=
  let stripped := strip 20 digits last
  let text := toString stripped.1
  let n : Int := text.length
  let point := n + stripped.2
  if -4 < point && point ≤ 16 then
    if stripped.2 ≥ 0 then text ++ "".pushn '0' stripped.2.toNat ++ ".0"
    else if point > 0 then (text.take point.toNat).toString ++ "." ++ (text.drop point.toNat).toString
    else "0." ++ "".pushn '0' (-point).toNat ++ text
  else
    let expo := point - 1
    let mantissa :=
      if text.length == 1 then text else (text.take 1).toString ++ "." ++ (text.drop 1).toString
    let size := toString expo.natAbs
    let padded := if size.length < 2 then "0" ++ size else size
    mantissa ++ "e" ++ (if expo < 0 then "-" else "+") ++ padded
where
  strip : Nat → Nat → Int → Nat × Int
    | 0, d, k => (d, k)
    | fuel + 1, d, k => if d != 0 && d % 10 == 0 then strip fuel (d / 10) (k + 1) else (d, k)

def text (x : Float) : String :=
  if x.isNaN then "nan"
  else
    let (negative, b) := decode x
    let sign := if negative then "-" else ""
    if x.isInf then sign ++ "inf"
    else if b.m == 0 then sign ++ "0.0"
    else
      let (d, k) := shortest b
      sign ++ layout d k

end PacketSmith.Decimal
