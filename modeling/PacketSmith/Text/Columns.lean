import PacketSmith.Text.Blank

/-!
# Text in columns

The cells of a column end below each other, and a blank is in front of each. A row that is too short is filled up with
empty cells.
-/

namespace PacketSmith.Text

def widen : List Nat → List String → List Nat
  | ws, [] => ws
  | [], cells => cells.map String.length
  | w :: ws, c :: cells => max w c.length :: widen ws cells

def columnWidths (rows : List (List String)) : List Nat := rows.foldl widen []

def columnLine : List Nat → List String → String
  | [], _ => "\n"
  | w :: ws, [] => padLeft (w + 1) "" ++ columnLine ws []
  | w :: ws, c :: cells => padLeft (w + 1) c ++ columnLine ws cells

def columns (rows : List (List String)) : String :=
  let widths := columnWidths rows
  String.join (rows.map fun row => "\t" ++ columnLine widths row)

end PacketSmith.Text
