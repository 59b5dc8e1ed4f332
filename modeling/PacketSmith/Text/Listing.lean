import PacketSmith.Text.Blank

/-!
# Names in columns

Names are laid out in columns that are read from top to bottom, with two blanks between them, in the fewest lines that
fit a width.
-/

namespace PacketSmith.Text

def pieces {α : Type} (n : Nat) (l : List α) : List (List α) :=
  if _h : n = 0 ∨ l = [] then []
  else l.take n :: pieces n (l.drop n)
termination_by l.length
decreasing_by
  have : 0 < l.length := List.length_pos_iff.mpr fun e => _h (.inr e)
  have : n ≠ 0 := fun e => _h (.inl e)
  simp only [List.length_drop]
  omega

def columnWidth (column : List String) : Nat := (column.map String.length).foldl max 0

def widthOf (columns : List (List String)) : Nat := (columns.map fun c => columnWidth c + 2).foldl (· + ·) 0 - 2

def lineOf (columns : List (List String)) (row : Nat) : String :=
  "  ".intercalate (columns.filterMap fun cells => (cells[row]?).map (padRight (columnWidth cells)))

def listing (width : Nat) (names : List String) : List String :=
  match (List.range names.length).find? fun n =>
      0 < n && decide (widthOf (pieces n names) ≤ width) with
  | some rows => (List.range rows).map (lineOf (pieces rows names))
  | none => names

end PacketSmith.Text
