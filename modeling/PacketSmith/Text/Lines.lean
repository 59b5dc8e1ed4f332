import PacketSmith.Text.Blank

/-!
# Lines of bounded length

Breaks a text between words into lines of at most a given length. A word that is longer stands alone on its line.
-/

namespace PacketSmith.Text

def fill (width : Int) : String → List String → List String
  | line, [] => if line.isEmpty then [] else [line]
  | line, word :: rest =>
    if (line.length : Int) + 1 + word.length > width then
      if line.isEmpty then word :: fill width "" rest else line :: fill width word rest
    else fill width (if line.isEmpty then word else line ++ " " ++ word) rest

def breakLines (width : Int) (s : String) : String := "\n".intercalate (fill width "" (words s))

end PacketSmith.Text
