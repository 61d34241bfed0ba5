import Clausal.Text.Class

/-!
# Blank characters

The characters that separate words: spaces of every width, tabs, and all characters that end a
line.
-/

namespace Clausal.Text

/-- Characters that leave a blank or end a line. -/
def blank : CharClass where
  ranges := [
    (9, 13), (28, 32), (133, 133), (160, 160), (5760, 5760), (8192, 8202), (8232, 8233),
    (8239, 8239), (8287, 8287), (12288, 12288)]

/-- Whether a character is blank. -/
def isBlank (c : Char) : Bool :=
  blank.contains c

end Clausal.Text
