import Clausal.Text.Lines

/-!
# Highlighting

Text is cut into pieces, each of a category, and written with a colour for every category that has
one. The rules that cut a text belong to its language; `Highlight.pieces` applies them from the
front of the text to its end.
-/

namespace Clausal.Highlight

/-- What a piece of text is. -/
inductive Category where
  | text
  | comment
  | keyword
  | constant
  | typeName
  | function
  | name
  | builtin
  | variable
  | integer
  | float
  | number
  | string
  | operator
  | punctuation
  | error
deriving DecidableEq, Repr, Inhabited

/-- The terminal escape that turns on the colour of a category; nothing for a category without
colour. -/
def Category.colour? : Category → Option (List Char)
  | .comment => some "\x1b[37m".toList
  | .keyword | .constant | .integer | .float | .number => some "\x1b[34m".toList
  | .typeName | .builtin => some "\x1b[36m".toList
  | .function => some "\x1b[32m".toList
  | .variable => some "\x1b[31m".toList
  | .string => some "\x1b[33m".toList
  | .error => some "\x1b[04m\x1b[91m".toList
  | .text | .name | .operator | .punctuation => none

/-- The terminal escape that turns colours off. -/
def plainEscape : List Char := "\x1b[39;49;00m".toList

/-- A piece of text and what it is. -/
structure Piece where
  category : Category
  text : List Char
deriving DecidableEq, Repr, Inhabited

/-- The rules of a language: the pieces at the front of `c :: cs`, given the character before it.
A rule that gives no characters is taken to give one. -/
abbrev Rules := Option Char → (c : Char) → (cs : List Char) → List Piece

/-- Cuts a whole text by the rules of its language. -/
def pieces (rules : Rules) (before : Option Char) : List Char → List Piece
  | [] => []
  | c :: cs =>
    let front := rules before c cs
    let size := (front.flatMap (·.text)).length
    front ++ pieces rules (c :: cs)[size - 1]? (cs.drop (size - 1))
termination_by cs => cs.length
decreasing_by exact Nat.lt_succ_of_le (List.drop_suffix _ _).length_le

/-- A text made ready: without a byte order mark, with all line breaks as line feeds, without empty
lines at its two ends, and ended by a line feed. -/
def prepare (cs : List Char) : List Char :=
  let unmarked := match cs with
    | '\ufeff' :: rest => rest
    | cs => cs
  let unified := Text.unifyBreaks unmarked
  let isLineFeed := fun c => c = '\n'
  let stripped := ((unified.dropWhile isLineFeed).reverse.dropWhile isLineFeed).reverse
  stripped ++ ['\n']

/-- One line of a piece in a colour; the line feed at its end stays outside. -/
def colouredLine (colour : List Char) (line : List Char) : List Char :=
  if line.getLast? = some '\n' then colour ++ line.dropLast ++ plainEscape ++ ['\n']
  else colour ++ line ++ plainEscape

/-- A piece as it is written to a terminal. -/
def Piece.write (p : Piece) : List Char :=
  match p.category.colour? with
  | none => p.text
  | some colour => (Text.linesWithBreaks p.text).flatMap (colouredLine colour)

/-- The pieces of a text of a language, after it was made ready. -/
def cut (rules : Rules) (text : String) : List Piece :=
  pieces rules none (prepare text.toList)

/-- A text of a language as it is written to a terminal. -/
def write (rules : Rules) (text : String) : String :=
  String.ofList ((cut rules text).flatMap Piece.write)

/-- Whether a text starts with a word. -/
def startsWith (word : String) (cs : List Char) : Bool :=
  word.toList.isPrefixOf cs

end Clausal.Highlight
