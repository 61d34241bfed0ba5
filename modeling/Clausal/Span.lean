/-!
# Places in a source text

A `Position` is a line and a column, both counted from one; columns count characters and only a
line feed starts a new line. A `Span` is a range of characters of a named file, its last
character included. Spans are also handed in from outside, so their numbers are integers and
nothing about their order is assumed.
-/

namespace Clausal

/-- A line and a column of a text, both counted from one. -/
structure Position where
  line : Nat := 1
  col : Nat := 1
deriving DecidableEq, Repr, Inhabited

namespace Position

/-- The position after one more character. -/
def step (p : Position) (c : Char) : Position :=
  if c = '\n' then ⟨p.line + 1, 1⟩ else ⟨p.line, p.col + 1⟩

/-- The position after all the characters of a text. -/
def advance (p : Position) (cs : List Char) : Position :=
  cs.foldl step p

@[simp] theorem advance_nil (p : Position) : p.advance [] = p := rfl

@[simp] theorem advance_cons (p : Position) (c : Char) (cs : List Char) :
    p.advance (c :: cs) = (p.step c).advance cs := rfl

theorem advance_append (p : Position) (cs ds : List Char) :
    p.advance (cs ++ ds) = (p.advance cs).advance ds := by
  simp [advance]

end Position

/-- A range of characters of a file, from its first to its last. -/
structure Span where
  file : String
  startLine : Int
  startCol : Int
  endLine : Int
  endCol : Int
deriving DecidableEq, Repr, Inhabited

namespace Span

/-- The span from the start of one span to the end of another. -/
def upTo (first last : Span) : Span :=
  { first with endLine := last.endLine, endCol := last.endCol }

/-- The one-character span at a position. -/
def single (file : String) (p : Position) : Span :=
  ⟨file, p.line, p.col, p.line, p.col⟩

/-- The span of characters read between two positions: it ends at the column before the second
one, and at the first column where there is none before it. -/
def between (file : String) (start stop : Position) : Span :=
  ⟨file, start.line, start.col, stop.line, max 1 (stop.col - 1)⟩

/-- The place a span starts at, as messages show it. -/
def place (s : Span) : String :=
  s.file ++ ":" ++ toString s.startLine ++ ":" ++ toString s.startCol

@[simp] theorem upTo_file (a b : Span) : (a.upTo b).file = a.file := rfl

@[simp] theorem upTo_self (a : Span) : a.upTo a = a := rfl

end Span

end Clausal
