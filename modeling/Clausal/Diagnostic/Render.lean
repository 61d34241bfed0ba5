import Clausal.Assoc
import Clausal.Diagnostic
import Clausal.Text.Lines
import Clausal.Text.Run

/-!
# Rendered diagnostics

A diagnostic is shown as rows of text: a header with severity, code and message; for every label
the place it points at, an excerpt of the source with carets under the characters in question, and
the label's own message; and the notes. Colour wraps parts of a row in terminal escapes and changes
nothing else. The columns of a label may be any numbers; `Diagnostic.checkWidth` tells whether there
are runs of blanks and carets for them, as there are for places in a text that fits into memory.
-/

namespace Clausal

/-- What a renderer knows of the sources: the lines of each file, and no lines of a file that is
not known. -/
abbrev Excerpts := String → List (List Char)

/-- The lines that source texts are shown in, from a list of file names and texts. -/
def Excerpts.ofSources (sources : Assoc (List Char)) : Excerpts := fun file =>
  match sources.value? file with
  | some text => Text.lines text
  | none => []

/-- The line of a file with a given number, counted from one. -/
def Excerpts.line? (x : Excerpts) (file : String) (n : Int) : Option (List Char) :=
  if 1 ≤ n then (x file)[(n - 1).toNat]? else none

namespace Render

/-- The colours and weights that are used. -/
inductive Style where
  | severity (s : Severity)
  | bold
  | frame
deriving DecidableEq, Repr, Inhabited

/-- The terminal escape that turns a style on. -/
def Style.escape : Style → List Char
  | .severity .error => "\x1b[1;31m".toList
  | .severity .warning => "\x1b[1;33m".toList
  | .severity .note => "\x1b[1;36m".toList
  | .bold => "\x1b[1m".toList
  | .frame => "\x1b[1;34m".toList

/-- The terminal escape that turns all styles off. -/
def resetEscape : List Char := "\x1b[0m".toList

/-- A text in a style, or plain if there is no colour. -/
def paint (color : Bool) (style : Style) (text : List Char) : List Char :=
  if color then style.escape ++ text ++ resetEscape else text

/-- A row of the frame: two blanks, a mark in the colour of the frame, and what follows it. -/
def framed (color : Bool) (mark : List Char) (text : List Char) : List Char :=
  [' ', ' '] ++ paint color .frame mark ++ text

/-- The mark before rows without a line number. -/
def bar : List Char := [' ', ' ', ' ', '|']

/-- The mark before an excerpt: the line number in at least four places. -/
def numbered (n : Int) : List Char :=
  (toString n).toList.leftpad 4 ' ' ++ [' ', '|']

/-- The row that shows a line of source text. -/
def excerptRow (color : Bool) (n : Int) (text : List Char) : List Char :=
  framed color (numbered n) (' ' :: text)

/-- How many blanks stand before the carets of a span. -/
def paddingLength (span : Span) : Int :=
  max 0 (span.startCol - 1)

/-- How many carets a span has. -/
def caretLength (span : Span) : Int :=
  max 1 (span.endCol - span.startCol + 1)

/-- The row of carets under the columns of a span. -/
def caretRow (color : Bool) (s : Severity) (span : Span) : List Char :=
  let padding := List.replicate (paddingLength span).toNat ' '
  let carets := List.replicate (caretLength span).toNat '^'
  framed color bar (' ' :: padding ++ paint color (.severity s) carets)

/-- Makes sure that the row of carets of a span can be written, if it has one. -/
def checkCarets (room : Int) (x : Excerpts) (span : Span) : Except Text.RunFault Unit := do
  if (x.line? span.file span.startLine).isSome ∧ span.startLine = span.endLine then
    Text.checkRun room (paddingLength span)
    Text.checkRun room (caretLength span)

/-- The excerpt of a span, with carets if the span stays on one line; nothing for a line that is
not there. -/
def excerptRows (color : Bool) (x : Excerpts) (s : Severity) (span : Span) : List (List Char) :=
  match x.line? span.file span.startLine with
  | none => []
  | some text =>
    excerptRow color span.startLine text ::
      if span.startLine = span.endLine then [caretRow color s span] else []

/-- The rows of a label. -/
def labelRows (color : Bool) (x : Excerpts) (s : Severity) (l : Label) : List (List Char) :=
  [framed color ['-', '-', '>'] (' ' :: l.span.place.toList), framed color bar []] ++
    excerptRows color x s l.span ++
    if l.message = "" then []
    else [framed color bar
      ([' ', ' ', ' '] ++ paint color (.severity s) l.message.toList)]

/-- The first row of a diagnostic. -/
def headerRow (color : Bool) (d : Diagnostic) : List Char :=
  paint color (.severity d.severity) (d.severity.name ++ "[" ++ d.code ++ "]").toList ++
    paint color .bold (": " ++ d.message).toList

/-- The row of a note. -/
def noteRow (color : Bool) (note : String) : List Char :=
  framed color ['='] (" note: " ++ note).toList

/-- All rows of a diagnostic. -/
def rows (color : Bool) (x : Excerpts) (d : Diagnostic) : List (List Char) :=
  headerRow color d :: d.labels.flatMap (labelRows color x d.severity) ++
    d.notes.map (noteRow color)

end Render

/-- A diagnostic as text, its rows separated by line feeds. -/
def Diagnostic.render (color : Bool) (x : Excerpts) (d : Diagnostic) : String :=
  String.ofList (['\n'].intercalate (Render.rows color x d))

/-- Makes sure that all rows of a diagnostic can be written. -/
def Diagnostic.checkWidth (room : Int) (x : Excerpts) (d : Diagnostic) :
    Except Text.RunFault Unit :=
  d.labels.forM fun l => Render.checkCarets room x l.span

end Clausal
