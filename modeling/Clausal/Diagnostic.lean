import Clausal.Span

/-!
# Diagnostics

What a compilation has to say about a program: a severity, a code, a message, labels that point
into source texts, and notes.
-/

namespace Clausal

/-- How serious a diagnostic is. -/
inductive Severity where
  | error
  | warning
  | note
deriving DecidableEq, Repr, Inhabited

/-- The word for a severity. -/
def Severity.name : Severity → String
  | .error => "error"
  | .warning => "warning"
  | .note => "note"

/-- Points at a place in a source text, with a message of its own. -/
structure Label where
  span : Span
  message : String := ""
deriving DecidableEq, Repr, Inhabited

/-- One message to the programmer. -/
structure Diagnostic where
  severity : Severity
  code : String
  message : String
  labels : List Label := []
  notes : List String := []
deriving DecidableEq, Repr, Inhabited

namespace Diagnostic

/-- A diagnostic with at most one label, which has no message of its own. -/
def about (severity : Severity) (code message : String) (span : Option Span) : Diagnostic :=
  { severity, code, message, labels := (span.map fun s => { span := s }).toList }

/-- An error, pointing at a place if there is one. -/
def error (code message : String) (span : Option Span) : Diagnostic :=
  about .error code message span

/-- A warning, pointing at a place if there is one. -/
def warning (code message : String) (span : Option Span) : Diagnostic :=
  about .warning code message span

/-- One message for several diagnostics: how many there are, and their messages. -/
def summary (ds : List Diagnostic) : String :=
  toString ds.length ++ " error(s): " ++ "; ".intercalate (ds.map (·.message))

end Diagnostic

end Clausal
