import Clausal.Span
import Clausal.Text.Quoted

/-!
# Tokens

A token is a piece of source text with its kind and its place. Each line of a program ends in a
`newline` token and the whole in an `eof` token. Three classes of kinds steer the scanner: the
kinds that complete a value, after which a minus sign is a subtraction; the kinds that a line
cannot end on; and the literals.
-/

namespace Clausal

namespace Token

/-- The kinds of tokens. -/
inductive Kind where
  | integer
  | float
  | boolean
  | typeName
  | plus
  | minus
  | star
  | slash
  | equal
  | notEqual
  | assign
  | arrow
  | doubleColon
  | question
  | colon
  | lparen
  | rparen
  | newline
  | identifier
  | eof
deriving DecidableEq, Repr, Inhabited

namespace Kind

/-- The kind of a word: a keyword's own kind, or an identifier. -/
def ofWord : String → Kind
  | "true" => .boolean
  | "false" => .boolean
  | "int" => .typeName
  | "float" => .typeName
  | "bool" => .typeName
  | _ => .identifier

/-- Whether a token of this kind completes a value. -/
def completesValue : Kind → Bool
  | .identifier | .integer | .float | .boolean | .rparen => true
  | _ => false

/-- Whether a line that ends on this kind goes on with the next one. -/
def continuesLine : Kind → Bool
  | .plus | .minus | .star | .slash | .equal | .notEqual | .assign | .arrow | .doubleColon
  | .question | .colon | .lparen => true
  | _ => false

/-- Whether tokens of this kind are literals. -/
def isLiteral : Kind → Bool
  | .integer | .float | .boolean => true
  | _ => false

end Kind

end Token

/-- A piece of source text, its kind and its place. -/
structure Token where
  kind : Token.Kind
  text : String
  span : Span
deriving DecidableEq, Repr, Inhabited

/-- A token as messages name it: the end of a line or of the file, or the text in quotes. -/
def Token.describe (t : Token) : String :=
  match t.kind with
  | .newline => "end of line"
  | .eof => "end of file"
  | _ => String.ofList (Text.quoted t.text.toList)

end Clausal
