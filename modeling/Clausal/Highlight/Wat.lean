import Clausal.Highlight
import Clausal.Text.Blank

/-!
# Highlighting of module text

The categories of the text form of WebAssembly modules, as far as compiled programs use it.
-/

namespace Clausal.Highlight.Wat

/-- The words that are keywords before a character other than a small letter, an underscore or a
point. -/
def keywords : List String :=
  ["module", "import", "func", "funcref", "start", "param", "local", "type", "result", "export",
    "memory", "global", "mut", "data", "table", "elem", "if", "then", "else", "end", "block",
    "loop"]

/-- The names of instructions. A name that starts another one comes after it. -/
def instructions : List String :=
  ["call", "drop", "local.get", "i32.store8", "i32.store", "i32.const", "f32.const",
    "i32.eq", "i32.ne", "i32.add", "i32.sub", "i32.mul", "f32.eq", "f32.ne", "f32.add", "f32.sub",
    "f32.mul", "f32.div", "i32.div_s", "i32.div_u", "i32.rem_u", "i32.ge_u", "i32.lt_s", "i32.and"]

/-- Whether a word stands at the front of a text as a keyword. -/
def isKeyword (cs : List Char) (word : String) : Bool :=
  startsWith word cs &&
    (cs[word.length]?).any fun c => !(c.isLower || c = '_' || c = '.')

/-- Whether a character can stand in a reference to a name. -/
def isNameChar (c : Char) : Bool :=
  c.isAlphanum || "!#$%&'*+./:<=>?@\\^_`|~-".toList.contains c

/-- Digits, each with at most one underscore before it. -/
def moreDigits : List Char → List Char
  | '_' :: d :: cs => if d.isDigit then '_' :: d :: moreDigits cs else []
  | d :: cs => if d.isDigit then d :: moreDigits cs else []
  | [] => []

/-- An unsigned number: a digit, any one character and a digit, or just a digit, and then more
digits. -/
def unsigned? : List Char → Option (List Char)
  | a :: b :: d :: cs =>
    if a.isDigit then
      if b ≠ '\n' ∧ d.isDigit = true then some (a :: b :: d :: moreDigits cs)
      else some (a :: moreDigits (b :: d :: cs))
    else none
  | a :: cs => if a.isDigit then some (a :: moreDigits cs) else none
  | [] => none

/-- A number, with a sign or without. -/
def number? : List Char → Option (List Char)
  | '+' :: cs => (unsigned? cs).map ('+' :: ·)
  | '-' :: cs => (unsigned? cs).map ('-' :: ·)
  | cs => unsigned? cs

/-- A text in double quotes: the quotes and what stands between them are pieces of their own. -/
def quotation (cs : List Char) : List Piece :=
  let inner := cs.takeWhile (· ≠ '"')
  let opened := ⟨.string, ['"']⟩ :: if inner.isEmpty then [] else [⟨.string, inner⟩]
  if cs.contains '"' then opened ++ [⟨.string, ['"']⟩] else opened

/-- The rules for module text. -/
def rules : Rules := fun _ c cs =>
  match keywords.find? (isKeyword (c :: cs)) with
  | some word => [⟨.keyword, word.toList⟩]
  | none =>
    match instructions.find? fun word => startsWith word (c :: cs) with
    | some word => [⟨.builtin, word.toList⟩]
    | none =>
      if startsWith "i32" (c :: cs) || startsWith "f32" (c :: cs) then
        [⟨.typeName, (c :: cs).take 3⟩]
      else if c = '$' ∧ cs.head?.any isNameChar = true then
        [⟨.variable, c :: cs.takeWhile isNameChar⟩]
      else match number? (c :: cs) with
        | some text => [⟨.number, text⟩]
        | none =>
          if c = '(' ∨ c = ')' then [⟨.punctuation, [c]⟩]
          else if c = '"' then quotation cs
          else if Text.isBlank c then [⟨.text, c :: cs.takeWhile Text.isBlank⟩]
          else [⟨.error, [c]⟩]

end Clausal.Highlight.Wat
