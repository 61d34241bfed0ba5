import Clausal.Highlight
import Clausal.Text.Blank
import Clausal.Text.Word
import Clausal.Token.Scan

/-!
# Highlighting of programs

The categories follow the look of a text and not its grammar: a name is that of a function where it
starts a line or stands before a double colon.
-/

namespace Clausal.Highlight.Source

open Token (isNameStart isNameChar)

/-- Whether a keyword stands at the front of a text as a word of its own. -/
def isKeyword (before : Option Char) (cs : List Char) (word : String) : Bool :=
  startsWith word cs && !before.any Text.isWord && !(cs[word.length]?).any Text.isWord

/-- The keyword of a list that stands at the front of a text. -/
def keyword? (before : Option Char) (cs : List Char) (words : List String) : Option (List Char) :=
  (words.find? (isKeyword before cs)).map String.toList

/-- A name at the front of `c :: cs` with a double colon after it, if that is what stands there. -/
def signatureHead? (c : Char) (cs : List Char) : Option (List Piece) :=
  if isNameStart c then
    let name := c :: cs.takeWhile isNameChar
    let after := cs.dropWhile isNameChar
    let gap := after.takeWhile Text.isBlank
    if startsWith "::" (after.dropWhile Text.isBlank) then
      some (⟨.function, name⟩ :: (if gap.isEmpty then [] else [⟨.text, gap⟩]) ++
        [⟨.punctuation, [':', ':']⟩])
    else none
  else none

/-- The digits at the front of a text, with a fraction if one follows. -/
def digits (cs : List Char) : Category × List Char :=
  match Token.readNumber cs with
  | (.float, text, _) => (.float, text)
  | (_, text, _) => (.integer, text)

/-- A number at the front of `c :: cs`, with a minus sign or without. -/
def number? (c : Char) (cs : List Char) : Option Piece :=
  if c.isDigit then
    let (k, text) := digits (c :: cs)
    some ⟨k, text⟩
  else if c = '-' ∧ Token.startsWithDigit cs = true then
    let (k, text) := digits cs
    some ⟨k, '-' :: text⟩
  else none

/-- A sign at the front of `c :: cs`. -/
def sign (c : Char) (cs : List Char) : Piece :=
  if startsWith "->" (c :: cs) then ⟨.punctuation, ['-', '>']⟩
  else if startsWith "==" (c :: cs) then ⟨.operator, ['=', '=']⟩
  else if startsWith "!=" (c :: cs) then ⟨.operator, ['!', '=']⟩
  else if "+-*/?:=".toList.contains c then ⟨.operator, [c]⟩
  else if isNameStart c then ⟨.name, c :: cs.takeWhile isNameChar⟩
  else if c = '(' ∨ c = ')' then ⟨.punctuation, [c]⟩
  else ⟨.error, [c]⟩

/-- Whether a character separates pieces. -/
def isGap (c : Char) : Bool :=
  c = ' ' || c = '\t' || c = '\r' || c = '\n'

/-- The rules for programs. -/
def rules : Rules := fun before c cs =>
  if isGap c then [⟨.text, c :: cs.takeWhile isGap⟩]
  else if c = '#' then [⟨.comment, c :: cs.takeWhile (· ≠ '\n')⟩]
  else match signatureHead? c cs with
    | some front => front
    | none =>
      if isNameStart c ∧ (before = none ∨ before = some '\n') then
        [⟨.function, c :: cs.takeWhile isNameChar⟩]
      else match number? c cs with
        | some piece => [piece]
        | none =>
          match keyword? before (c :: cs) ["true", "false"] with
          | some word => [⟨.constant, word⟩]
          | none =>
            match keyword? before (c :: cs) ["int", "float", "bool"] with
            | some word => [⟨.typeName, word⟩]
            | none => [sign c cs]

end Clausal.Highlight.Source
