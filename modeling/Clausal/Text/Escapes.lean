/-!
# Terminal escapes

A terminal escape is an escape character and an opening bracket, then parameters, then intermediate
characters, then one final character, each from a range of its own. `stripEscapes` leaves them out
of a text.
-/

namespace Clausal.Text

/-- Whether a character may stand in the parameters of an escape: the characters from the zero to
the question mark. -/
def isParameter (c : Char) : Bool :=
  '0' ≤ c && c ≤ '?'

/-- Whether a character may stand after the parameters of an escape: the characters from the blank
to the slash. -/
def isIntermediate (c : Char) : Bool :=
  ' ' ≤ c && c ≤ '/'

/-- Whether a character ends an escape: the characters from the at sign to the tilde. -/
def isFinal (c : Char) : Bool :=
  '@' ≤ c && c ≤ '~'

/-- The text after an escape whose first two characters have been read; nothing if it is none. -/
def afterEscape? (cs : List Char) : Option (List Char) :=
  match (cs.dropWhile isParameter).dropWhile isIntermediate with
  | c :: rest => if isFinal c then some rest else none
  | [] => none

theorem afterEscape?_length_lt {cs rest : List Char} (h : afterEscape? cs = some rest) :
    rest.length < cs.length := by
  have hs := ((List.dropWhile_suffix isIntermediate).trans
    (List.dropWhile_suffix (l := cs) isParameter)).length_le
  rw [afterEscape?] at h
  split at h
  · rename_i c r heq
    split at h
    · cases h
      rw [heq, List.length_cons] at hs
      exact hs
    · cases h
  · cases h

/-- A text without its terminal escapes. -/
def stripEscapes (cs : List Char) : List Char :=
  match cs with
  | [] => []
  | '\x1b' :: '[' :: rest =>
    match h : afterEscape? rest with
    | some after =>
      have := afterEscape?_length_lt h
      stripEscapes after
    | none => '\x1b' :: '[' :: stripEscapes rest
  | c :: rest => c :: stripEscapes rest
termination_by cs.length

end Clausal.Text
