/-!
# Lines of a text

Two ways to cut a text into lines. `lines` knows every character that ends a line and is what an
excerpt of a source shows; `unifyBreaks` is how a text file is read: a carriage return, alone or
before a line feed, counts as a line feed. `joinBreaks` leaves carriage returns alone that stand by
themselves.
-/

namespace Clausal.Text

/-- Whether a character ends a line: line feed and carriage return, the vertical tab and the form
feed, the three information separators, the next-line control, and the line and paragraph
separators. -/
def isBreak (c : Char) : Bool :=
  let n := c.toNat
  (0x0A ≤ n && n ≤ 0x0D) || (0x1C ≤ n && n ≤ 0x1E) || n = 0x85 || n = 0x2028 || n = 0x2029

/-- The lines of a text, each with the break that ends it. A break at the very end starts no
further line; a carriage return and a line feed after it are one break. -/
def linesWithBreaks : List Char → List (List Char)
  | [] => []
  | '\r' :: '\n' :: cs => ['\r', '\n'] :: linesWithBreaks cs
  | c :: cs =>
    if isBreak c then [c] :: linesWithBreaks cs
    else match linesWithBreaks cs with
      | [] => [[c]]
      | l :: ls => (c :: l) :: ls

/-- The lines of a text without their breaks. -/
def lines (cs : List Char) : List (List Char) :=
  (linesWithBreaks cs).map fun l => l.filter fun c => !isBreak c

/-- A text with every carriage return, alone or before a line feed, read as a line feed. -/
def unifyBreaks : List Char → List Char
  | [] => []
  | '\r' :: '\n' :: cs => '\n' :: unifyBreaks cs
  | c :: cs => (if c = '\r' then '\n' else c) :: unifyBreaks cs

/-- A text with every carriage return before a line feed left out. -/
def joinBreaks : List Char → List Char
  | [] => []
  | '\r' :: '\n' :: cs => '\n' :: joinBreaks cs
  | c :: cs => c :: joinBreaks cs

/-- The characters between two occurrences of a separator, in order. -/
def splitOn (sep : Char) : List Char → List (List Char)
  | [] => [[]]
  | c :: cs =>
    match splitOn sep cs with
    | [] => [[c]]
    | l :: ls => if c = sep then [] :: l :: ls else (c :: l) :: ls

theorem splitOn_ne_nil (sep : Char) (cs : List Char) : splitOn sep cs ≠ [] := by
  cases cs with
  | nil => simp [splitOn]
  | cons c cs => unfold splitOn; split <;> (try split) <;> simp

/-- Cutting a text at a separator loses nothing. -/
theorem intercalate_splitOn (sep : Char) (cs : List Char) :
    [sep].intercalate (splitOn sep cs) = cs := by
  induction cs with
  | nil => rfl
  | cons c cs ih =>
    cases h : splitOn sep cs with
    | nil => exact absurd h (splitOn_ne_nil sep cs)
    | cons l ls =>
      rw [h] at ih
      by_cases hc : c = sep
      · cases ls <;> simp_all [splitOn, List.intercalate]
      · cases ls <;> simp_all [splitOn, List.intercalate]

end Clausal.Text
