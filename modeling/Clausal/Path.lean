import Clausal.Text.Lines
import Clausal.Text.Quoted

/-!
# Paths

A path names a file by the directories that lead to it. Empty parts and single dots are dropped when
a path is made, while double dots stay, since what they lead to is known only where the path is
followed.
-/

namespace Clausal

/-- A path: how many slashes it starts with, and its parts. A path without slashes in front starts
in the current directory. Two slashes in front are kept apart from one. -/
structure Path where
  slashes : Nat := 0
  parts : List String := []
deriving DecidableEq, Repr, Inhabited

namespace Path

/-- The parts between the slashes of a text. -/
def split (text : String) : List String :=
  (Text.splitOn '/' text.toList).map String.ofList

/-- How many slashes a text starts with, as far as that matters: none, two, or any other number. -/
def leadingSlashes (text : String) : Nat :=
  match (text.toList.takeWhile (· = '/')).length with
  | 0 => 0
  | 2 => 2
  | _ => 1

/-- The path that a text writes. -/
def ofString (text : String) : Path where
  slashes := leadingSlashes text
  parts := (split text).filter fun part => part ≠ "" && part ≠ "."

/-- Whether a path does not depend on the current directory. -/
def isAbsolute (p : Path) : Bool :=
  p.slashes ≠ 0

/-- The text of a path; the path without parts is a dot. -/
def text (p : Path) : String :=
  if p.slashes = 0 ∧ p.parts = [] then "."
  else String.ofList (List.replicate p.slashes '/') ++ "/".intercalate p.parts

/-- A path taken from another one on; an absolute path stands for itself. -/
def join (base p : Path) : Path :=
  if p.isAbsolute then p else { base with parts := base.parts ++ p.parts }

/-- A path with the parts of a text added. -/
def child (base : Path) (name : String) : Path :=
  base.join (ofString name)

/-- The path without its last part. -/
def parent (p : Path) : Path :=
  { p with parts := p.parts.dropLast }

/-- The last part of a path; empty if there is none. -/
def name (p : Path) : String :=
  p.parts.getLast?.getD ""

/-- A name cut before its last dot; nothing if there is no dot with characters on both sides. -/
def splitSuffix? (name : String) : Option (List Char × List Char) :=
  let reversed := name.toList.reverse
  let ending := (reversed.takeWhile (· ≠ '.')).reverse
  match (reversed.dropWhile (· ≠ '.')) with
  | '.' :: front => if front = [] ∨ ending = [] then none else some (front.reverse, '.' :: ending)
  | _ => none

/-- The last part of a path from its last dot on; empty if it has no such ending. -/
def suffix (p : Path) : String :=
  ((splitSuffix? p.name).map fun (_, ending) => String.ofList ending).getD ""

/-- The last part of a path up to its last dot. -/
def stem (p : Path) : String :=
  ((splitSuffix? p.name).map fun (front, _) => String.ofList front).getD p.name

/-- A path with another ending of its last part; nothing if it has no parts. -/
def withSuffix? (p : Path) (suffix : String) : Option Path :=
  if p.name = "" then none
  else some { p with parts := p.parts.dropLast ++ [p.stem ++ suffix] }

/-- The text of a path in quotes. -/
def quoted (p : Path) : String :=
  String.ofList (Text.quoted p.text.toList)

end Path

end Clausal
