/-!
# Classes of characters

A class of characters is a list of ranges of code points, in increasing order. The tables of the
modules beside this one are such lists.
-/

namespace Clausal.Text

/-- A set of characters, as inclusive ranges of code points. -/
structure CharClass where
  ranges : List (Nat × Nat)
deriving DecidableEq, Repr

namespace CharClass

/-- The range of the class that a character lies in. -/
def find? (k : CharClass) (c : Char) : Option (Nat × Nat) :=
  k.ranges.find? fun r => r.1 ≤ c.toNat && c.toNat ≤ r.2

/-- Whether a character belongs to the class. -/
def contains (k : CharClass) (c : Char) : Bool :=
  (k.find? c).isSome

theorem contains_iff {k : CharClass} {c : Char} :
    k.contains c = true ↔ ∃ r ∈ k.ranges, r.1 ≤ c.toNat ∧ c.toNat ≤ r.2 := by
  simp [contains, find?]

end CharClass

end Clausal.Text
