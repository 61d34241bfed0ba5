/-!
# Runs of one character

Indents and underlines are runs of one character. A length must be a number that can be counted,
which leaves 63 bits and a sign, and a run must fit into memory. How long a run fits is not for this
library to say: it is the parameter `room` of what writes runs. A length that is not positive makes
the empty run.
-/

namespace Clausal.Text

/-- Why there is no run of some length. -/
inductive RunFault where
  /-- The length cannot be counted. -/
  | uncountable
  /-- The run does not fit into memory. -/
  | tooLarge
deriving DecidableEq, Repr, Inhabited

/-- The lengths below this one can be counted, and the negative ones down to its opposite. -/
def countLimit : Int := 0x8000000000000000

/-- Whether a length can be counted. -/
def Countable (length : Int) : Prop :=
  -countLimit ≤ length ∧ length < countLimit

instance (length : Int) : Decidable (Countable length) :=
  inferInstanceAs (Decidable (_ ∧ _))

/-- Makes sure that there is a run of some length, if no run longer than `room` fits. -/
def checkRun (room length : Int) : Except RunFault Unit :=
  if ¬ Countable length then .error .uncountable
  else if room < length then .error .tooLarge
  else .ok ()

/-- There is a run of some length exactly if it can be counted and fits. -/
theorem checkRun_eq_ok_iff {room length : Int} :
    checkRun room length = .ok () ↔ Countable length ∧ length ≤ room := by
  unfold checkRun
  split
  · next h => simp [h]
  · next h =>
    split
    · simp; omega
    · next hroom => simp [Decidable.not_not.1 h, Int.not_lt.1 hroom]

/-- A run is not there because it cannot be counted, or else because it does not fit. -/
theorem checkRun_eq_error_iff {room length : Int} {f : RunFault} :
    checkRun room length = .error f ↔
      ¬ Countable length ∧ f = .uncountable ∨
        Countable length ∧ room < length ∧ f = .tooLarge := by
  unfold checkRun
  split
  · next h => simp [h, eq_comm]
  · next h =>
    have h := Decidable.not_not.1 h
    split
    · next hroom => simp [h, hroom, eq_comm]
    · next hroom => simp [h, hroom]

end Clausal.Text
