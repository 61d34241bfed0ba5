import Clausal.Proofs.Outcome

/-!
# Evaluation

What the semantics of programs and the semantics of the machine have in common: floating-point
numbers, of which nothing is assumed, the ways in which an evaluation ends without a value, and the
order in which an evaluation with more fuel is above one with less (`Approx`). Both semantics are
functions with fuel that is spent on calls only, so they are monotone in the evaluation of calls,
and an evaluation that does not run out of fuel has one result (`Approx.unique`).
-/

namespace Clausal

/-- Floating-point numbers with the operations that programs use, otherwise arbitrary. -/
structure Floats where
  Carrier : Type
  ofText : String → Carrier
  add : Carrier → Carrier → Carrier
  sub : Carrier → Carrier → Carrier
  mul : Carrier → Carrier → Carrier
  div : Carrier → Carrier → Carrier
  eq : Carrier → Carrier → Bool
  ne : Carrier → Carrier → Bool

/-- How an evaluation ends without a value. -/
inductive Halt where
  /-- An operation has no result. -/
  | trap
  /-- The code makes no sense here; this never happens to checked programs. -/
  | stuck
  /-- The fuel is used up. -/
  | timeout
deriving DecidableEq, Repr

/-- A call of a function that prints: which one, and the number it was given. -/
structure Print where
  function : String
  value : BitVec 32
deriving DecidableEq, Repr

/-- An evaluation: it may halt, and leaves a state in any case. -/
abbrev EvalM (σ : Type) := ExceptT Halt (StateM σ)

section Approx
variable {σ α β : Type}

/-- From every state one evaluation runs out of fuel, or ends as the other one does. -/
def Approx (m n : EvalM σ α) : Prop :=
  ∀ s, (m.run.run s).1 = .error .timeout ∨ m.run.run s = n.run.run s

theorem Approx.refl (m : EvalM σ α) : Approx m m := fun _ => .inr rfl

theorem Approx.timeout (n : EvalM σ α) : Approx (throw .timeout) n := fun _ => .inl rfl

/-- Evaluations that approximate one another in turn. -/
theorem Approx.trans {m n k : EvalM σ α} (h : Approx m n) (h' : Approx n k) : Approx m k := by
  intro s
  rcases h s with ht | heq
  · exact .inl ht
  · rw [heq]
    exact h' s

/-- Approximations one after the other. -/
theorem Approx.bind {m n : EvalM σ α} {f g : α → EvalM σ β} (h : Approx m n)
    (hf : ∀ a, Approx (f a) (g a)) : Approx (m >>= f) (n >>= g) := by
  intro s
  rw [run_bind, run_bind]
  rcases h s with ht | heq
  · rcases hm : m.run.run s with ⟨e | a, t⟩
    · rw [hm] at ht
      cases ht
      exact .inl rfl
    · rw [hm] at ht
      cases ht
  · rw [heq]
    rcases n.run.run s with ⟨e | a, t⟩
    · exact .inr rfl
    · exact hf a t

/-- Evaluations that grow with every unit of fuel grow with the fuel. -/
theorem Approx.add {m : Nat → EvalM σ α} (h : ∀ n, Approx (m n) (m (n + 1))) (i k : Nat) :
    Approx (m i) (m (i + k)) := by
  induction k with
  | zero => exact Approx.refl _
  | succ k ih => exact ih.trans (h (i + k))

/-- Evaluations that grow with the fuel end in one way only. -/
theorem Approx.unique {m : Nat → EvalM σ α} (h : ∀ n, Approx (m n) (m (n + 1))) {s t u : σ}
    {i j : Nat} {r r' : Except Halt α} (hi : (m i).run.run s = (r, t))
    (hj : (m j).run.run s = (r', u)) (hr : r ≠ .error .timeout) (hr' : r' ≠ .error .timeout) :
    r = r' ∧ t = u := by
  have heq : (r, t) = (r', u) := by
    rcases Nat.le_total i j with hij | hji
    · obtain ⟨k, rfl⟩ := Nat.exists_eq_add_of_le hij
      have hstep := Approx.add h i k s
      rw [hi, hj] at hstep
      exact hstep.resolve_left hr
    · obtain ⟨k, rfl⟩ := Nat.exists_eq_add_of_le hji
      have hstep := Approx.add h j k s
      rw [hi, hj] at hstep
      exact (hstep.resolve_left hr').symm
  exact Prod.mk.inj heq

end Approx

end Clausal
