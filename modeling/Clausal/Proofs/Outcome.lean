/-!
# Outcomes of steps

Checking and code generation are steps in one kind of monad: a step reads and writes a state, and
it returns a value or stops. `Ends m s Q E` says how the step `m` ends when it starts in `s`: it
returns a value in a state with `Q`, or stops in a state with `E`. The rules below take a step
apart at its binds, so that a proof about a step follows its text and never runs it.

`ends_bind` and the rules for the primitive steps are equivalences; `Ends.mono` and `Ends.and`
combine what is known of one step, and `Ends.forM` is the rule for a step repeated over a list.

Readers have no state. `Gives x Q E` says the same of them: a value with `Q`, or a stop with `E`.
-/

namespace Clausal

variable {ε σ α β : Type}

/-- Run from `s`, the step returns a value and a state with `Q`, or stops in a state with `E`. -/
def Ends (m : ExceptT ε (StateM σ) α) (s : σ) (Q : α → σ → Prop) (E : ε → σ → Prop) : Prop :=
  match m.run.run s with
  | (.ok a, t) => Q a t
  | (.error e, t) => E e t

variable {m : ExceptT ε (StateM σ) α} {s t : σ} {Q Q' : α → σ → Prop} {E E' : ε → σ → Prop}

/-! ## What an outcome says of a run -/

/-- A step that returned has the outcome it returned with. -/
theorem Ends.of_ok {a : α} (h : Ends m s Q E) (hrun : m.run.run s = (.ok a, t)) : Q a t := by
  unfold Ends at h
  rwa [hrun] at h

/-- A step that stopped has the outcome it stopped with. -/
theorem Ends.of_error {e : ε} (h : Ends m s Q E) (hrun : m.run.run s = (.error e, t)) : E e t := by
  unfold Ends at h
  rwa [hrun] at h

/-- A run that returned is known up to its last state by the value it returned. -/
theorem run_eq_of_toOption {r : Except ε α × σ} {a : α} (h : r.1.toOption = some a) :
    r = (.ok a, r.2) := by
  obtain ⟨_ | b, t⟩ := r
  · cases h
  · cases h
    rfl

/-- A step ends in one of two ways, and its outcomes are what holds of both. -/
theorem ends_iff : Ends m s Q E ↔
    (∀ a t, m.run.run s = (.ok a, t) → Q a t) ∧ (∀ e t, m.run.run s = (.error e, t) → E e t) := by
  refine ⟨fun h => ⟨fun a t => h.of_ok, fun e t => h.of_error⟩, fun ⟨hok, herr⟩ => ?_⟩
  unfold Ends
  split
  · next a t hrun => exact hok a t hrun
  · next e t hrun => exact herr e t hrun

/-- Every step ends in one of the two ways. -/
theorem Ends.any : Ends m s (fun _ _ => True) fun _ _ => True :=
  ends_iff.2 ⟨fun _ _ _ => trivial, fun _ _ _ => trivial⟩

/-- A weaker outcome. -/
theorem Ends.mono (h : Ends m s Q E) (hQ : ∀ a t, Q a t → Q' a t) (hE : ∀ e t, E e t → E' e t) :
    Ends m s Q' E' := by
  rw [ends_iff] at h ⊢
  exact ⟨fun a t hrun => hQ a t (h.1 a t hrun), fun e t hrun => hE e t (h.2 e t hrun)⟩

/-- Two outcomes of one step. -/
theorem Ends.and (h : Ends m s Q E) (h' : Ends m s Q' E') :
    Ends m s (fun a t => Q a t ∧ Q' a t) (fun e t => E e t ∧ E' e t) := by
  rw [ends_iff] at h h' ⊢
  exact ⟨fun a t hrun => ⟨h.1 a t hrun, h'.1 a t hrun⟩,
    fun e t hrun => ⟨h.2 e t hrun, h'.2 e t hrun⟩⟩

/-! ## Rules -/

theorem ends_pure (a : α) : Ends (pure a : ExceptT ε (StateM σ) α) s Q E ↔ Q a s := Iff.rfl

theorem ends_get {Q : σ → σ → Prop} : Ends (get : ExceptT ε (StateM σ) σ) s Q E ↔ Q s s := Iff.rfl

/-- A bind runs its first step, and its continuation from wherever that one returns. -/
theorem run_bind (m : ExceptT ε (StateM σ) α) (f : α → ExceptT ε (StateM σ) β) (s : σ) :
    (m >>= f).run.run s =
      match m.run.run s with
      | (.ok a, t) => (f a).run.run t
      | (.error e, t) => (.error e, t) := by
  show (ExceptT.bind m f) s = _
  simp only [ExceptT.bind, ExceptT.mk, bind, StateT.bind, ExceptT.run, StateT.run]
  obtain ⟨r, t⟩ := m s
  cases r <;> rfl

/-- A bind ends as its continuation does, from wherever its first step returns. -/
theorem ends_bind {f : α → ExceptT ε (StateM σ) β} {Q : β → σ → Prop} :
    Ends (m >>= f) s Q E ↔ Ends m s (fun a t => Ends (f a) t Q E) E := by
  unfold Ends
  rw [run_bind]
  rcases m.run.run s with ⟨_ | a, t⟩ <;> rfl

/-- A step with a handler ends as it does without one, or from where it stops as the handler does.
-/
theorem ends_tryCatch {handler : ε → ExceptT ε (StateM σ) α} :
    Ends (tryCatch m handler) s Q E ↔ Ends m s Q fun e t => Ends (handler e) t Q E := by
  unfold Ends
  have hrun : (tryCatch m handler).run.run s =
      match m.run.run s with
      | (.ok a, t) => (.ok a, t)
      | (.error e, t) => (handler e).run.run t := by
    show (ExceptT.tryCatch m handler) s = _
    simp only [ExceptT.tryCatch, ExceptT.mk, bind, StateT.bind, ExceptT.run, StateT.run]
    obtain ⟨r, t⟩ := m s
    cases r <;> rfl
  rw [hrun]
  rcases m.run.run s with ⟨_ | a, t⟩ <;> rfl

/-- A step whose value is dropped runs as it does otherwise. -/
theorem run_discard (m : ExceptT ε (StateM σ) α) (s : σ) :
    (discard m).run.run s =
      match m.run.run s with
      | (.ok _, t) => (.ok ⟨⟩, t)
      | (.error e, t) => (.error e, t) := by
  show (ExceptT.map (Function.const α PUnit.unit) m) s = _
  simp only [ExceptT.map, ExceptT.mk, bind, StateT.bind, ExceptT.run, StateT.run]
  obtain ⟨r, t⟩ := m s
  cases r <;> rfl

/-- A step whose value is dropped ends as it does otherwise. -/
theorem ends_discard {Q : PUnit → σ → Prop} :
    Ends (discard m) s Q E ↔ Ends m s (fun _ t => Q ⟨⟩ t) E := by
  unfold Ends
  rw [run_discard]
  rcases m.run.run s with ⟨_ | a, t⟩ <;> rfl

/-- The rule for binds from above: an outcome of the first step, and from every state that has it
the outcome of the rest. -/
theorem Ends.bind {f : α → ExceptT ε (StateM σ) β} {R : β → σ → Prop} (h : Ends m s Q E)
    (hf : ∀ a t, Q a t → Ends (f a) t R E) : Ends (m >>= f) s R E :=
  ends_bind.2 (h.mono hf fun _ _ h => h)

/-- A step repeated over a list: what holds of the part done so far holds of the whole list at the
end. The invariant `I` speaks of the part of the list that is done. -/
theorem Ends.forM {γ : Type} {l : List γ} {f : γ → ExceptT ε (StateM σ) PUnit}
    {I : List γ → σ → Prop}
    (step : ∀ done x rest t, l = done ++ x :: rest → I done t →
      Ends (f x) t (fun _ t' => I (done ++ [x]) t') E)
    (h : I [] s) : Ends (l.forM f) s (fun _ t => I l t) E := by
  suffices key : ∀ rest done t, l = done ++ rest → I done t →
      Ends (rest.forM f) t (fun _ t' => I l t') E from key l [] s rfl h
  intro rest
  induction rest with
  | nil =>
    intro done t hl hI
    rw [List.append_nil] at hl
    subst hl
    exact hI
  | cons x rest ih =>
    intro done t hl hI
    refine (step done x rest t hl hI).bind fun _ t' hI' => ?_
    exact ih (done ++ [x]) t' (by rw [hl, List.append_assoc, List.singleton_append]) hI'

/-! ## Outcomes without a state -/

/-- The reader returns a value with `Q`, or stops with `E`. -/
def Gives (x : Except ε α) (Q : α → Prop) (E : ε → Prop) : Prop :=
  match x with
  | .ok a => Q a
  | .error e => E e

section Gives

variable {x : Except ε α} {Q Q' : α → Prop} {E E' : ε → Prop}

/-- A reader that returned has the outcome it returned with. -/
theorem Gives.of_ok {a : α} (h : Gives x Q E) (hx : x = .ok a) : Q a := by
  subst hx
  exact h

/-- A reader that stopped has the outcome it stopped with. -/
theorem Gives.of_error {e : ε} (h : Gives x Q E) (hx : x = .error e) : E e := by
  subst hx
  exact h

theorem Gives.any : Gives x (fun _ => True) fun _ => True := by
  cases x <;> trivial

/-- A weaker outcome of a reader. -/
theorem Gives.mono (h : Gives x Q E) (hQ : ∀ a, Q a → Q' a) (hE : ∀ e, E e → E' e) :
    Gives x Q' E' := by
  cases x with
  | ok a => exact hQ a h
  | error e => exact hE e h

theorem Gives.imp (h : Gives x Q E) (hQ : ∀ a, Q a → Q' a) : Gives x Q' E :=
  h.mono hQ fun _ h => h

/-- The rule for binds of readers from above. -/
theorem Gives.bind {f : α → Except ε β} {R : β → Prop} (h : Gives x Q E)
    (hf : ∀ a, Q a → Gives (f a) R E) : Gives (x >>= f) R E := by
  cases x with
  | ok a => exact hf a h
  | error e => exact h

/-- A reader whose value is changed gives the changed value. -/
theorem gives_map {f : α → β} {R : β → Prop} :
    Gives (x.map f) R E ↔ Gives x (fun a => R (f a)) E := by
  cases x <;> exact Iff.rfl

end Gives

end Clausal
