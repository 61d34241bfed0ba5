/-!
# Ordered maps from names

A map from names is a list of pairs in the order in which the names were first given. `put`
replaces the value of a name where it stands and adds a new name at the end, so the order never
changes afterwards; `value?` reads the first pair of a name, and `erase` takes all of them away.
-/

namespace Clausal

/-- A finite map from names, in order of first insertion. -/
abbrev Assoc (α : Type) := List (String × α)

namespace Assoc

variable {α : Type}

/-- The value of a name. -/
def value? : Assoc α → String → Option α
  | [], _ => none
  | (k, v) :: m, name => if k = name then some v else value? m name

/-- Whether a name has a value. -/
def has (m : Assoc α) (name : String) : Bool :=
  (m.value? name).isSome

/-- The names of a map, in order. -/
def names (m : Assoc α) : List String :=
  m.map (·.1)

/-- Gives a name a value: in its old place if it has one, otherwise at the end. -/
def put : Assoc α → String → α → Assoc α
  | [], name, x => [(name, x)]
  | (k, v) :: m, name, x => if k = name then (k, x) :: m else (k, v) :: put m name x

/-- Takes a name away. -/
def erase (m : Assoc α) (name : String) : Assoc α :=
  m.filter fun p => p.1 ≠ name

/-- The map that a list of pairs describes, a later pair of a name replacing an earlier one. -/
def ofPairs (pairs : List (String × α)) : Assoc α :=
  pairs.foldl (fun m p => put m p.1 p.2) []

@[simp] theorem value?_nil (name : String) : value? ([] : Assoc α) name = none := rfl

theorem value?_cons (k : String) (v : α) (m : Assoc α) (name : String) :
    value? ((k, v) :: m) name = if k = name then some v else value? m name := rfl

@[simp] theorem value?_put (m : Assoc α) (name other : String) (x : α) :
    value? (put m name x) other = if name = other then some x else value? m other := by
  induction m with
  | nil => rfl
  | cons p m ih =>
    obtain ⟨k, v⟩ := p
    by_cases hk : k = name
    · subst hk
      by_cases ho : k = other <;> simp [put, value?, ho]
    · rw [put, if_neg hk, value?_cons, value?_cons, ih]
      by_cases ho : k = other
      · have hn : ¬ name = other := fun h => hk (ho.trans h.symm)
        simp [ho, hn]
      · simp [ho]

@[simp] theorem value?_erase (m : Assoc α) (name other : String) :
    value? (erase m name) other = if name = other then none else value? m other := by
  induction m with
  | nil => simp [erase]
  | cons p m ih =>
    obtain ⟨k, v⟩ := p
    rw [erase] at ih
    by_cases hk : k = name
    · subst hk
      by_cases ho : k = other <;> simp_all [erase, value?_cons]
    · by_cases ho : k = other
      · have hn : ¬ name = other := fun h => hk (ho.trans h.symm)
        simp_all [erase, value?_cons]
      · simp_all [erase, value?_cons]

theorem has_iff_mem_names {m : Assoc α} {name : String} :
    has m name = true ↔ name ∈ names m := by
  induction m with
  | nil => simp [has, names]
  | cons p m ih =>
    obtain ⟨k, v⟩ := p
    rw [has, value?_cons]
    by_cases hk : k = name
    · simp [names, hk]
    · have hk' : ¬ name = k := fun h => hk h.symm
      simpa [names, has, hk, hk'] using ih

theorem names_put (m : Assoc α) (name : String) (x : α) :
    names (put m name x) = if has m name then names m else names m ++ [name] := by
  induction m with
  | nil => rfl
  | cons p m ih =>
    obtain ⟨k, v⟩ := p
    by_cases hk : k = name
    · simp [put, names, has, value?, hk]
    · have hhas : has ((k, v) :: m) name = has m name := by
        rw [has, value?_cons, if_neg hk, has]
      have hnames : names ((k, v) :: m) = k :: names m := rfl
      rw [put, if_neg hk, hhas, hnames]
      show k :: names (put m name x) = _
      rw [ih]
      split <;> rfl

theorem value?_append (m n : Assoc α) (name : String) :
    value? (m ++ n) name = (value? m name).or (value? n name) := by
  induction m with
  | nil => rfl
  | cons p m ih =>
    obtain ⟨k, v⟩ := p
    rw [List.cons_append, value?_cons, value?_cons, ih]
    split <;> rfl

end Assoc

end Clausal
