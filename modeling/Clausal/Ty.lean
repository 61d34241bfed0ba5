import Clausal.Assoc

/-!
# Types and signatures

The types are a closed set of primitives without subtyping or coercion: two types fit only if they
are equal. Each type is carried by one of two machine types, and booleans share the carrier of the
integers. A `SignatureTable` gives function names their signatures and is written at most once for
each name.
-/

namespace Clausal

/-- The value types of the WebAssembly machine that are used. -/
inductive Machine where
  | i32
  | f32
deriving DecidableEq, Repr, Inhabited

/-- The name of a machine type, as in `i32.add`. -/
def Machine.name : Machine → String
  | .i32 => "i32"
  | .f32 => "f32"

/-- The types of values. -/
inductive Ty where
  | bool
  | int
  | float
deriving DecidableEq, Repr, Inhabited

namespace Ty

/-- The name of a type in a source text. -/
def name : Ty → String
  | .bool => "bool"
  | .int => "int"
  | .float => "float"

/-- The type that a name stands for. -/
def ofName? : String → Option Ty
  | "bool" => some .bool
  | "int" => some .int
  | "float" => some .float
  | _ => none

/-- The machine type that carries the values of a type; a boolean is the integer 0 or 1. -/
def machine : Ty → Machine
  | .bool => .i32
  | .int => .i32
  | .float => .f32

theorem ofName?_name (t : Ty) : ofName? t.name = some t := by
  cases t <;> rfl

end Ty

/-- The argument types and the result type of a function. -/
structure Signature where
  params : List Ty
  result : Ty
deriving DecidableEq, Repr, Inhabited

/-- A signature as it is declared: the types with arrows between them. -/
def Signature.text (s : Signature) : String :=
  " -> ".intercalate ((s.params ++ [s.result]).map Ty.name)

/-- The signatures of functions, in the order in which they were found. -/
abbrev SignatureTable := Assoc Signature

namespace SignatureTable

/-- The signature of a function. -/
def lookup (t : SignatureTable) (name : String) : Option Signature :=
  Assoc.value? t name

/-- Adds the signature of a function that has none; a name is written only once. -/
def define? (t : SignatureTable) (name : String) (s : Signature) : Option SignatureTable :=
  if t.has name then none else some (t ++ [(name, s)])

/-- Adds the signatures of functions one after another, up to the first name that has one
already. -/
def defineAll (t : SignatureTable) : List (String × Signature) → Except String SignatureTable
  | [] => .ok t
  | (name, s) :: rest =>
    match t.define? name s with
    | some t' => t'.defineAll rest
    | none => .error name

theorem define?_eq_none_iff {t : SignatureTable} {name : String} {s : Signature} :
    t.define? name s = none ↔ ∃ s', t.lookup name = some s' := by
  unfold define? lookup Assoc.has
  cases Assoc.value? t name <;> simp

theorem lookup_define? {t t' : SignatureTable} {name : String} {s : Signature}
    (h : t.define? name s = some t') (other : String) :
    t'.lookup other = if name = other then some s else t.lookup other := by
  unfold define? at h
  split at h
  · cases h
  · rename_i hn
    cases h
    have hnone : Assoc.value? t name = none := by
      simpa [Assoc.has] using hn
    unfold lookup
    rw [Assoc.value?_append]
    by_cases ho : name = other
    · subst ho
      rw [hnone]
      simp [Assoc.value?]
    · simp [Assoc.value?, ho]

end SignatureTable

end Clausal
