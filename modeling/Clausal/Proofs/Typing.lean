import Clausal.Check

/-!
# The type system

A type system for expressions that is stated without a checker. Types are relative to signatures
`S` of functions and to the types `Γ` of the parameters in scope, both read by name. A parameter
hides a function of its name and takes no arguments; of two parameters of one name the later one
counts (`Pattern.position?`). `Clause.HasSignature` lifts typing to clauses, and
`Program.Reachable` names the functions that calls lead to from the entry point or from a declared
function.

* `HasType.mono`: more signatures keep every type.
* `HasType.known_of_mem_heads`: what a typed expression calls has a signature.
* `Pattern.value?_ofPairs_bindings`: the map that checking and code generation build from the
  parameters of a clause is the look-up by position used here.
-/

namespace Clausal

/-! ## Parameters by position -/

namespace Pattern

/-- Whether a parameter binds a name. -/
def binds (x : String) : Pattern → Bool
  | .name n _ => n = x
  | .lit .. => false

/-- The position of the last parameter that binds a name. -/
def position? (x : String) : List Pattern → Option Nat
  | [] => none
  | p :: ps =>
    match position? x ps with
    | some i => some (i + 1)
    | none => if p.binds x then some 0 else none

/-- What stands at the position of a bound name in another list. -/
def argument? {α : Type} (ps : List Pattern) (xs : List α) (x : String) : Option α :=
  (position? x ps).bind (xs[·]?)

/-- The argument of a name is the one at its position. -/
theorem argument?_of_position {α : Type} {ps : List Pattern} {x : String} {i : Nat}
    (h : position? x ps = some i) (xs : List α) : argument? ps xs x = xs[i]? := by
  unfold argument?
  rw [h]
  rfl

/-- A name without a position has no argument. -/
theorem argument?_of_no_position {α : Type} {ps : List Pattern} {x : String}
    (h : position? x ps = none) (xs : List α) : argument? ps xs x = none := by
  unfold argument?
  rw [h]
  rfl

/-- The position of a name is one of the parameters. -/
theorem position?_lt {x : String} {ps : List Pattern} {i : Nat} (h : position? x ps = some i) :
    i < ps.length := by
  induction ps generalizing i with
  | nil => cases h
  | cons p ps ih =>
    rw [position?] at h
    split at h
    · next j hj =>
      cases h
      exact Nat.succ_lt_succ (ih hj)
    · split at h
      · cases h
        exact Nat.succ_pos _
      · cases h

/-- With enough arguments a name is bound to an argument exactly if it has a position. -/
theorem argument?_eq_none_iff {α : Type} {ps : List Pattern} {xs : List α} {x : String}
    (hlen : ps.length ≤ xs.length) : argument? ps xs x = none ↔ position? x ps = none := by
  unfold argument?
  cases hp : position? x ps with
  | none => simp
  | some i =>
    have hi : i < xs.length := Nat.lt_of_lt_of_le (position?_lt hp) hlen
    simp [hi]

end Pattern

/-- Pairs put one after another leave the last pair of every name. -/
theorem Assoc.value?_foldl_put {α : Type} (pairs : List (String × α)) (m : Assoc α) (x : String) :
    value? (pairs.foldl (fun m p => put m p.1 p.2) m) x =
      (value? pairs.reverse x).or (value? m x) := by
  induction pairs generalizing m with
  | nil => rfl
  | cons p pairs ih =>
    rw [List.foldl_cons, ih, List.reverse_cons, value?_append, value?_put, Option.or_assoc]
    congr 1
    rw [value?_cons p.1 p.2 [] x]
    split <;> rfl

namespace Pattern

/-- The last pair of a name among the bindings is what stands at the position of the name. -/
theorem value?_reverse_bindings {α : Type} {ps : List Pattern} {xs : List α}
    (hlen : ps.length ≤ xs.length) (x : String) :
    Assoc.value? (bindings ps xs).reverse x = argument? ps xs x := by
  induction ps generalizing xs with
  | nil => cases xs <;> rfl
  | cons p ps ih =>
    cases xs with
    | nil => exact absurd hlen (Nat.not_succ_le_zero _)
    | cons y xs =>
      have hlen' : ps.length ≤ xs.length := Nat.le_of_succ_le_succ hlen
      have hrest := ih hlen'
      unfold argument? at hrest ⊢
      rw [position?]
      cases hp : position? x ps with
      | some i =>
        have hi : i < xs.length := Nat.lt_of_lt_of_le (position?_lt hp) hlen'
        rw [hp] at hrest
        cases p with
        | name n sp =>
          rw [bindings, List.reverse_cons, Assoc.value?_append, hrest]
          simp [hi]
        | lit v sp =>
          rw [bindings, hrest]
          simp
      | none =>
        rw [hp] at hrest
        cases p with
        | name n sp =>
          rw [bindings, List.reverse_cons, Assoc.value?_append, hrest, Assoc.value?_cons]
          by_cases hn : n = x <;> simp [binds, hn]
        | lit v sp =>
          rw [bindings, hrest]
          simp [binds]

/-- The map of the bindings of parameters looks names up by their last position. -/
theorem value?_ofPairs_bindings {α : Type} {ps : List Pattern} {xs : List α}
    (hlen : ps.length ≤ xs.length) (x : String) :
    Assoc.value? (Assoc.ofPairs (bindings ps xs)) x = argument? ps xs x := by
  rw [Assoc.ofPairs, Assoc.value?_foldl_put, value?_reverse_bindings hlen, Assoc.value?_nil,
    Option.or_none]

end Pattern

/-! ## Types of expressions -/

variable {S S' : String → Option Signature} {Γ : String → Option Ty}

mutual

/-- The types of expressions, relative to the signatures of functions and the types of the
parameters in scope. -/
inductive HasType (S : String → Option Signature) (Γ : String → Option Ty) : Expr → Ty → Prop
  | lit {value : Literal} {span : Span} : HasType S Γ (.lit value span) value.ty
  | param {x : String} {ty : Ty} {span : Span} : Γ x = some ty → HasType S Γ (.call x [] span) ty
  | call {f : String} {sig : Signature} {args : List Expr} {span : Span} : Γ f = none →
      S f = some sig → HaveTypes S Γ args sig.params → HasType S Γ (.call f args span) sig.result
  | arithmetic {left right : Expr} {op : Op} {ty : Ty} {span : Span} : op.isArithmetic = true →
      ty ≠ .bool → HasType S Γ left ty → HasType S Γ right ty →
      HasType S Γ (.binary left op right span) ty
  | comparison {left right : Expr} {op : Op} {ty : Ty} {span : Span} : op.isArithmetic = false →
      HasType S Γ left ty → HasType S Γ right ty → HasType S Γ (.binary left op right span) .bool
  | cond {test yes no : Expr} {ty : Ty} {span : Span} : HasType S Γ test .bool →
      HasType S Γ yes ty → HasType S Γ no ty → HasType S Γ (.cond test yes no span) ty

/-- The types of the arguments of a call, one by one. -/
inductive HaveTypes (S : String → Option Signature) (Γ : String → Option Ty) :
    List Expr → List Ty → Prop
  | nil : HaveTypes S Γ [] []
  | cons {e : Expr} {es : List Expr} {ty : Ty} {types : List Ty} : HasType S Γ e ty →
      HaveTypes S Γ es types → HaveTypes S Γ (e :: es) (ty :: types)

end

/-- Signatures that include others. -/
def Extends (S S' : String → Option Signature) : Prop :=
  ∀ name sig, S name = some sig → S' name = some sig

theorem Extends.refl (S : String → Option Signature) : Extends S S := fun _ _ h => h

theorem Extends.trans {S'' : String → Option Signature} (h : Extends S S') (h' : Extends S' S'') :
    Extends S S'' := fun name sig hs => h' name sig (h name sig hs)

mutual

/-- More signatures keep the type of an expression. -/
theorem HasType.mono {e : Expr} {ty : Ty} (hS : Extends S S') :
    HasType S Γ e ty → HasType S' Γ e ty
  | .lit => .lit
  | .param hx => .param hx
  | .call hf hs hargs => .call hf (hS _ _ hs) (hargs.mono hS)
  | .arithmetic hop hne hl hr => .arithmetic hop hne (hl.mono hS) (hr.mono hS)
  | .comparison hop hl hr => .comparison hop (hl.mono hS) (hr.mono hS)
  | .cond ht hy hn => .cond (ht.mono hS) (hy.mono hS) (hn.mono hS)

/-- More signatures keep the types of arguments. -/
theorem HaveTypes.mono {es : List Expr} {types : List Ty} (hS : Extends S S') :
    HaveTypes S Γ es types → HaveTypes S' Γ es types
  | .nil => .nil
  | .cons he hes => .cons (he.mono hS) (hes.mono hS)

end

/-! ## Calls -/

mutual

/-- The names at the heads of the calls of an expression, bound or not. -/
def Expr.heads : Expr → List String
  | .lit .. => []
  | .call f args _ => f :: headsOf args
  | .binary left _ right _ => left.heads ++ right.heads
  | .cond test yes no _ => test.heads ++ (yes.heads ++ no.heads)

/-- The names at the heads of the calls of several expressions. -/
def headsOf : List Expr → List String
  | [] => []
  | e :: es => e.heads ++ headsOf es

end

mutual

/-- What a typed expression calls has a signature. -/
theorem HasType.known_of_mem_heads {e : Expr} {ty : Ty} {g : String} :
    HasType S Γ e ty → g ∈ e.heads → Γ g = none → ∃ sig, S g = some sig
  | .lit, hg, _ => nomatch hg
  | .param hx, hg, hΓ => by
    rw [Expr.heads, headsOf, List.mem_singleton] at hg
    subst hg
    rw [hx] at hΓ
    cases hΓ
  | .call _ hs hargs, hg, hΓ => by
    rw [Expr.heads] at hg
    rcases List.mem_cons.1 hg with rfl | hg
    · exact ⟨_, hs⟩
    · exact hargs.known_of_mem_heads hg hΓ
  | .arithmetic _ _ hl hr, hg, hΓ | .comparison _ hl hr, hg, hΓ => by
    rw [Expr.heads] at hg
    rcases List.mem_append.1 hg with hg | hg
    · exact hl.known_of_mem_heads hg hΓ
    · exact hr.known_of_mem_heads hg hΓ
  | .cond ht hy hn, hg, hΓ => by
    rw [Expr.heads] at hg
    rcases List.mem_append.1 hg with hg | hg
    · exact ht.known_of_mem_heads hg hΓ
    rcases List.mem_append.1 hg with hg | hg
    · exact hy.known_of_mem_heads hg hΓ
    · exact hn.known_of_mem_heads hg hΓ

/-- What typed arguments call has a signature. -/
theorem HaveTypes.known_of_mem_heads {es : List Expr} {types : List Ty} {g : String} :
    HaveTypes S Γ es types → g ∈ headsOf es → Γ g = none → ∃ sig, S g = some sig
  | .nil, hg, _ => nomatch hg
  | .cons he hes, hg, hΓ => by
    rw [headsOf] at hg
    rcases List.mem_append.1 hg with hg | hg
    · exact he.known_of_mem_heads hg hΓ
    · exact hes.known_of_mem_heads hg hΓ

end

/-! ## Clauses and programs -/

namespace Clause

/-- The functions that a clause calls: the heads of calls that no parameter hides. -/
def callees (c : Clause) : List String :=
  c.body.heads.filter fun g => (Pattern.position? g c.params).isNone

/-- A clause fits a signature, whatever its body is: as many parameters, and literals of the types
at their positions. -/
structure Fits (c : Clause) (sig : Signature) : Prop where
  arity : c.params.length = sig.params.length
  literals : ∀ (i : Nat) (value : Literal) (span : Span), c.params[i]? = some (.lit value span) →
    sig.params[i]? = some value.ty

/-- A clause has a signature: as many parameters, literals of the types at their positions, and a
body of the result type while every bound parameter has the type at its position. -/
structure HasSignature (S : String → Option Signature) (c : Clause) (sig : Signature) : Prop where
  arity : c.params.length = sig.params.length
  literals : ∀ (i : Nat) (value : Literal) (span : Span), c.params[i]? = some (.lit value span) →
    sig.params[i]? = some value.ty
  body : HasType S (Pattern.argument? c.params sig.params) c.body sig.result

/-- A clause that has a signature has as many parameters. -/
theorem HasSignature.fits {c : Clause} {sig : Signature} (h : c.HasSignature S sig) : c.Fits sig :=
  ⟨h.arity, h.literals⟩

/-- A clause keeps its signature when more functions get theirs. -/
theorem HasSignature.mono {c : Clause} {sig : Signature} (hS : Extends S S')
    (h : c.HasSignature S sig) : c.HasSignature S' sig :=
  ⟨h.arity, h.literals, h.body.mono hS⟩

/-- A clause calls the names in its body that are not its parameters. -/
theorem mem_callees {c : Clause} {g : String} :
    g ∈ c.callees ↔ g ∈ c.body.heads ∧ Pattern.position? g c.params = none := by
  rw [callees, List.mem_filter, Option.isNone_iff_eq_none]

/-- What a typed clause calls has a signature. -/
theorem HasSignature.known_of_mem_callees {c : Clause} {sig : Signature} {g : String}
    (h : c.HasSignature S sig) (hg : g ∈ c.callees) : ∃ sig', S g = some sig' := by
  rw [mem_callees] at hg
  exact h.body.known_of_mem_heads hg.1
    ((Pattern.argument?_eq_none_iff (Nat.le_of_eq h.arity)).2 hg.2)

end Clause

namespace Program

/-- The clauses of one function, in order. -/
def clausesOf (p : Program) (f : String) : List Clause :=
  p.clauses.filter fun c => c.name = f

/-- The clauses of a function are those of its name. -/
theorem mem_clausesOf {p : Program} {f : String} {c : Clause} :
    c ∈ p.clausesOf f ↔ c ∈ p.clauses ∧ c.name = f := by
  simp [clausesOf]

/-- Whether a line of the program is about a function. -/
def Names (p : Program) (f : String) : Prop :=
  ∃ l ∈ p.lines, l.name = f

instance (p : Program) (f : String) : Decidable (p.Names f) :=
  inferInstanceAs (Decidable (∃ l ∈ p.lines, l.name = f))

/-- The functions that calls lead to from the entry point or from a declared function. -/
inductive Reachable (p : Program) : String → Prop
  | entry : Reachable p Check.entryPoint
  | declared {d : Decl} : d ∈ p.decls → Reachable p d.name
  | call {f g : String} {c : Clause} : Reachable p f → c ∈ p.clausesOf f → g ∈ c.callees →
      Reachable p g

end Program

end Clausal
