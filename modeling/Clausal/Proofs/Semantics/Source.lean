import Clausal.Builtin
import Clausal.Proofs.Semantics.Basic
import Clausal.Proofs.Typing

/-!
# The meaning of programs

A call of a function tries its clauses in order and takes the first one whose literals equal the
arguments. Its body is evaluated with the parameters bound, of two equal names the later one, and a
bound name hides a function. Operands and arguments are evaluated from left to right, a condition
before the one branch that it chooses. Integers are 32 bits wide and wrap around; a division by
zero, and the one quotient that does not fit, trap. A call of a printing function is an event.

Fuel is spent on calls. `Finishes` and `Traps` say how a call ends with enough of it, and no call
ends in two ways (`Finishes.unique`).
-/

namespace Clausal.Source

/-- Values. -/
inductive Value (F : Floats) where
  | int (n : Int32)
  | float (x : F.Carrier)
  | bool (b : Bool)

variable {F : Floats}

namespace Value

/-- The type of a value. -/
def ty : Value F → Ty
  | .int _ => .int
  | .float _ => .float
  | .bool _ => .bool

/-- The value of a literal. -/
def ofLiteral : Literal → Value F
  | .int n => .int (Int32.ofInt n)
  | .float text => .float (F.ofText text)
  | .bool b => .bool b

/-- A literal has the type of its value. -/
theorem ty_ofLiteral (value : Literal) : (ofLiteral value : Value F).ty = value.ty := by
  cases value <;> rfl

/-- Whether two values are equal; values of different types are not. -/
def equal : Value F → Value F → Bool
  | .int a, .int b => a == b
  | .float a, .float b => F.eq a b
  | .bool a, .bool b => a == b
  | _, _ => false

end Value

/-- The result of an operator. -/
def operate (op : Op) : Value F → Value F → Except Halt (Value F)
  | .int a, .int b =>
    match op with
    | .add => .ok (.int (a + b))
    | .sub => .ok (.int (a - b))
    | .mul => .ok (.int (a * b))
    | .div =>
      if b = 0 ∨ (a = Int32.minValue ∧ b = -1) then .error .trap else .ok (.int (a / b))
    | .eq => .ok (.bool (a == b))
    | .ne => .ok (.bool (a != b))
  | .float a, .float b =>
    match op with
    | .add => .ok (.float (F.add a b))
    | .sub => .ok (.float (F.sub a b))
    | .mul => .ok (.float (F.mul a b))
    | .div => .ok (.float (F.div a b))
    | .eq => .ok (.bool (F.eq a b))
    | .ne => .ok (.bool (F.ne a b))
  | .bool a, .bool b =>
    match op with
    | .eq => .ok (.bool (a == b))
    | .ne => .ok (.bool (a != b))
    | _ => .error .stuck
  | _, _ => .error .stuck

/-- Whether the literals among parameters equal the arguments at their positions. -/
def accepts : List Pattern → List (Value F) → Bool
  | [], [] => true
  | .name .. :: ps, _ :: vs => accepts ps vs
  | .lit value _ :: ps, v :: vs => v.equal (.ofLiteral value) && accepts ps vs
  | _, _ => false

/-- How calls of functions are evaluated. -/
abbrev Invoke (F : Floats) := String → List (Value F) → EvalM (List Print) (Value F)

mutual

/-- The value of an expression, given the values of the parameters in scope. -/
def eval (invoke : Invoke F) (env : String → Option (Value F)) :
    Expr → EvalM (List Print) (Value F)
  | .lit value _ => pure (.ofLiteral value)
  | .call f args _ =>
    match env f with
    | some v => if args.isEmpty then pure v else throw .stuck
    | none => do
      let vs ← evalArgs invoke env args
      invoke f vs
  | .binary left op right _ => do
    let a ← eval invoke env left
    let b ← eval invoke env right
    liftM (operate op a b)
  | .cond test yes no _ => do
    match ← eval invoke env test with
    | .bool true => eval invoke env yes
    | .bool false => eval invoke env no
    | _ => throw .stuck

/-- The values of arguments, from left to right. -/
def evalArgs (invoke : Invoke F) (env : String → Option (Value F)) :
    List Expr → EvalM (List Print) (List (Value F))
  | [] => pure []
  | e :: es => do
    let v ← eval invoke env e
    let vs ← evalArgs invoke env es
    pure (v :: vs)

end

/-- The effect of a printing function, which returns what it prints. -/
def print (f : String) : List (Value F) → EvalM (List Print) (Value F)
  | [.int n] => do
    modify (· ++ [⟨f, n.toBitVec⟩])
    pure (.int n)
  | _ => throw .stuck

/-- The first clause that accepts the arguments is evaluated. -/
def select (invoke : Invoke F) (clauses : List Clause) (args : List (Value F)) :
    EvalM (List Print) (Value F) :=
  match clauses.find? fun c => accepts c.params args with
  | some c => eval invoke (Pattern.argument? c.params args) c.body
  | none => throw .stuck

/-- A call of a function in a program, with calls at most as deep as the fuel. -/
def invoke (p : Program) : Nat → Invoke F
  | 0, _, _ => throw .timeout
  | fuel + 1, f, args =>
    if Builtin.signatures.has f then print f args else select (invoke p fuel) (p.clausesOf f) args

/-- A call finishes with a value and prints. -/
def Finishes (p : Program) (f : String) (args : List (Value F)) (v : Value F)
    (prints : List Print) : Prop :=
  ∃ fuel, (invoke p fuel f args).run.run [] = (.ok v, prints)

/-- A call traps after some prints. -/
def Traps (p : Program) (f : String) (args : List (Value F)) (prints : List Print) : Prop :=
  ∃ fuel, (invoke p fuel f args).run.run [] = (.error .trap, prints)

/-! ## Fuel -/

mutual

/-- More fuel for calls is more fuel for an expression. -/
theorem eval_mono {i j : Invoke F} (h : ∀ f vs, Approx (i f vs) (j f vs))
    (env : String → Option (Value F)) : ∀ e, Approx (eval i env e) (eval j env e)
  | .lit .. => Approx.refl _
  | .call f args _ => by
    rw [eval, eval]
    cases env f with
    | some v => exact Approx.refl _
    | none => exact (evalArgs_mono h env args).bind fun vs => h f vs
  | .binary left op right _ => by
    rw [eval, eval]
    exact (eval_mono h env left).bind fun a => (eval_mono h env right).bind fun b => Approx.refl _
  | .cond test yes no _ => by
    rw [eval, eval]
    refine (eval_mono h env test).bind fun c => ?_
    split
    · exact eval_mono h env yes
    · exact eval_mono h env no
    · exact Approx.refl _

/-- More fuel for calls is more fuel for arguments. -/
theorem evalArgs_mono {i j : Invoke F} (h : ∀ f vs, Approx (i f vs) (j f vs))
    (env : String → Option (Value F)) : ∀ es, Approx (evalArgs i env es) (evalArgs j env es)
  | [] => Approx.refl _
  | e :: es => by
    rw [evalArgs, evalArgs]
    exact (eval_mono h env e).bind fun v => (evalArgs_mono h env es).bind fun vs => Approx.refl _

end

/-- More fuel changes nothing but a timeout. -/
theorem invoke_mono (p : Program) (fuel : Nat) (f : String) (args : List (Value F)) :
    Approx (invoke p fuel f args) (invoke p (fuel + 1) f args) := by
  induction fuel generalizing f args with
  | zero => exact Approx.timeout _
  | succ fuel ih =>
    rw [invoke, invoke]
    split
    · exact Approx.refl _
    · unfold select
      split
      · exact eval_mono ih _ _
      · exact Approx.refl _

/-- **A call finishes in one way only.** -/
theorem Finishes.unique {p : Program} {f : String} {args : List (Value F)} {v w : Value F}
    {prints prints' : List Print} (h : Finishes p f args v prints)
    (h' : Finishes p f args w prints') : v = w ∧ prints = prints' := by
  obtain ⟨i, hi⟩ := h
  obtain ⟨j, hj⟩ := h'
  obtain ⟨hv, hprints⟩ := Approx.unique (fun n => invoke_mono p n f args) hi hj nofun nofun
  exact ⟨Except.ok.inj hv, hprints⟩

/-- A call that finishes does not trap. -/
theorem Finishes.not_traps {p : Program} {f : String} {args : List (Value F)} {v : Value F}
    {prints prints' : List Print} (h : Finishes p f args v prints) : ¬ Traps p f args prints' := by
  rintro ⟨j, hj⟩
  obtain ⟨i, hi⟩ := h
  obtain ⟨heq, -⟩ := Approx.unique (fun n => invoke_mono p n f args) hi hj nofun nofun
  cases heq

end Clausal.Source
