import Clausal.Diagnostic
import Clausal.Program

/-!
# Faults of meaning

Why a program that reads well is still refused. A `Fault` is a cause and, where one is known, the
place that shows it; the code and the wording of a cause are fixed here and nowhere else. Checking
and code generation stop at the first fault, so a stop carries one. They also stop when they are
asked about something that no program contains, and then no fault of the program is to blame.
-/

namespace Clausal

/-- What is wrong with a program. -/
inductive Cause where
  /-- A free-standing message. -/
  | other (message : String)
  /-- A type other than the one that is needed. -/
  | typeMismatch (expected got : Ty)
  /-- An operator that is not defined on a type. -/
  | badOperand (op : Op) (ty : Ty)
  /-- A call with the wrong number of arguments. -/
  | badArity (name : String) (expected actual : Int)
  /-- A second signature, or a name that belongs to the system. -/
  | alreadyDefined (name : String)
  /-- A function that is nowhere defined. -/
  | notFound (name : String)
  /-- A function without clauses and without a signature. -/
  | noClause (name : String)
  /-- A recursive function without a declared signature. -/
  | untyped (name : String)
  /-- A function all of whose clauses have literal parameters. -/
  | notCovered (name : String)
deriving DecidableEq, Repr, Inhabited

namespace Cause

/-- The code of a cause. -/
def code : Cause → String
  | .other _ => "E000"
  | .typeMismatch .. => "E300"
  | .badOperand .. => "E301"
  | .badArity .. => "E302"
  | .alreadyDefined _ => "E303"
  | .notFound _ => "E310"
  | .noClause _ => "E311"
  | .untyped _ => "E312"
  | .notCovered _ => "E320"

/-- The wording of a cause. -/
def message : Cause → String
  | .other text => text
  | .typeMismatch expected got =>
    "type mismatch: expected '" ++ expected.name ++ "', got '" ++ got.name ++ "'"
  | .badOperand op ty =>
    "no implementation of '" ++ op.mnemonic ++ "' for '" ++ ty.name ++ "'"
  | .badArity name expected actual =>
    "wrong number of arguments to '" ++ name ++ "': expected " ++ toString expected ++
      ", got " ++ toString actual
  | .alreadyDefined name => "function '" ++ name ++ "' already has a signature"
  | .notFound name => "undefined function '" ++ name ++ "'"
  | .noClause name => "no clause of '" ++ name ++ "' produced a type"
  | .untyped name =>
    "could not determine type for recursive function '" ++ name ++ "'; declare its signature"
  | .notCovered name =>
    "not all cases covered for '" ++ name ++ "': add a clause without literal patterns"

end Cause

/-- A cause and the place that shows it. -/
structure Fault where
  cause : Cause
  span : Option Span := none
deriving DecidableEq, Repr, Inhabited

/-- The one diagnostic that reports a fault. -/
def Fault.diagnostic (f : Fault) : Diagnostic :=
  .error f.cause.code f.cause.message f.span

/-- Why checking or code generation went no further. -/
inductive Stop where
  /-- The program is at fault. -/
  | fault (f : Fault)
  /-- The first clause was asked for of a function that has none. -/
  | noFirstClause (name : String)
  /-- A clause binds a parameter beyond the arguments of its signature. -/
  | noArgument (index : Nat)
  /-- The signature was asked for of a function that is checked or declared and has none. -/
  | noSignature (name : String)
deriving DecidableEq, Repr, Inhabited

end Clausal
