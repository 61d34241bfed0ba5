import Clausal.Span
import Clausal.Ty

/-!
# Programs

A program is a list of lines. A line declares the signature of a function or gives one of its
clauses: parameters, each a name or a literal, and a body. The clauses of one name are tried in
the order of their lines. Every part of a program knows its place in the source text.
-/

namespace Clausal

/-- The operators between two operands. -/
inductive Op where
  | add
  | sub
  | mul
  | div
  | eq
  | ne
deriving DecidableEq, Repr, Inhabited

namespace Op

/-- The sign of an operator in a source text. -/
def sign : Op → String
  | .add => "+"
  | .sub => "-"
  | .mul => "*"
  | .div => "/"
  | .eq => "=="
  | .ne => "!="

/-- The operator that a sign stands for. -/
def ofSign? : String → Option Op
  | "+" => some .add
  | "-" => some .sub
  | "*" => some .mul
  | "/" => some .div
  | "==" => some .eq
  | "!=" => some .ne
  | _ => none

/-- The short name of an operator in instructions and messages. -/
def mnemonic : Op → String
  | .add => "add"
  | .sub => "sub"
  | .mul => "mul"
  | .div => "div"
  | .eq => "eq"
  | .ne => "ne"

/-- Whether the result of an operator has the type of its operands; comparisons give a boolean. -/
def isArithmetic : Op → Bool
  | .eq | .ne => false
  | _ => true

end Op

/-- Literal values. A floating-point literal keeps its source text. -/
inductive Literal where
  | int (value : Int)
  | float (text : String)
  | bool (value : Bool)
deriving DecidableEq, Repr, Inhabited

/-- The type of a literal. -/
def Literal.ty : Literal → Ty
  | .int _ => .int
  | .float _ => .float
  | .bool _ => .bool

/-- A literal as the operand of a constant instruction; booleans are 1 and 0. -/
def Literal.operand : Literal → String
  | .int n => toString n
  | .float t => t
  | .bool b => if b then "1" else "0"

/-- Expressions. A call without arguments also refers to a parameter or to a constant function. -/
inductive Expr where
  | lit (value : Literal) (span : Span)
  | call (name : String) (args : List Expr) (span : Span)
  | binary (left : Expr) (op : Op) (right : Expr) (span : Span)
  | cond (test : Expr) (thenBranch : Expr) (elseBranch : Expr) (span : Span)
deriving Repr, Inhabited

/-- The place of an expression. -/
def Expr.span : Expr → Span
  | .lit _ s => s
  | .call _ _ s => s
  | .binary _ _ _ s => s
  | .cond _ _ _ s => s

/-- Parameters: a name takes any argument, a literal only itself. -/
inductive Pattern where
  | name (name : String) (span : Span)
  | lit (value : Literal) (span : Span)
deriving DecidableEq, Repr, Inhabited

namespace Pattern

/-- The place of a parameter. -/
def span : Pattern → Span
  | .name _ s => s
  | .lit _ s => s

/-- Whether a parameter is a literal. -/
def isLiteral : Pattern → Bool
  | .name .. => false
  | .lit .. => true

/-- The names among parameters, each with what stands at its position in another list. -/
def bindings {α : Type} : List Pattern → List α → List (String × α)
  | .name n _ :: ps, x :: xs => (n, x) :: bindings ps xs
  | .lit .. :: ps, _ :: xs => bindings ps xs
  | _, _ => []

end Pattern

/-- A line that declares the signature of a function. -/
structure Decl where
  name : String
  signature : Signature
  span : Span
deriving DecidableEq, Repr, Inhabited

/-- A line that gives one clause of a function. -/
structure Clause where
  name : String
  params : List Pattern
  body : Expr
  span : Span
deriving Repr, Inhabited

/-- Whether a clause takes every argument list of its length. -/
def Clause.isCatchAll (c : Clause) : Bool :=
  !c.params.any Pattern.isLiteral

/-- The lines of a program. -/
inductive Line where
  | decl (d : Decl)
  | clause (c : Clause)
deriving Repr, Inhabited

namespace Line

/-- The function that a line is about. -/
def name : Line → String
  | .decl d => d.name
  | .clause c => c.name

/-- The place of a line. -/
def span : Line → Span
  | .decl d => d.span
  | .clause c => c.span

/-- The declaration of a line that is one. -/
def decl? : Line → Option Decl
  | .decl d => some d
  | .clause _ => none

/-- The clause of a line that is one. -/
def clause? : Line → Option Clause
  | .decl _ => none
  | .clause c => some c

end Line

/-- The lines of one source file. -/
structure Program where
  lines : List Line
  file : String
deriving Repr, Inhabited

namespace Program

/-- The declarations of a program, in order. -/
def decls (p : Program) : List Decl :=
  p.lines.filterMap Line.decl?

/-- The clauses of a program, in order. -/
def clauses (p : Program) : List Clause :=
  p.lines.filterMap Line.clause?

end Program

end Clausal
