import Clausal.Program
import Clausal.Text.Quoted

/-!
# Outlines of programs

The outline of a program shows its tree, one row for every node and every field, indented by two
blanks a level. Places are left out.
-/

namespace Clausal

namespace Outline

/-- Rows one level deeper. -/
def indented (rows : List String) : List String :=
  rows.map ("  " ++ ·)

/-- A node: its title over its fields. -/
def node (title : String) (fields : List (List String)) : List String :=
  title :: indented fields.flatten

/-- A field with a plain value. -/
def leaf (label text : String) : List String :=
  [label ++ ": " ++ text]

/-- A field with one node. -/
def child (label : String) (item : List String) : List String :=
  (label ++ ":") :: indented item

/-- A field with a list of nodes. -/
def children (label : String) (items : List (List String)) : List String :=
  if items.isEmpty then leaf label "[]" else child label items.flatten

/-- A text in quotes. -/
def quote (text : String) : String :=
  String.ofList (Text.quoted text.toList)

/-- A named value: the family and the name of the value, and what it stands for. -/
def named (family name meaning : String) : String :=
  "<" ++ family ++ "." ++ name ++ ": " ++ quote meaning ++ ">"

/-- A type. -/
def ty (t : Ty) : String :=
  named "VariableType" (t.name.map Char.toUpper) t.name

/-- The word for an operator. -/
def opName : Op → String
  | .add => "ADD"
  | .sub => "SUBTRACT"
  | .mul => "MULTIPLY"
  | .div => "DIVIDE"
  | .eq => "EQ"
  | .ne => "NEQ"

/-- An operator. -/
def op (o : Op) : String :=
  named "Operator" (opName o) o.sign

/-- The rows of a literal. -/
def literal : Literal → List String
  | .int n => node "IntLit" [leaf "value" (toString n)]
  | .float text => node "FloatLit" [leaf "value" (quote text)]
  | .bool b => node "BoolLit" [leaf "value" (if b then "True" else "False")]

mutual

/-- The rows of an expression. -/
def expr : Expr → List String
  | .lit value _ => literal value
  | .call name args _ =>
    node "CallExpr" [leaf "name" (quote name), children "args" (exprs args)]
  | .binary left o right _ =>
    node "BinaryExpr" [child "left" (expr left), leaf "op" (op o), child "right" (expr right)]
  | .cond test yes no _ =>
    node "TernaryExpr"
      [child "condition" (expr test), child "then_branch" (expr yes), child "else_branch" (expr no)]

/-- The rows of each of several expressions. -/
def exprs : List Expr → List (List String)
  | [] => []
  | e :: es => expr e :: exprs es

end

/-- The rows of a parameter. -/
def pattern : Pattern → List String
  | .name name _ => node "BindingPattern" [leaf "name" (quote name)]
  | .lit value _ => node "LiteralPattern" [child "literal" (literal value)]

/-- The rows of a line. -/
def line : Line → List String
  | .decl d =>
    node "SignatureDecl"
      [leaf "name" (quote d.name),
        children "arg_types" (d.signature.params.map fun t => leaf "VariableType" (ty t)),
        leaf "return_type" (ty d.signature.result)]
  | .clause c =>
    node "FunctionClause"
      [leaf "name" (quote c.name), children "params" (c.params.map pattern),
        child "body" (expr c.body)]

end Outline

/-- The outline of a program, every row ended by a line feed. -/
def Program.outline (p : Program) : String :=
  String.join ((p.lines.flatMap Outline.line).map (· ++ "\n"))

end Clausal
