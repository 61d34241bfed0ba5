import Clausal.Sexp
import Clausal.Ty

/-!
# WebAssembly code

The part of WebAssembly that compiled programs are made of, as trees of instructions in which every
operand stands below the instruction that takes it, and its text form.
-/

namespace Clausal.Wasm

/-- A local of a function, by position or by name. -/
inductive Local where
  | index (i : Int)
  | name (n : String)
deriving DecidableEq, Repr, Inhabited

/-- The numeric instructions on two operands. -/
inductive Numeric where
  | add
  | sub
  | mul
  | div
  | divS
  | divU
  | remU
  | eq
  | ne
  | ltS
  | geU
  | and
deriving DecidableEq, Repr, Inhabited

/-- The name of a numeric instruction without the type it works on. -/
def Numeric.mnemonic : Numeric → String
  | .add => "add"
  | .sub => "sub"
  | .mul => "mul"
  | .div => "div"
  | .divS => "div_s"
  | .divU => "div_u"
  | .remU => "rem_u"
  | .eq => "eq"
  | .ne => "ne"
  | .ltS => "lt_s"
  | .geU => "ge_u"
  | .and => "and"

/-- The name of a numeric instruction on a machine type, such as `i32.add`. -/
def Numeric.name (op : Numeric) (ty : Machine) : String :=
  ty.name ++ "." ++ op.mnemonic

/-- Instructions with their operands. -/
inductive Instr where
  | i32Const (value : Int)
  | f32Const (text : String)
  | localGet (x : Local)
  | call (function : String) (args : List Instr)
  | numeric (ty : Machine) (op : Numeric) (left right : Instr)
  | cond (result : Option Machine) (test : Instr) (yes no : List Instr)
  | drop (value : Instr)
  | store (address value : Instr)
  | store8 (address value : Instr)
deriving Repr, Inhabited

/-- The parameters of a function: types by position, or names with types. -/
inductive Params where
  | positional (types : List Machine)
  | named (params : List (String × Machine))
deriving DecidableEq, Repr, Inhabited

/-- The types of the parameters, in order. -/
def Params.types : Params → List Machine
  | .positional ts => ts
  | .named ps => ps.map (·.2)

/-- A function. -/
structure Func where
  name : String
  exportAs : Option String := none
  params : Params := .positional []
  result : Option Machine := none
  body : List Instr := []
deriving Repr, Inhabited

/-- A function that the host provides. -/
structure Import where
  library : String
  item : String
  name : String
  params : List Machine
  result : Machine
deriving DecidableEq, Repr, Inhabited

/-- A module: what it imports, the pages of its memory, and its functions. -/
structure Module where
  imports : List Import
  pages : Nat
  functions : List Func
deriving Repr, Inhabited

/-! ## Text form -/

/-- A list with a word in front. -/
def word (head : String) (rest : List Sexp) : Sexp :=
  .list (.atom head :: rest)

/-- The text form of a machine type. -/
def typeAtom (ty : Machine) : Sexp :=
  .atom ty.name

/-- The text form of a result type. -/
def resultForm (ty : Machine) : Sexp :=
  word "result" [typeAtom ty]

/-- The text form of a local. -/
def Local.toSexp : Local → Sexp
  | .index i => .atom (toString i)
  | .name n => .reference n

mutual

/-- The text form of an instruction. -/
def Instr.toSexp : Instr → Sexp
  | .i32Const n => word "i32.const" [.atom (toString n)]
  | .f32Const t => word "f32.const" [.atom t]
  | .localGet x => word "local.get" [x.toSexp]
  | .call f args => word "call" (.reference f :: toSexps args)
  | .numeric ty op a b => word (op.name ty) [a.toSexp, b.toSexp]
  | .cond result test yes no =>
    word "if" ((result.map resultForm).toList ++
      test.toSexp :: word "then" (toSexps yes) ::
        if no.isEmpty then [] else [word "else" (toSexps no)])
  | .drop x => word "drop" [x.toSexp]
  | .store a x => word "i32.store" [a.toSexp, x.toSexp]
  | .store8 a x => word "i32.store8" [a.toSexp, x.toSexp]

/-- The text forms of several instructions. -/
def toSexps : List Instr → List Sexp
  | [] => []
  | i :: is => i.toSexp :: toSexps is

end

theorem toSexps_eq_map (is : List Instr) : toSexps is = is.map Instr.toSexp := by
  induction is with
  | nil => rfl
  | cons i is ih => rw [toSexps, ih, List.map_cons]

/-- The text forms of parameters: types by position share one form, a named parameter has its
own. -/
def Params.toSexps : Params → List Sexp
  | .positional [] => []
  | .positional ts => [word "param" (ts.map typeAtom)]
  | .named ps => ps.map fun p => word "param" [.reference p.1, typeAtom p.2]

/-- The text form of a function. -/
def Func.toSexp (f : Func) : Sexp :=
  word "func" (.reference f.name ::
    (f.exportAs.map fun e => word "export" [.quotation e]).toList ++ f.params.toSexps ++
    (f.result.map resultForm).toList ++ toSexps f.body)

/-- The text form of an import. -/
def Import.toSexp (i : Import) : Sexp :=
  word "import" [.quotation i.library, .quotation i.item,
    word "func" (.reference i.name :: (Params.positional i.params).toSexps ++
      [resultForm i.result])]

/-- The text form of a module, which exports its memory. -/
def Module.toSexp (m : Module) : Sexp :=
  word "module" (m.imports.map Import.toSexp ++
    [word "export" [.quotation "memory", word "memory" [.atom "0"]],
      word "memory" [.atom (toString m.pages)]] ++
    m.functions.map Func.toSexp)

end Clausal.Wasm
