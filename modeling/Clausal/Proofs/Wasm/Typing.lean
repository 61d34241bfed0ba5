import Clausal.Assoc
import Clausal.Wasm

/-!
# The type system of the machine

Which instruction trees are well typed, relative to the types `F` of the functions of a module and
the types `L` of the locals of a function. An instruction leaves at most one value (`Leaves`), an
operand exactly one (`Operands`), and a body nothing or one value (`Sequence`). A module is well
typed (`Module.WellTyped`) if its functions have different names and every body leaves what its
function declares.
-/

namespace Clausal.Wasm

/-- The types of the parameters and of the result of a function. -/
structure FuncType where
  params : List Machine
  result : Option Machine
deriving DecidableEq, Repr

/-- The type of the result of a numeric instruction, if there is one for the type of the operands.
Division of `i32` is signed or unsigned, and there is no order or remainder of `f32` here. -/
def Numeric.result? : Numeric → Machine → Option Machine
  | .add, ty | .sub, ty | .mul, ty => some ty
  | .eq, _ | .ne, _ => some .i32
  | .div, .f32 => some .f32
  | .divS, .i32 | .divU, .i32 | .remU, .i32 | .and, .i32 => some .i32
  | .ltS, .i32 | .geU, .i32 => some .i32
  | _, _ => none

/-- The type of a local. Every parameter has a position, and some have a name. -/
def Params.local? (ps : Params) : Local → Option Machine
  | .index (.ofNat i) => ps.types[i]?
  | .index (.negSucc _) => none
  | .name n =>
    match ps with
    | .positional _ => none
    | .named ps => Assoc.value? ps n

mutual

/-- What an instruction leaves: nothing, or a value of a type. -/
inductive Leaves (F : String → Option FuncType) (L : Local → Option Machine) :
    Instr → Option Machine → Prop
  | i32Const {n : Int} : Leaves F L (.i32Const n) (some .i32)
  | f32Const {text : String} : Leaves F L (.f32Const text) (some .f32)
  | localGet {x : Local} {ty : Machine} : L x = some ty → Leaves F L (.localGet x) (some ty)
  | call {f : String} {ft : FuncType} {args : List Instr} : F f = some ft →
      Operands F L args ft.params → Leaves F L (.call f args) ft.result
  | numeric {ty out : Machine} {op : Numeric} {left right : Instr} : op.result? ty = some out →
      Leaves F L left (some ty) → Leaves F L right (some ty) →
      Leaves F L (.numeric ty op left right) (some out)
  | cond {result : Option Machine} {test : Instr} {yes no : List Instr} :
      Leaves F L test (some .i32) → Sequence F L yes result → Sequence F L no result →
      Leaves F L (.cond result test yes no) result
  | drop {ty : Machine} {value : Instr} : Leaves F L value (some ty) → Leaves F L (.drop value) none
  | store {address value : Instr} : Leaves F L address (some .i32) → Leaves F L value (some .i32) →
      Leaves F L (.store address value) none
  | store8 {address value : Instr} : Leaves F L address (some .i32) →
      Leaves F L value (some .i32) → Leaves F L (.store8 address value) none

/-- Operands leave one value each. -/
inductive Operands (F : String → Option FuncType) (L : Local → Option Machine) :
    List Instr → List Machine → Prop
  | nil : Operands F L [] []
  | cons {i : Instr} {is : List Instr} {ty : Machine} {types : List Machine} :
      Leaves F L i (some ty) → Operands F L is types → Operands F L (i :: is) (ty :: types)

/-- What instructions leave that follow one another. At most one of them leaves a value. -/
inductive Sequence (F : String → Option FuncType) (L : Local → Option Machine) :
    List Instr → Option Machine → Prop
  | nil : Sequence F L [] none
  | effect {i : Instr} {is : List Instr} {result : Option Machine} : Leaves F L i none →
      Sequence F L is result → Sequence F L (i :: is) result
  | value {i : Instr} {is : List Instr} {ty : Machine} : Leaves F L i (some ty) →
      Sequence F L is none → Sequence F L (i :: is) (some ty)

end

/-- One instruction as a body. -/
theorem Leaves.sequence {F : String → Option FuncType} {L : Local → Option Machine} {i : Instr}
    {ty : Machine} (h : Leaves F L i (some ty)) : Sequence F L [i] (some ty) :=
  .value h .nil

/-- The type of a function. -/
def Func.type (f : Func) : FuncType :=
  ⟨f.params.types, f.result⟩

/-- The type of a function that the host provides. -/
def Import.type (i : Import) : FuncType :=
  ⟨i.params, some i.result⟩

/-- The functions of a module with their types, those of the host first. -/
def Module.types (m : Module) : Assoc FuncType :=
  m.imports.map (fun i => (i.name, i.type)) ++ m.functions.map fun f => (f.name, f.type)

/-- A well-typed module. No two functions have one name, and every body leaves what its function
declares while every call in it names a function of the module and passes what that one takes. -/
structure Module.WellTyped (m : Module) : Prop where
  distinct : m.types.names.Nodup
  bodies : ∀ f ∈ m.functions, Sequence m.types.value? f.params.local? f.body f.result

end Clausal.Wasm
