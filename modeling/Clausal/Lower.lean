import Clausal.Fault
import Clausal.Wasm

/-!
# Code of expressions

An expression becomes one instruction with its operands below it. A parameter is read from its
argument position, everything else is a call. Instructions are chosen by type, and the types of
operands are found again from the parameters and the signatures.
-/

namespace Clausal

/-- An argument position and the type of what stands there. -/
structure Slot where
  index : Int
  ty : Ty
deriving DecidableEq, Repr, Inhabited

/-- The constant instruction of a literal. -/
def Literal.code : Literal → Wasm.Instr
  | .int n => .i32Const n
  | .float text => .f32Const text
  | .bool b => .i32Const (if b then 1 else 0)

/-- The numeric instruction for an operator on operands of a type; integers divide with a sign. -/
def Op.instruction (op : Op) (ty : Ty) : Wasm.Numeric :=
  match op with
  | .add => .add
  | .sub => .sub
  | .mul => .mul
  | .div => if ty = .int then .divS else .div
  | .eq => .eq
  | .ne => .ne

/-- What names mean in the body of a clause. -/
structure Scope where
  signatures : SignatureTable
  slots : Assoc Slot := []
deriving Repr, Inhabited

namespace Scope

/-- The type of an expression that is known to have one. -/
def typeOf (s : Scope) : Expr → Except Fault Ty
  | .lit value _ => .ok value.ty
  | .call name _ span =>
    match s.slots.value? name with
    | some slot => .ok slot.ty
    | none =>
      match s.signatures.lookup name with
      | some sig => .ok sig.result
      | none => .error ⟨.notFound name, span⟩
  | .binary left op _ _ => if op.isArithmetic then s.typeOf left else .ok .bool
  | .cond _ yes _ _ => s.typeOf yes

mutual

/-- The code of an expression of a type. -/
def lower (s : Scope) : Expr → Ty → Except Fault Wasm.Instr
  | .lit value _, _ => .ok value.code
  | .call name args _, _ =>
    match s.slots.value? name with
    | some slot => .ok (.localGet (.index slot.index))
    | none => do
      let codes ← s.lowerArgs args
      return .call name codes
  | .binary left op right _, _ => do
    let ty ← s.typeOf left
    let leftCode ← s.lower left ty
    let rightCode ← s.lower right ty
    return .numeric ty.machine (op.instruction ty) leftCode rightCode
  | .cond test yes no _, ty => do
    let testCode ← s.lower test .bool
    let yesCode ← s.lower yes ty
    let noCode ← s.lower no ty
    return .cond (some ty.machine) testCode [yesCode] [noCode]

/-- The codes of the arguments of a call, from left to right. -/
def lowerArgs (s : Scope) : List Expr → Except Fault (List Wasm.Instr)
  | [] => .ok []
  | e :: es => do
    let ty ← s.typeOf e
    let code ← s.lower e ty
    let codes ← s.lowerArgs es
    return code :: codes

end

end Scope

end Clausal
