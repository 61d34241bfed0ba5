import Clausal.Journal
import Clausal.Lower

/-!
# Code of functions

The clauses of a function become one body. A clause with literal parameters is a branch under a
guard that compares the arguments with the literals; the first clause without them takes whatever
is left and ends the search. The clauses after that one are reported and get no code, and a
function without such a clause is refused. For

    f 5 = 50
    f 7 = 70
    f n = n

the body is `(if (result i32) guard5 (then 50) (else (if (result i32) guard7 …)))`.
-/

namespace Clausal

/-- A step of code generation: it may stop, and leaves a journal in any case. -/
abbrev EmitM := ExceptT Stop (StateM Journal)

namespace Dispatch

/-- Adds an event to the journal. -/
def record (e : Event) : EmitM Unit :=
  modify fun j => j ++ [e]

/-! ## Guards -/

/-- The comparisons of the literals among parameters with the arguments, from a position on. -/
def tests (index : Nat) : List Pattern → List Wasm.Instr
  | [] => []
  | .name .. :: ps => tests (index + 1) ps
  | .lit value _ :: ps =>
    .numeric value.ty.machine .eq (.localGet (.index index)) value.code :: tests (index + 1) ps

/-- All of several conditions, or nothing if there are none. -/
def conjunction? : List Wasm.Instr → Option Wasm.Instr
  | [] => none
  | [test] => some test
  | test :: rest => (conjunction? rest).map (.numeric .i32 .and test)

/-- The condition under which the literals of a clause equal its arguments; nothing for a clause
without literals. -/
def guard? (c : Clause) : Option Wasm.Instr :=
  conjunction? (tests 0 c.params)

/-! ## Clauses -/

/-- The argument positions of a signature. -/
def positions (sig : Signature) : List Slot :=
  sig.params.zipIdx.map fun p => ⟨p.2, p.1⟩

/-- The position of the first name among parameters at or beyond a position. -/
def nameBeyond? (bound index : Nat) : List Pattern → Option Nat
  | [] => none
  | .name .. :: ps => if bound ≤ index then some index else nameBeyond? bound (index + 1) ps
  | .lit .. :: ps => nameBeyond? bound (index + 1) ps

/-- The slots of the names among the parameters of a clause; of two equal names the later one
counts. -/
def slots (c : Clause) (sig : Signature) : Except Stop (Assoc Slot) :=
  match nameBeyond? sig.params.length 0 c.params with
  | some index => .error (.noArgument index)
  | none => .ok (Assoc.ofPairs (Pattern.bindings c.params (positions sig)))

/-- The code of the body of a clause. -/
def clauseCode (table : SignatureTable) (sig : Signature) (c : Clause) :
    Except Stop Wasm.Instr := do
  let names ← slots c sig
  match (Scope.mk table names).lower c.body sig.result with
  | .ok code => return code
  | .error fault => throw (.fault fault)

/-- The clauses of a function cut at the first one that takes everything. -/
structure Split where
  guarded : List Clause
  catchAll : Clause
  dropped : List Clause
deriving Repr, Inhabited

/-- Cuts clauses at the first one that takes everything, if there is one. -/
def split? : List Clause → Option Split
  | [] => none
  | c :: cs =>
    if c.isCatchAll then some ⟨[], c, cs⟩
    else (split? cs).map fun s => { s with guarded := c :: s.guarded }

/-- Wraps guarded clauses around the code for what is left, so that the first clause is tried
first. Codes are made from the last clause to the first. -/
def branches (table : SignatureTable) (sig : Signature) (otherwise : Wasm.Instr) :
    List Clause → Except Stop Wasm.Instr
  | [] => .ok otherwise
  | c :: cs => do
    let rest ← branches table sig otherwise cs
    match guard? c with
    | none => return rest
    | some guard =>
      let code ← clauseCode table sig c
      return .cond (some sig.result.machine) guard [code] [rest]

/-- The body of a function. -/
def body (table : SignatureTable) (name : String) (clauses : List Clause) (sig : Signature)
    (span : Option Span) : EmitM Wasm.Instr := do
  match split? clauses with
  | none => throw (.fault ⟨.notCovered name, (clauses.getLast?.map (·.span)).or span⟩)
  | some s =>
    s.dropped.forM fun c => record (.unreachable name c.span)
    let otherwise ← liftM (clauseCode table sig s.catchAll)
    let code ← liftM (branches table sig otherwise s.guarded)
    record (.dispatched name s.guarded.length)
    return code

/-- The function that the clauses of a name make up; `span` is the place to show if there are no
clauses. -/
def function (table : SignatureTable) (name : String) (clauses : List Clause)
    (span : Option Span) : EmitM Wasm.Func := do
  match table.lookup name with
  | none => throw (.fault ⟨.notFound name, none⟩)
  | some sig =>
    let code ← body table name clauses sig span
    return { name
             params := .positional (sig.params.map Ty.machine)
             result := some sig.result.machine
             body := [code] }

end Dispatch

end Clausal
