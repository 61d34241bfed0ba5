import Clausal.Fault
import Clausal.Journal

/-!
# Checking programs

Parameters have no declared types, so the signature of a function is found at its first call: the
types of the arguments flow in, every clause is checked against them, and the result type on which
the clauses agree is kept in the signature table. Later calls have to match it. Checking starts at
`main` and at every function with a declared signature.

A call to a function whose clauses are just being checked needs a declared signature.

A check returns its state also when it stops, and the state is then as the last step left it.
-/

namespace Clausal.Check

/-- The function that a program starts with. -/
def entryPoint : String := "main"

/-- Names that belong to the module frame and not to functions of a program. -/
def reservedNames : List String := ["fd_write", "_start"]

/-- What is known during a check. -/
structure State where
  /-- Signatures of the functions that every program can call. -/
  builtins : Assoc Signature
  /-- The clauses of every function, in order. -/
  functions : Assoc (List Clause) := []
  /-- The signatures found so far. -/
  signatures : SignatureTable := []
  /-- The signature lines, by name. -/
  declared : Assoc Decl := []
  /-- The functions all of whose clauses have been checked. -/
  validated : List String := []
  /-- The functions whose clauses are being checked, the innermost first. -/
  active : List String := []
  /-- What has happened so far. -/
  journal : Journal := []
deriving Inhabited

/-- A step of a check: it may stop, and leaves a state in any case. -/
abbrev CheckM := ExceptT Stop (StateM State)

/-- Stops with a fault of the program. -/
def fail {α : Type} (cause : Cause) (span : Option Span) : CheckM α :=
  throw (.fault ⟨cause, span⟩)

/-- Adds an event to the journal. -/
def record (e : Event) : CheckM Unit :=
  modify fun s => { s with journal := s.journal ++ [e] }

/-- Gives a function its signature; it must not have one yet. -/
def define (name : String) (sig : Signature) (span : Option Span) : CheckM Unit := do
  match (← get).signatures.define? name sig with
  | some table => modify fun s => { s with signatures := table }
  | none => fail (.alreadyDefined name) span

/-- Runs a step while a function is among the active ones. -/
def withActive {α : Type} (name : String) (step : CheckM α) : CheckM α := fun s =>
  let (result, after) := step { s with active := name :: s.active }
  (result, { after with active := after.active.tail })

/-! ## Expressions -/

/-- How a call of a function is checked: its name, the types of its arguments, and its place. -/
abbrev OnCall := String → List Ty → Option Span → CheckM Ty

/-- The type of two operands under an operator. -/
def operatorType (op : Op) (left right : Ty) (span : Span) : CheckM Ty :=
  if left ≠ right then fail (.typeMismatch left right) span
  else if !op.isArithmetic then pure .bool
  else if left = .bool then fail (.badOperand op left) span
  else pure left

mutual

/-- The type of an expression, given the types of the parameters in scope. A parameter hides a
function of its name and takes no arguments. -/
def inferExpr (onCall : OnCall) (locals : Assoc Ty) : Expr → CheckM Ty
  | .lit value _ => pure value.ty
  | .call name args span => do
    let types ← inferArgs onCall locals args
    match locals.value? name with
    | some ty =>
      if types.isEmpty then pure ty else fail (.badArity name 0 types.length) span
    | none =>
      if (← get).functions.has name then onCall name types span
      else fail (.notFound name) span
  | .binary left op right span => do
    let leftType ← inferExpr onCall locals left
    let rightType ← inferExpr onCall locals right
    operatorType op leftType rightType span
  | .cond test yes no _ => do
    let testType ← inferExpr onCall locals test
    if testType ≠ .bool then fail (.typeMismatch .bool testType) test.span
    else
      let yesType ← inferExpr onCall locals yes
      let noType ← inferExpr onCall locals no
      if yesType ≠ noType then fail (.typeMismatch yesType noType) no.span
      else pure yesType

/-- The types of the arguments of a call, from left to right. -/
def inferArgs (onCall : OnCall) (locals : Assoc Ty) : List Expr → CheckM (List Ty)
  | [] => pure []
  | e :: es => do
    let ty ← inferExpr onCall locals e
    let types ← inferArgs onCall locals es
    pure (ty :: types)

end

/-! ## Clauses -/

/-- The first literal parameter whose type is not that of the argument at its position. -/
def literalMismatch? : List Pattern → List Ty → Option Fault
  | .lit value span :: ps, ty :: types =>
    if value.ty ≠ ty then some ⟨.typeMismatch ty value.ty, span⟩ else literalMismatch? ps types
  | .name .. :: ps, _ :: types => literalMismatch? ps types
  | _, _ => none

/-- Checks one clause against the types of its arguments and returns the type of its body. -/
def checkClause (onCall : OnCall) (c : Clause) (args : List Ty) : CheckM Ty := do
  record (.checking c)
  if c.params.length ≠ args.length then
    fail (.badArity c.name c.params.length args.length) c.span
  else match literalMismatch? c.params args with
    | some fault => throw (.fault fault)
    | none => inferExpr onCall (Assoc.ofPairs (Pattern.bindings c.params args)) c.body

/-- Checks several clauses in order; each is returned with the type of its body. -/
def checkClauses (onCall : OnCall) (args : List Ty) : List Clause → CheckM (List (Clause × Ty))
  | [] => pure []
  | c :: cs => do
    let ty ← checkClause onCall c args
    let rest ← checkClauses onCall args cs
    pure ((c, ty) :: rest)

/-! ## Calls -/

/-- Checks the arguments of a call against a known signature. -/
def checkArguments (name : String) (sig : Signature) (args : List Ty) (span : Option Span) :
    CheckM Unit :=
  if sig.params.length ≠ args.length then fail (.badArity name sig.params.length args.length) span
  else match (sig.params.zip args).find? fun p => p.1 ≠ p.2 with
    | some (expected, got) => fail (.typeMismatch expected got) span
    | none => pure ()

/-- Marks a function as checked. -/
def markValidated (name : String) : CheckM Unit :=
  modify fun s => { s with validated := if name ∈ s.validated then s.validated
                                        else s.validated ++ [name] }

/-- Brings together the types of the clauses of a function, which all have to agree with the first
one and with the known signature; without one the signature is kept now. -/
def settle (name : String) (known : Option Signature) (args : List Ty) (span : Option Span) :
    List (Clause × Ty) → CheckM Ty
  | [] =>
    match known with
    | none => fail (.noClause name) span
    | some sig => pure sig.result
  | (c, ty) :: rest =>
    match rest.find? fun p => p.2 ≠ ty with
    | some (other, got) => fail (.typeMismatch ty got) other.span
    | none => do
      match known with
      | none =>
        define name ⟨args, ty⟩ none
        record (.inferred name ⟨args, ty⟩)
      | some sig =>
        if sig.result ≠ ty then fail (.typeMismatch sig.result ty) c.span
      markValidated name
      pure ty

/-- The result of a function that is checked or being checked, for arguments that fit. -/
def knownResult (name : String) (sig : Signature) (args : List Ty) (span : Option Span) :
    CheckM Ty := do
  checkArguments name sig args span
  pure sig.result

/-- Checks a call of a function: against its signature if it has one, and its clauses unless that
is done or going on. At most `depth` calls are followed into one another; every one of them makes
one more function active, so a depth above the number of functions is never used up without a
function being met twice, and that is the fault reported then. -/
def checkCall (depth : Nat) (name : String) (args : List Ty) (span : Option Span) : CheckM Ty :=
  match depth with
  | 0 => fail (.untyped name) span
  | depth + 1 => do
    let s ← get
    let known := s.signatures.lookup name
    if name ∈ s.validated then
      match known with
      | some sig => knownResult name sig args span
      | none => throw (.noSignature name)
    else if name ∈ s.active then
      match known with
      | some sig => knownResult name sig args span
      | none => fail (.untyped name) span
    else
      known.forM fun sig => checkArguments name sig args span
      let results ← withActive name
        (checkClauses (fun n a p => checkCall depth n a p) args ((s.functions.value? name).getD []))
      settle name known args span results

/-- Checks a call of a function from outside. -/
def call (name : String) (args : List Ty) (span : Option Span) : CheckM Ty := do
  checkCall ((← get).functions.length + 1) name args span

/-- Checks a clause against the types of its arguments from outside. -/
def clause (c : Clause) (args : List Ty) : CheckM Ty :=
  checkClause call c args

/-- The type of an expression from outside. -/
def expr (e : Expr) (locals : Assoc Ty) : CheckM Ty :=
  inferExpr call locals e

/-! ## Programs -/

/-- Enters the functions that every program can call. -/
def registerBuiltins : CheckM Unit := do
  (← get).builtins.forM fun (name, sig) => do
    define name sig none
    modify fun s => { s with functions := s.functions.put name [] }

/-- Whether a program may not define a name. -/
def isReserved (s : State) (name : String) : Bool :=
  s.builtins.has name || reservedNames.contains name

/-- Enters a signature line. -/
def registerDecl (d : Decl) : CheckM Unit := do
  let s ← get
  if isReserved s d.name || s.declared.has d.name then fail (.alreadyDefined d.name) d.span
  else
    define d.name d.signature d.span
    modify fun s => { s with
      declared := s.declared.put d.name d
      functions := s.functions.put d.name ((s.functions.value? d.name).getD []) }

/-- Enters a clause. -/
def registerClause (c : Clause) : CheckM Unit := do
  let s ← get
  if isReserved s c.name then fail (.alreadyDefined c.name) c.span
  else modify fun s => { s with
    functions := s.functions.put c.name ((s.functions.value? c.name).getD [] ++ [c]) }

/-- Enters all signature lines of a program and then all its clauses. -/
def registerProgram (p : Program) : CheckM Unit := do
  p.decls.forM registerDecl
  p.clauses.forM registerClause

/-- The place of the line that stands for the entry point. -/
def entrySpan (s : State) (clauses : List Clause) : CheckM Span :=
  match s.declared.value? entryPoint, clauses with
  | some d, _ => pure d.span
  | none, c :: _ => pure c.span
  | none, [] => throw (.noFirstClause entryPoint)

/-- Checks the entry point, which takes no arguments and returns an integer. -/
def checkEntryPoint : CheckM Ty := do
  let s ← get
  match s.functions.value? entryPoint with
  | none => fail (.notFound entryPoint) none
  | some clauses =>
    if s.builtins.has entryPoint then fail (.notFound entryPoint) none
    else
      let span ← entrySpan s clauses
      let ty ← call entryPoint [] span
      if ty ≠ .int then fail (.typeMismatch .int ty) span else pure ty

/-- Checks a declared function unless that is done, on arguments of the types of its signature. -/
def checkDeclared (d : Decl) : CheckM Unit := do
  let s ← get
  if d.name ∈ s.validated then pure ()
  else match s.signatures.lookup d.name with
    | some sig => discard (call d.name sig.params d.span)
    | none => throw (.noSignature d.name)

/-- Reports every function with clauses that never got a signature. -/
def reportUnused : CheckM Unit := do
  let s ← get
  s.functions.forM fun (name, clauses) =>
    match clauses with
    | [] => pure ()
    | c :: _ => if s.signatures.has name then pure () else record (.unused name c.span)

/-- Checks a whole program and returns the signatures of its functions. -/
def validate (p : Program) : CheckM SignatureTable := do
  registerBuiltins
  registerProgram p
  let ty ← checkEntryPoint
  record (.entryReturns ty)
  (← get).declared.forM fun (_, d) => checkDeclared d
  reportUnused
  return (← get).signatures

end Clausal.Check
