import Clausal.Builtin
import Clausal.Check
import Clausal.Dispatch
import Clausal.Program.Grammar

/-!
# Compilation

A source text is read, checked and turned into a module: the frame and the start function, the
functions of the program that have a signature in the order of the first line that names them, and
the built-in functions. The first fault ends a compilation.
-/

namespace Clausal

/-- The functions of a program in the order of the first line that names them, each with the place
of that line and its clauses. -/
def Program.functions (p : Program) : Assoc (Span × List Clause) :=
  p.lines.foldl (fun m l =>
    let (span, clauses) := (m.value? l.name).getD (l.span, [])
    m.put l.name (span, clauses ++ l.clause?.toList)) []

namespace Compile

/-- The functions that have a signature, compiled in order; the others are skipped. -/
def emitFunctions (table : SignatureTable) :
    List (String × Span × List Clause) → EmitM (List Wasm.Func)
  | [] => pure []
  | (name, span, clauses) :: rest =>
    if table.has name then do
      let f ← Dispatch.function table name clauses span
      let fs ← emitFunctions table rest
      pure (f :: fs)
    else do
      Dispatch.record (.skipped name)
      emitFunctions table rest

/-- The module of a program with known signatures. -/
def emit (p : Program) (table : SignatureTable) : EmitM Wasm.Module := do
  let functions ← emitFunctions table p.functions
  return { imports := [Builtin.fdWrite]
           pages := 1
           functions := Builtin.start Check.entryPoint :: functions ++
             Builtin.functions.map (·.1) }

/-- What a compilation gives. -/
structure Output where
  program : Program
  code : Wasm.Module
  signatures : SignatureTable
  diagnostics : List Diagnostic
deriving Repr, Inhabited

/-- Why a compilation gives nothing. -/
inductive Failure where
  /-- The text is not a program. -/
  | unreadable (e : SyntaxError)
  /-- The program is refused. -/
  | stopped (s : Stop)
deriving DecidableEq, Repr, Inhabited

/-- The diagnostics that report a failure; nothing for a failure that is not the program's. -/
def Failure.report? : Failure → Option (List Diagnostic)
  | .unreadable (.batch ds) => some ds
  | .stopped (.fault f) => some [f.diagnostic]
  | _ => none

/-- The diagnostics that report a failure. -/
def Failure.diagnostics (f : Failure) : List Diagnostic :=
  f.report?.getD []

/-- The state in which the check of a program starts. -/
def initial : Check.State where
  builtins := Builtin.signatures

/-- Checks a program and makes its module; the journal tells what happened up to the end. -/
def program (p : Program) : Except Failure Output × Journal :=
  match (Check.validate p).run.run initial with
  | (.error stop, s) => (.error (.stopped stop), s.journal)
  | (.ok table, s) =>
    match (emit p table).run.run [] with
    | (.error stop, j) => (.error (.stopped stop), s.journal ++ j)
    | (.ok code, j) => (.ok ⟨p, code, table, (s.journal ++ j).warnings⟩, s.journal ++ j)

/-- Compiles a source text. -/
def source (text file : String) : Except Failure Output × Journal :=
  let begun := [Event.started file text.length]
  match Program.parse text file with
  | .error e => (.error (.unreadable e), begun)
  | .ok p =>
    let read := begun ++ [.parsed p.lines.length]
    match program p with
    | (.error e, j) => (.error e, read ++ j)
    | (.ok out, j) => (.ok out, read ++ j ++ [.assembled out.code])

end Compile

end Clausal
