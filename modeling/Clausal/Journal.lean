import Clausal.Diagnostic
import Clausal.Log
import Clausal.Program
import Clausal.Wasm

/-!
# The journal of a compilation

Everything worth telling that happens during a compilation is an `Event`, and a `Journal` lists
the events in order. Warnings and log entries are two views of a journal: some events are warnings,
and most have an entry in the log.
-/

namespace Clausal

/-- What happens during a compilation. -/
inductive Event where
  /-- A source text of some length is taken up. -/
  | started (file : String) (size : Nat)
  /-- The source text has been read. -/
  | parsed (lines : Nat)
  /-- The check of a clause begins. -/
  | checking (c : Clause)
  /-- A signature has been inferred. -/
  | inferred (name : String) (signature : Signature)
  /-- The entry point has been checked. -/
  | entryReturns (ty : Ty)
  /-- A function is never called. -/
  | unused (name : String) (span : Span)
  /-- No code is made for a function. -/
  | skipped (name : String)
  /-- A clause comes after one that takes everything. -/
  | unreachable (name : String) (span : Span)
  /-- The clauses of a function have been made one body. -/
  | dispatched (name : String) (guarded : Nat)
  /-- The module is complete. -/
  | assembled (code : Wasm.Module)
  /-- A file has been written. -/
  | wrote (path : String)
  /-- An external tool is started. -/
  | running (command : List String)
deriving Repr, Inhabited

/-- Events in the order in which they happened. -/
abbrev Journal := List Event

namespace Event

/-- The warning that an event is. -/
def warning? : Event → Option Diagnostic
  | .unused name span =>
    some (.warning "W300" ("function '" ++ name ++ "' is never used") span)
  | .unreachable name span =>
    some (.warning "W301" ("unreachable clause of '" ++ name ++ "'") span)
  | _ => none

/-- The log entry of an event. -/
def logged? : Event → Option Log.Entry
  | .started file size =>
    some ⟨.debug, "muru.builder", "compiling " ++ file ++ " (" ++ toString size ++ " bytes)"⟩
  | .parsed n => some ⟨.debug, "muru.builder", "parsed " ++ toString n ++ " line(s)"⟩
  | .checking _ => none
  | .inferred name sig =>
    some ⟨.debug, "muru.validator", "inferred " ++ name ++ " :: " ++ sig.text⟩
  | .entryReturns ty => some ⟨.debug, "muru.validator", "main returns " ++ ty.name⟩
  | .unused name _ => some ⟨.info, "muru.validator", "function '" ++ name ++ "' is never used"⟩
  | .skipped name => some ⟨.debug, "muru.wasm_emitter", "skipping unused function " ++ name⟩
  | .unreachable name span =>
    some ⟨.info, "muru.dispatch", "unreachable clause of '" ++ name ++ "' at " ++ span.place⟩
  | .dispatched name n =>
    some ⟨.debug, "muru.dispatch",
      name ++ ": " ++ toString n ++ " guarded clause(s) before the catch-all"⟩
  | .assembled code => some ⟨.debug, "muru.builder", "module:\n" ++ code.toSexp.pretty 4⟩
  | .wrote path => some ⟨.info, "muru.builder", "wrote " ++ path⟩
  | .running command => some ⟨.debug, "muru.toolchain", "running " ++ " ".intercalate command⟩

end Event

namespace Journal

/-- The warnings of a journal, in order. -/
def warnings (j : Journal) : List Diagnostic :=
  j.filterMap Event.warning?

/-- The log entries of a journal, in order. -/
def entries (j : Journal) : List Log.Entry :=
  j.filterMap Event.logged?

end Journal

end Clausal
