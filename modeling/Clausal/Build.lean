import Clausal.Workspace

/-!
# Builds

A build compiles a source file, writes the module text beside the place of the result, has it
assembled, and takes the text away again unless it is wanted.
-/

namespace Clausal.Build

open Workspace

/-- The ending of source files. -/
def sourceSuffix : String := ".muru"

/-- How a build ends. -/
inductive Outcome where
  /-- The source was refused. -/
  | rejected (diagnostics : List Diagnostic)
  /-- The module text could not be assembled. -/
  | unassembled (text : Path) (message : String) (diagnostics : List Diagnostic)
  /-- The result was made; the module text too if it was wanted. -/
  | built (output : Path) (text? : Option Path) (diagnostics : List Diagnostic)
deriving DecidableEq, Repr, Inhabited

/-- The diagnostics of a build. -/
def Outcome.diagnostics : Outcome → List Diagnostic
  | .rejected ds | .unassembled _ _ ds | .built _ _ ds => ds

/-- Where the result of a source file goes: into the configured directory below a root. -/
def defaultOutput (source root : Path) : Toml.Value → WorkM Path
  | .string dir => return (root.child dir).child (source.stem ++ ".wasm")
  | v => throw (.outputDirKind v.kind)

/-- The path of the module text for a result. -/
def textPath (output : Path) : WorkM Path :=
  match output.withSuffix? ".wat" with
  | some p => return p
  | none => throw (.emptyName output)

/-- What a failed tool has to say: the message, and its error output if there is any. -/
def toolMessage (message err : String) : String :=
  if err = "" then message else message ++ "\n" ++ err

/-- Where a build puts its result: where it is told to, or below `root?` or, without that, below the
directory of the source. -/
def outputPath (source : Path) (config : Config) (output? root? : Option Path) : WorkM Path :=
  match output? with
  | some p => return p
  | none => defaultOutput source (root?.getD source.parent) config.build.outputDir

/-- Has module text assembled; what the tool has to say if it fails. -/
def assembleText (text output : Path) (config : Config) : WorkM (Option String) :=
  try
    assemble text output config.tools.assembler defaultTimeout
    pure none
  catch
    | .tool message err => pure (some (toolMessage message err))
    | t => throw t

/-- Makes the result of a compiled source file, and keeps the module text if it is wanted. -/
def produce (compiled : Compile.Output) (config : Config) (output : Path) (keepText : Bool) :
    WorkM Outcome := do
  makeDirectories output.parent true
  let text ← textPath output
  let indent ← indentOf config.build.indent
  writeText text (compiled.code.toSexp.pretty indent ++ "\n")
  record [.wrote text.text]
  match ← assembleText text output config with
  | some message => return .unassembled text message compiled.diagnostics
  | none =>
    record [.wrote output.text]
    if keepText then return .built output (some text) compiled.diagnostics
    else
      change (·.remove text)
      return .built output none compiled.diagnostics

/-- Builds a source file; `keepText?` overrides the configuration. -/
def build (source : Path) (config : Config) (output? root? : Option Path)
    (keepText? : Option Bool) : WorkM Outcome := do
  match ← compile source with
  | .error diagnostics => return .rejected diagnostics
  | .ok compiled =>
    let output ← outputPath source config output? root?
    produce compiled config output (keepText?.getD config.build.emitText.isTruthy)

end Clausal.Build
