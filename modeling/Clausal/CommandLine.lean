import Clausal.Build
import Clausal.CommandLine.Command
import Clausal.Diagnostic.Render
import Clausal.Highlight.Wat
import Clausal.Program.Outline
import Clausal.Scaffold
import Clausal.Text.Escapes

/-!
# The command line

A session runs one command in a workspace and collects what is written to the two output streams.
Log entries go to the error stream when they come up, before what is written after them.
-/

namespace Clausal.CommandLine

/-- A command while it runs. -/
structure Session where
  workspace : Workspace
  out : String := ""
  err : String := ""
  /-- Whether the output keeps its terminal escapes. -/
  color : Bool := false
  log : Log.Setup := {}
  /-- The directory for temporary files. -/
  scratch : Path

/-- How a command ends early. -/
inductive Ending where
  | exit (code : Int)
  | crash (t : Trouble)
deriving DecidableEq, Repr, Inhabited

/-- Actions of a session. -/
abbrev SessionM := ExceptT Ending (StateM Session)

namespace Session

/-- A text as it is written to an output stream. -/
def shown (s : Session) (text : String) : String :=
  if s.color then text else String.ofList (Text.stripEscapes text.toList)

/-- Writes to the output stream. -/
def print (text : String) : SessionM Unit :=
  modify fun s => { s with out := s.out ++ s.shown text }

/-- Writes to the error stream. -/
def complain (text : String) : SessionM Unit :=
  modify fun s => { s with err := s.err ++ s.shown text }

/-- Writes the log entries of the events since the last time. -/
def flushLog : SessionM Unit :=
  modify fun s => { s with
    err := s.err ++ s.log.write s.workspace.journal.entries
    workspace := { s.workspace with journal := [] } }

/-- Does something in the workspace. -/
def attempt {α : Type} (action : WorkM α) : SessionM (Except Trouble α) := do
  let (result, workspace) := action.run.run (← get).workspace
  modify fun s => { s with workspace }
  flushLog
  return result

/-- Does something in the workspace that has to succeed. -/
def work {α : Type} (action : WorkM α) : SessionM α := do
  match ← attempt action with
  | .ok a => return a
  | .error t => throw (.crash t)

/-- Ends the command. -/
def exit {α : Type} (code : Int) : SessionM α :=
  throw (.exit code)

/-- Ends the command with a message. -/
def fail {α : Type} (message : String) : SessionM α := do
  complain ("error: " ++ message ++ "\n")
  exit 1

end Session

open Session

/-- The lines of the files in a tree. -/
def excerpts (t : FileTree) : Excerpts := fun file =>
  match t.read (Path.ofString file) with
  | .ok bytes => ((Workspace.decode? bytes).map fun text => Text.lines text.toList).getD []
  | .error _ => []

/-- Shows diagnostics on the error stream, with the sources as they are now. -/
def report (diagnostics : List Diagnostic) : SessionM Unit := do
  let x := excerpts (← get).workspace.tree
  for d in diagnostics do
    complain (d.render true x ++ "\n")

/-- Starts writing log entries of a level and above. -/
def configureLog (level : Log.Level) : SessionM Unit :=
  modify fun s => { s with log := { level, installed := true } }

/-- Makes sure that a source has the right ending. -/
def requireSource (source : Path) : SessionM Unit :=
  if source.suffix = Build.sourceSuffix then return ()
  else fail ("expected a " ++ Build.sourceSuffix ++ " file, got '" ++ source.text ++ "'")

/-- The configuration for a source, and the directory below which results go. -/
def loadFor (source : Path) : SessionM (Config × Path) := do
  let (config, path?) ← work (Workspace.configFor source)
  return (config, (path?.getD source).parent)

/-- Shows the diagnostics of a build and ends the command if it made no result; otherwise gives the
paths of the result and of the module text that was kept. -/
def requireBuilt (outcome : Build.Outcome) : SessionM (Path × Option Path) := do
  report outcome.diagnostics
  match outcome with
  | .rejected _ => exit 1
  | .unassembled _ message _ => fail message
  | .built output text? _ => return (output, text?)

/-- Builds a source. -/
def runBuild (source : Path) (output? : Option Path) (keepText : Bool) : SessionM Unit := do
  requireSource source
  let (config, root) ← loadFor source
  let outcome ← work (Build.build source config output? (some root)
    (if keepText then some true else none))
  let (output, text?) ← requireBuilt outcome
  print ("built " ++ source.name ++ " -> " ++ output.text ++ "\n")
  if let some text := text? then print ("wrote " ++ text.text ++ "\n")

/-- Gives an action an empty directory that is there only while it runs. -/
def withScratch {α : Type} (action : Path → SessionM α) : SessionM α := do
  let scratch := (← get).scratch
  let change (f : FileTree → FileTree) : SessionM Unit :=
    modify fun s => { s with workspace := { s.workspace with tree := f s.workspace.tree } }
  change (·.put scratch.parts .directory)
  try
    let a ← action scratch
    change (·.erase scratch.parts)
    return a
  catch e =>
    change (·.erase scratch.parts)
    throw e

/-- Builds a source in a temporary directory and runs the result. -/
def runRun (source : Path) : SessionM Unit := do
  requireSource source
  let (config, _) ← loadFor source
  let finished ← withScratch fun scratch => do
    let output := scratch.child (source.stem ++ ".wasm")
    let _ ← requireBuilt (← work (Build.build source config (some output) none (some false)))
    match ← attempt (Workspace.runModule output config.tools.engine Workspace.defaultTimeout) with
    | .ok finished => return finished
    | .error (.tool message _) => fail message
    | .error t => throw (.crash t)
  print finished.out
  complain finished.err
  if finished.exitCode ≠ 0 then exit finished.exitCode

/-- Checks a source. -/
def runCheck (source : Path) : SessionM Unit := do
  requireSource source
  match ← work (Workspace.compile source) with
  | .error diagnostics =>
    report diagnostics
    exit 1
  | .ok compiled =>
    report compiled.diagnostics
    print ("checked " ++ source.name ++ ": no errors\n")

/-- Shows the module text of a source, or the outline of its program. -/
def runView (source : Path) (indent? : Option Int) (outline color : Bool) : SessionM Unit := do
  requireSource source
  let (config, _) ← loadFor source
  match ← work (Workspace.compile source) with
  | .error diagnostics =>
    report diagnostics
    exit 1
  | .ok compiled =>
    if outline then print compiled.program.outline
    else
      let indent ← work (match indent? with
        | some n => Workspace.checkIndent n
        | none => Workspace.indentOf config.build.indent)
      let text := compiled.code.toSexp.pretty indent
      if color then print (Highlight.write Highlight.Wat.rules text) else print (text ++ "\n")

/-- Makes a new project. -/
def runNew (name : String) : SessionM Unit := do
  match ← attempt (Scaffold.scaffold name none) with
  | .ok path => print ("created project '" ++ name ++ "' at " ++ path.text ++ "\n")
  | .error (.projectExists name) => fail (Trouble.projectExistsMessage name)
  | .error (.refused (.occupied path)) => fail ("[Errno 17] File exists: " ++ path.quoted)
  | .error t => throw (.crash t)

/-- The version of the program. -/
def versionText : String := "muru, version 0.1.0\n"

/-- A summary of the commands. -/
def helpText : String :=
  "Usage: muru [OPTIONS] COMMAND [ARGS]...\n" ++
  "\n" ++
  "  The muru compiler: multi-clause functions to WebAssembly.\n" ++
  "\n" ++
  "Options:\n" ++
  "  --version  Show the version and exit.\n" ++
  "  --help     Show this message and exit.\n" ++
  "\n" ++
  "Commands:\n" ++
  "  build  Compile a .muru file to a WebAssembly binary.\n" ++
  "  check  Type-check a .muru file without assembling it.\n" ++
  "  new    Create a new muru project.\n" ++
  "  run    Build a .muru file and execute it with wasmtime.\n" ++
  "  view   Print the WebAssembly text of a .muru file.\n"

/-- Runs a command. -/
def Command.perform : Command → SessionM Unit
  | .version => print versionText
  | .help => print helpText
  | .build source output? keepText level => do
    configureLog level
    runBuild source output? keepText
  | .run source level => do
    configureLog level
    runRun source
  | .check source level => do
    configureLog level
    runCheck source
  | .view source indent? outline color level => do
    configureLog level
    runView source indent? outline color
  | .new name => runNew name

/-- What a command line gives: its exit code, what was written, and what made the command crash. -/
structure Report where
  exitCode : Int
  out : String := ""
  err : String := ""
  crash? : Option Trouble := none
deriving DecidableEq, Repr, Inhabited

/-- The exit code of a command line that is misused. -/
def misuseCode : Int := 2

/-- Runs a command line; nothing for one that is misused. -/
def run (words : List String) (s : Session) : Option Report × Workspace :=
  match Command.read s.workspace.tree words with
  | .error .misuse => (none, s.workspace)
  | .error (.unusable f) => (some { exitCode := 1, crash? := some (.refused f) }, s.workspace)
  | .ok command =>
    let (result, s) := command.perform.run.run s
    let report := match result with
      | .ok () => { exitCode := 0, out := s.out, err := s.err }
      | .error (.exit code) => { exitCode := code, out := s.out, err := s.err }
      | .error (.crash t) => { exitCode := 1, out := s.out, err := s.err, crash? := some t }
    (some report, s.workspace)

end Clausal.CommandLine
