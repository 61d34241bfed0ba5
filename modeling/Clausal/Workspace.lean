import Clausal.Compile
import Clausal.Config
import Clausal.Text.Run
import Clausal.Tool

/-!
# Workspaces

A workspace is all that commands work on: the file tree, the tools, the room in memory, the journal
of what happened and the commands that were run. Its actions may end with a `Trouble`; what they
changed before stays changed.
-/

namespace Clausal

/-- What commands work on. -/
structure Workspace where
  tree : FileTree := {}
  tools : Toolbox := .empty
  /-- How many blanks in a row fit into memory. -/
  room : Int
  journal : Journal := []
  /-- The commands that were run, with their arguments. -/
  commands : List (List String) := []

/-- Why an action gives no result. -/
inductive Trouble where
  /-- The file tree refused something. -/
  | refused (f : FileTree.Fault)
  /-- A file is not a text. -/
  | notText
  /-- There is no configuration file. -/
  | noConfig
  /-- A configuration file cannot be used. -/
  | badConfig (f : Config.Fault)
  /-- The directory of a new project is there already. -/
  | projectExists (name : String)
  /-- A compilation failed in a way that no diagnostic reports. -/
  | compilation (f : Compile.Failure)
  /-- A path has no last part. -/
  | emptyName (path : Path)
  /-- The configured directory for results is not a string. -/
  | outputDirKind (kind : Toml.Kind)
  /-- The configured indent is not a number of columns. -/
  | indentKind (kind : Toml.Kind)
  /-- There is no run of so many blanks as an indent has. -/
  | indentWidth (f : Text.RunFault)
  /-- The configured name of a tool cannot be looked up. -/
  | toolKind (kind : Toml.Kind)
  /-- The configured name of a tool is a number with too many digits to be written. -/
  | toolNumberTooLong
  /-- A tool is missing or failed; its error output is kept. -/
  | tool (message : String) (err : String)
deriving DecidableEq, Repr, Inhabited

namespace Trouble

/-- The words for a project that is there already. -/
def projectExistsMessage (name : String) : String :=
  "Directory '" ++ name ++ "' already exists"

/-- The words for a configuration file that is not there. -/
def noConfigMessage : String :=
  "No " ++ Config.fileName ++ " found in any parent directory"

end Trouble

/-- Actions on a workspace. -/
abbrev WorkM := ExceptT Trouble (StateM Workspace)

namespace Workspace

/-- Adds events to the journal. -/
def record (events : List Event) : WorkM Unit :=
  modify fun w => { w with journal := w.journal ++ events }

/-- Reads something off the file tree. -/
def examine {α : Type} (f : FileTree → Except FileTree.Fault α) : WorkM α := do
  match f (← get).tree with
  | .ok a => return a
  | .error f => throw (.refused f)

/-- Changes the file tree. -/
def change (f : FileTree → Except FileTree.Fault FileTree) : WorkM Unit := do
  let tree ← examine f
  modify fun w => { w with tree }

/-- Makes a directory and all directories that lead to it. -/
def makeDirectories (p : Path) (mayExist : Bool) : WorkM Unit := do
  let (tree, result) := (← get).tree.makeDirectories p mayExist
  modify fun w => { w with tree }
  match result with
  | .ok () => return ()
  | .error f => throw (.refused f)

/-- Writes a text file. -/
def writeText (p : Path) (text : String) : WorkM Unit :=
  change (·.write p text.toUTF8)

/-- The text of a file as it is read: every line ends with a line feed. -/
def decode? (bytes : ByteArray) : Option String :=
  (String.fromUTF8? bytes).map fun text => String.ofList (Text.unifyBreaks text.toList)

/-- Reads a text file. -/
def readText (p : Path) : WorkM String := do
  match decode? (← examine (·.read p)) with
  | some text => return text
  | none => throw .notText

/-- The current directory as a path. -/
def currentDirectory : WorkM Path := do
  return ⟨1, (← get).tree.here⟩

/-! ## Configurations -/

/-- The configuration file of the nearest directory, from a place upwards. -/
def configAbove? (t : FileTree) (r : Route) : Except FileTree.Fault (Option Path) := do
  let path : Path := ⟨1, r ++ [Config.fileName]⟩
  match ← t.find? path with
  | some _ => return some path
  | none => if r = [] then return none else configAbove? t r.dropLast
termination_by r.length
decreasing_by
  have := List.length_pos_iff.mpr (by assumption : ¬ r = [])
  rw [List.length_dropLast]; omega

/-- The configuration file that governs a path; that of the current directory if none is given. -/
def configPath? (start? : Option Path) (t : FileTree) : Except FileTree.Fault (Option Path) := do
  let r ← t.resolve (start?.getD {})
  match ← t.find? ⟨1, r⟩ with
  | some (.file _) => configAbove? t r.dropLast
  | _ => configAbove? t r

/-- Finds the configuration file that governs a path. -/
def findConfig (start? : Option Path) : WorkM Path := do
  match ← examine (configPath? start?) with
  | some p => return p
  | none => throw .noConfig

/-- Reads a configuration file. -/
def loadConfig (p : Path) : WorkM Config := do
  match Config.ofBytes (← examine (·.read p)) with
  | .ok config => return config
  | .error f => throw (.badConfig f)

/-- The configuration that governs a source file and the file it comes from; the defaults if there
is none. -/
def configFor (source : Path) : WorkM (Config × Option Path) := do
  match ← examine (configPath? (some source)) with
  | none => return ({}, none)
  | some p => return (← loadConfig p, some p)

/-! ## Compilation -/

/-- Compiles a source file: its output, or the diagnostics that report why there is none. -/
def compile (source : Path) : WorkM (Except (List Diagnostic) Compile.Output) := do
  let text ← readText source
  let (result, events) := Compile.source text source.text
  record events
  match result with
  | .ok output => return .ok output
  | .error f =>
    match f.report? with
    | some diagnostics => return .error diagnostics
    | none => throw (.compilation f)

/-- The columns of an indent. -/
def checkIndent (n : Int) : WorkM Int := do
  match Text.checkRun (← get).room n with
  | .ok () => return n
  | .error f => throw (.indentWidth f)

/-- The columns of a configured indent; yes and no count as one and zero. -/
def indentOf : Toml.Value → WorkM Int
  | .integer n => checkIndent n
  | .boolean b => checkIndent (if b then 1 else 0)
  | v => throw (.indentKind v.kind)

/-! ## Tools -/

/-- The seconds that a tool may take. -/
def defaultTimeout : Toml.Value := .integer 60

/-- The tool of a name, or the failure to find it. -/
def toolNamed (role hint text : String) (tool? : Option Tool) : WorkM Tool :=
  match tool? with
  | some tool => return tool
  | none => throw (.tool (role ++ " '" ++ text ++ "' not found (install " ++ hint ++ ")") "")

/-- The tool that a configured name finds, or why it cannot be used. Only strings name tools; arrays
and tables cannot be looked up, and a number with very many digits cannot even be reported. -/
def findTool (role hint : String) (name : Toml.Value) : WorkM Tool := do
  match name with
  | .string text => toolNamed role hint text ((← get).tools text)
  | .array _ | .table _ => throw (.toolKind name.kind)
  | .integer n =>
    if Text.digitLimit < (Nat.toDigits 10 n.natAbs).length then throw .toolNumberTooLong
    else toolNamed role hint name.text none
  | _ => toolNamed role hint name.text none

/-- Runs a tool; `timeout` is the number of seconds that it may take. -/
def runTool (role : String) (tool : Tool) (arguments : List String) (timeout : Toml.Value) :
    WorkM Tool.Finished := do
  let command := tool.path :: arguments
  record [.running command]
  let (result, tree) := tool.run arguments (← get).tree
  modify fun w => { w with tree, commands := w.commands ++ [command] }
  match result with
  | .ok finished => return finished
  | .error .notStarted => throw (.tool (role ++ " '" ++ tool.path ++ "' not found") "")
  | .error .timedOut =>
    throw (.tool (role ++ " timed out after " ++ timeout.text ++ "s") "")
  | .error (.refused f) => throw (.refused f)

/-- Assembles module text into a binary module. -/
def assemble (text output : Path) (assembler timeout : Toml.Value) : WorkM Unit := do
  let tool ← findTool "assembler" "wabt" assembler
  let result ← runTool "assembler" tool [text.text, "-o", output.text] timeout
  if result.exitCode ≠ 0 then
    throw (.tool ("assembly failed (exit " ++ toString result.exitCode ++ ")") result.err)

/-- Runs a binary module. -/
def runModule (binary : Path) (engine timeout : Toml.Value) : WorkM Tool.Finished := do
  let tool ← findTool "runtime" "wasmtime" engine
  runTool "runtime" tool [binary.text] timeout

end Workspace

end Clausal
