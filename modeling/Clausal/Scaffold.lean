import Clausal.Workspace

/-!
# New projects

A new project is a directory with a configuration, a first program, a read-me file and a list of
files that version control leaves out.
-/

namespace Clausal.Scaffold

open Workspace

/-- The configuration file of a new project. -/
def configText (name : String) : String :=
  "[package]\n" ++
  "name = \"" ++ name ++ "\"\n" ++
  "version = \"0.1.0\"\n" ++
  "authors = []\n" ++
  "\n" ++
  "[build]\n" ++
  "output_dir = \"build\"\n" ++
  "indent = 4\n" ++
  "emit_text = false\n" ++
  "\n" ++
  "[tools]\n" ++
  "wat2wasm = \"wat2wasm\"\n" ++
  "wasmtime = \"wasmtime\"\n"

/-- The program of a new project. -/
def programText : String :=
  "# Prints the 10th Fibonacci number.\n" ++
  "fib :: int -> int\n" ++
  "fib 0 = 0\n" ++
  "fib 1 = 1\n" ++
  "fib n = fib (n - 1) + fib (n - 2)\n" ++
  "\n" ++
  "main = fib 10\n"

/-- The files that version control leaves out. -/
def ignoreText : String :=
  "build/\n" ++
  "__pycache__/\n"

/-- The read-me file of a new project. -/
def readmeText (name : String) : String :=
  "# " ++ name ++ "\n" ++
  "\n" ++
  "A muru project.\n" ++
  "\n" ++
  "## Build\n" ++
  "\n" ++
  "```bash\n" ++
  "muru build src/main.muru\n" ++
  "```\n" ++
  "\n" ++
  "## Run\n" ++
  "\n" ++
  "```bash\n" ++
  "muru run src/main.muru\n" ++
  "```\n"

/-- Makes a new project of some name in a directory, the current one if none is given, and returns
its path. -/
def scaffold (name : String) (parent? : Option Path) : WorkM Path := do
  let base ← match parent? with
    | some p => pure p
    | none => currentDirectory
  let project := base.child name
  if (← examine (·.find? project)).isSome then throw (.projectExists name)
  makeDirectories (project.child "src") false
  writeText (project.child Config.fileName) (configText name)
  writeText ((project.child "src").child "main.muru") programText
  writeText (project.child ".gitignore") ignoreText
  writeText (project.child "README.md") (readmeText name)
  return project

end Clausal.Scaffold
