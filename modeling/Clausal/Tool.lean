import Clausal.FileTree

/-!
# External tools

Modules are assembled and run by external programs. A `Tool` is one of them: where it was found, and
what a run of it does to the file tree and gives back. Nothing is assumed about a tool; statements
about builds say what they need of it.
-/

namespace Clausal

namespace Tool

/-- What a finished run gives back. -/
structure Finished where
  exitCode : Int := 0
  out : String := ""
  err : String := ""
deriving DecidableEq, Repr, Inhabited

/-- Why a run gives nothing back. -/
inductive Trouble where
  /-- The tool cannot be started. -/
  | notStarted
  /-- The time is up. -/
  | timedOut
  /-- The file tree refused something to the tool. -/
  | refused (f : FileTree.Fault)
deriving DecidableEq, Repr, Inhabited

end Tool

/-- A tool: its path, and what running it with some arguments does. -/
structure Tool where
  path : String
  run : List String → FileTree → Except Tool.Trouble Tool.Finished × FileTree

/-- The tools that can be found, by name. -/
abbrev Toolbox := String → Option Tool

/-- The toolbox without tools. -/
def Toolbox.empty : Toolbox := fun _ => none

end Clausal
