/-!
# Log entries

Log entries have a level and the name of the part of the compiler that wrote them. `Log.Setup`
says whether entries are written at all and from which level on.
-/

namespace Clausal.Log

/-- How important a log entry is. -/
inductive Level where
  | debug
  | info
  | warning
  | error
deriving DecidableEq, Repr, Inhabited

namespace Level

/-- The level with a name, in lower case. -/
def ofName? : String → Option Level
  | "debug" => some .debug
  | "info" => some .info
  | "warning" => some .warning
  | "error" => some .error
  | _ => none

/-- The name of a level in a log line. -/
def label : Level → String
  | .debug => "DEBUG"
  | .info => "INFO"
  | .warning => "WARNING"
  | .error => "ERROR"

/-- The rank of a level; more important entries have higher ranks. -/
def rank : Level → Nat
  | .debug => 10
  | .info => 20
  | .warning => 30
  | .error => 40

end Level

/-- One entry. -/
structure Entry where
  level : Level
  origin : String
  message : String
deriving DecidableEq, Repr, Inhabited

/-- The line of an entry: level in eight places, origin and message. -/
def Entry.text (e : Entry) : String :=
  String.ofList (e.level.label.toList.rightpad 8 ' ') ++ " | " ++ e.origin ++ " | " ++ e.message

/-- Which entries are written. -/
structure Setup where
  level : Level := .warning
  installed : Bool := false
deriving DecidableEq, Repr, Inhabited

namespace Setup

/-- Turns writing on from a named level on; an unknown name changes nothing. -/
def configure? (_ : Setup) (name : String) : Option Setup :=
  (Level.ofName? name).map fun level => { level, installed := true }

/-- Whether an entry is written. -/
def admits (s : Setup) (level : Level) : Bool :=
  s.installed && s.level.rank ≤ level.rank

/-- The text that writing some entries gives, a line for each one that is admitted. -/
def write (s : Setup) (entries : List Entry) : String :=
  String.join ((entries.filter fun e => s.admits e.level).map fun e => e.text ++ "\n")

end Setup

end Clausal.Log
