import Clausal.CommandLine.Switch
import Clausal.FileTree
import Clausal.Log
import Clausal.Text.Numeral

/-!
# Commands

What a command line asks for. A command line is misused if it has an unknown command or switch, too
few or too many arguments, a value of the wrong form, a source that is not a file, or a result that
is a directory. Its words are sorted first; then the values of its switches are checked in the order
in which they are given, and its argument after them.
-/

namespace Clausal.CommandLine

/-- A command with its settings. -/
inductive Command where
  | version
  | help
  | build (source : Path) (output? : Option Path) (keepText : Bool) (level : Log.Level)
  | run (source : Path) (level : Log.Level)
  | check (source : Path) (level : Log.Level)
  | view (source : Path) (indent? : Option Int) (outline color : Bool) (level : Log.Level)
  | new (name : String)
deriving DecidableEq, Repr, Inhabited

/-- Why a command line is not carried out. -/
inductive Refusal where
  /-- It is misused. -/
  | misuse
  /-- The file tree cannot tell what a path in it leads to. -/
  | unusable (f : FileTree.Fault)
deriving DecidableEq, Repr, Inhabited

namespace Command

/-! ## Switches -/

/-- Asks for the version. -/
def versionSwitch : Switch := ⟨"version", none, false⟩

/-- Asks for help. -/
def helpSwitch : Switch := ⟨"help", none, false⟩

/-- Says where the result goes. -/
def outputSwitch : Switch := ⟨"output", some 'o', true⟩

/-- Keeps the module text. -/
def emitTextSwitch : Switch := ⟨"emit-text", none, false⟩

/-- Says which log entries are written. -/
def logLevelSwitch : Switch := ⟨"log-level", none, true⟩

/-- Sets the indent. -/
def indentSwitch : Switch := ⟨"indent", none, true⟩

/-- Asks for the outline of the program instead of its module. -/
def outlineSwitch : Switch := ⟨"ast", none, false⟩

/-- Asks for colours. -/
def colorSwitch : Switch := ⟨"color", none, false⟩

/-! ## Values -/

/-- A value that must be there. -/
def require {α : Type} : Option α → Except Refusal α
  | some a => .ok a
  | none => .error .misuse

/-- A text with its ASCII letters in lower case. -/
def lowerCase (text : String) : String :=
  String.ofList (text.toList.map Char.toLower)

/-- The log level that is asked for; letters of both cases will do. -/
def level (w : Words) : Except Refusal Log.Level :=
  match w.value? logLevelSwitch with
  | none => .ok .warning
  | some text => require (Log.Level.ofName? (lowerCase text))

/-- The indent that is asked for, if any: a number that is not negative. -/
def indent? (w : Words) : Except Refusal (Option Int) :=
  match w.value? indentSwitch with
  | none => .ok none
  | some text =>
    match Text.integer text.toList with
    | .ok n => if 0 ≤ n then .ok (some n) else .error .misuse
    | .error _ => .error .misuse

/-- What stands where a text of the command line leads, if anything can. -/
def entryAt? (t : FileTree) (text : String) : Except Refusal (Option FileTree.Entry) :=
  match t.findText text with
  | .ok e => .ok (some e)
  | .error .nullCharacter => .error (.unusable .nullCharacter)
  | .error _ => .ok none

/-- A source file, which must be there. -/
def source (t : FileTree) (text : String) : Except Refusal Path := do
  match ← entryAt? t text with
  | some (.file _) => return Path.ofString text
  | _ => throw .misuse

/-- The path of a result that is asked for, if any, which must not be a directory. -/
def output? (t : FileTree) (w : Words) : Except Refusal (Option Path) :=
  match w.value? outputSwitch with
  | none => .ok none
  | some text => do
    match ← entryAt? t text with
    | some .directory => throw .misuse
    | _ => return some (Path.ofString text)

/-- Checks the value of a switch. -/
def checkSwitch (t : FileTree) (w : Words) (s : Switch) : Except Refusal Unit := do
  if s = outputSwitch then let _ ← output? t w
  if s = indentSwitch then let _ ← indent? w
  if s = logLevelSwitch then let _ ← level w

/-! ## Reading -/

/-- Reads the words after the name of a command; `make` makes the command of its argument. -/
def readWords (t : FileTree) (switches : List Switch) (words : List String)
    (make : Words → String → Except Refusal Command) : Except Refusal Command := do
  let w ← require (Words.read (helpSwitch :: switches) true words)
  if w.has helpSwitch then return .help
  for (s, _) in w.switches do
    checkSwitch t w s
  match w.arguments with
  | [] => throw .misuse
  | argument :: more =>
    let command ← make w argument
    if more = [] then return command else throw .misuse

/-- Reads words that may start with switches of no command, of which the first one counts: what it
asks for, and the words after the switches. -/
def readGeneral? (words : List String) : Option (Option Command × List String) := do
  let w ← Words.read [versionSwitch, helpSwitch] false words
  match w.switches with
  | (s, _) :: _ => return (some (if s = versionSwitch then .version else .help), w.arguments)
  | [] => return (none, w.arguments)

/-- Reads the name of a command and the words after it. Words that start with no name of a command
may still be switches of no command, namely where two dashes stand before them. -/
def readNamed (t : FileTree) (name : String) (words : List String) : Except Refusal Command :=
  match name with
  | "build" =>
    readWords t [outputSwitch, emitTextSwitch, logLevelSwitch] words fun w argument => do
      return .build (← source t argument) (← output? t w) (w.has emitTextSwitch) (← level w)
  | "run" =>
    readWords t [logLevelSwitch] words fun w argument => do
      return .run (← source t argument) (← level w)
  | "check" =>
    readWords t [logLevelSwitch] words fun w argument => do
      return .check (← source t argument) (← level w)
  | "view" =>
    readWords t [indentSwitch, outlineSwitch, colorSwitch, logLevelSwitch] words
      fun w argument => do
        return .view (← source t argument) (← indent? w) (w.has outlineSwitch) (w.has colorSwitch)
          (← level w)
  | "new" => readWords t [] words fun _ argument => .ok (.new argument)
  | _ => require ((readGeneral? (name :: words)).bind (·.1))

/-- Reads a command line. -/
def read (t : FileTree) (words : List String) : Except Refusal Command :=
  match readGeneral? words with
  | none => .error .misuse
  | some (some command, _) => .ok command
  | some (none, []) => .error .misuse
  | some (none, name :: rest) => readNamed t name rest

end Command

end Clausal.CommandLine
