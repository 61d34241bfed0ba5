/-!
# Switches of a command line

The words of a command line are switches, values of switches, and arguments. A switch is written
with two dashes and its name, and if it takes a value, that follows after an equals sign or is the
next word. A switch with a letter can also be written with one dash and the letter; its value
follows at once or is the next word. The word of two dashes ends the switches.
-/

namespace Clausal.CommandLine

/-- A switch: its name, the letter that stands for it, and whether it takes a value. Only switches
that take a value have letters. -/
structure Switch where
  name : String
  letter? : Option Char := none
  takesValue : Bool := false
deriving DecidableEq, Repr, Inhabited

/-- What a word that starts with a dash turns out to be. -/
inductive Switch.Reading where
  | unknown
  | complete (s : Switch) (value : String)
  /-- The value is the next word. -/
  | pending (s : Switch)
deriving DecidableEq, Repr, Inhabited

namespace Switch

/-- Reads a word that starts with two dashes. -/
def readLong (switches : List Switch) (word : List Char) : Reading :=
  let name := String.ofList (word.takeWhile (· ≠ '='))
  let value? : Option (List Char) := (word.dropWhile (· ≠ '=')).tail?
  match switches.find? (·.name = name), value? with
  | none, _ => .unknown
  | some s, none => if s.takesValue then .pending s else .complete s ""
  | some s, some value => if s.takesValue then .complete s (String.ofList value) else .unknown

/-- Reads a word that starts with one dash and a letter. -/
def readShort (switches : List Switch) (letter : Char) (rest : List Char) : Reading :=
  match switches.find? (·.letter? = some letter) with
  | none => .unknown
  | some s => if rest = [] then .pending s else .complete s (String.ofList rest)

/-- Reads a word that starts with a dash; a dash alone is no switch. -/
def read (switches : List Switch) : List Char → Reading
  | '-' :: '-' :: word => readLong switches word
  | '-' :: letter :: rest => readShort switches letter rest
  | _ => .unknown

end Switch

/-- The words of a command line, sorted: switches with their values, and arguments. -/
structure Words where
  switches : List (Switch × String) := []
  arguments : List String := []
deriving DecidableEq, Repr, Inhabited

namespace Words

/-- Words with one more switch in front. -/
def withSwitch (w : Words) (s : Switch) (value : String) : Words :=
  { w with switches := (s, value) :: w.switches }

/-- Words with one more argument in front. -/
def withArgument (w : Words) (argument : String) : Words :=
  { w with arguments := argument :: w.arguments }

/-- Sorts the words of a command line. Unless switches may be `mixed` with arguments, all words from
the first argument on are arguments. -/
def read (switches : List Switch) (mixed : Bool) : List String → Option Words
  | [] => some {}
  | word :: rest =>
    if word = "--" then some { arguments := rest }
    else if word.toList.head? = some '-' ∧ word ≠ "-" then
      match Switch.read switches word.toList, rest with
      | .unknown, _ => none
      | .complete s value, rest => (read switches mixed rest).map (·.withSwitch s value)
      | .pending _, [] => none
      | .pending s, value :: rest => (read switches mixed rest).map (·.withSwitch s value)
    else if mixed then (read switches mixed rest).map (·.withArgument word)
    else some { arguments := word :: rest }

/-- The value of a switch that was given last. -/
def value? (w : Words) (s : Switch) : Option String :=
  (w.switches.reverse.find? (·.1 = s)).map (·.2)

/-- Whether a switch was given. -/
def has (w : Words) (s : Switch) : Bool :=
  w.switches.any (·.1 = s)

end Words

end Clausal.CommandLine
