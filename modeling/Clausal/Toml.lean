import Clausal.Assoc
import Clausal.Decimal.Shortest
import Clausal.Text.Quoted

/-!
# TOML values

The values of a TOML document, and the lack of one. Integers have any size, tables keep the order of
their keys, and dates and times are kept as they were written: with or without an offset, and to the
microsecond.
-/

namespace Clausal.Toml

/-- A day of the calendar. -/
structure Date where
  year : Nat
  month : Nat
  day : Nat
deriving DecidableEq, Repr, Inhabited

namespace Date

/-- Whether a year has a leap day. -/
def isLeap (year : Nat) : Bool :=
  year % 4 = 0 && (year % 100 ≠ 0 || year % 400 = 0)

/-- The number of days of a month. -/
def daysIn (year month : Nat) : Nat :=
  if month = 2 then (if isLeap year then 29 else 28)
  else if month = 4 ∨ month = 6 ∨ month = 9 ∨ month = 11 then 30
  else 31

/-- Whether a date is in the calendar, which starts with the year one. -/
def isValid (d : Date) : Bool :=
  1 ≤ d.year && 1 ≤ d.month && d.month ≤ 12 && 1 ≤ d.day && d.day ≤ daysIn d.year d.month

end Date

/-- A time of the day. -/
structure Time where
  hour : Nat
  minute : Nat
  second : Nat
  microsecond : Nat := 0
deriving DecidableEq, Repr, Inhabited

/-- A value of a document. -/
inductive Value where
  /-- No value. Documents hold none, but a setting that comes from elsewhere may be left empty. -/
  | nothing
  | string (s : String)
  | integer (n : Int)
  | float (x : Float)
  | boolean (b : Bool)
  | date (d : Date)
  | time (t : Time)
  /-- A date with a time, and how many minutes it is ahead of universal time if that is known. -/
  | dateTime (d : Date) (t : Time) (offset? : Option Int)
  | array (items : List Value)
  | table (entries : List (String × Value))
deriving Repr, Inhabited

/-- A table: keys with their values, in order. -/
abbrev Table := Assoc Value

/-- What sort of value a value is. -/
inductive Kind where
  | nothing
  | string
  | integer
  | float
  | boolean
  | date
  | time
  | dateTime
  | array
  | table
deriving DecidableEq, Repr, Inhabited

namespace Value

/-- The kind of a value. -/
def kind : Value → Kind
  | .nothing => .nothing
  | .string _ => .string
  | .integer _ => .integer
  | .float _ => .float
  | .boolean _ => .boolean
  | .date _ => .date
  | .time _ => .time
  | .dateTime .. => .dateTime
  | .array _ => .array
  | .table _ => .table

/-- Whether a value counts as a yes: every value but the empty ones, zero and false does. -/
def isTruthy : Value → Bool
  | .nothing => false
  | .string s => s ≠ ""
  | .integer n => n ≠ 0
  | .float x => x != 0
  | .boolean b => b
  | .array items => !items.isEmpty
  | .table entries => !entries.isEmpty
  | .date _ | .time _ | .dateTime .. => true

end Value

/-! ## The text of values -/

/-- A number in decimal digits, with zeros in front of it up to a width. -/
def padded (width n : Nat) : String :=
  String.ofList ((Nat.toDigits 10 n).leftpad width '0')

/-- The text of a date. -/
def Date.text (d : Date) : String :=
  padded 4 d.year ++ "-" ++ padded 2 d.month ++ "-" ++ padded 2 d.day

/-- The text of a time; microseconds are left out if there are none. -/
def Time.text (t : Time) : String :=
  padded 2 t.hour ++ ":" ++ padded 2 t.minute ++ ":" ++ padded 2 t.second ++
    if t.microsecond = 0 then "" else "." ++ padded 6 t.microsecond

/-- The text of an offset from universal time. -/
def offsetText (minutes : Int) : String :=
  (if minutes < 0 then "-" else "+") ++ padded 2 (minutes.natAbs / 60) ++ ":" ++
    padded 2 (minutes.natAbs % 60)

mutual

/-- The text of a value as it stands inside another one: strings are in quotes. -/
def Value.quoted : Value → String
  | .nothing => "None"
  | .string s => String.ofList (Text.quoted s.toList)
  | .integer n => toString n
  | .float x => String.ofList (Decimal.ofFloat x)
  | .boolean b => if b then "True" else "False"
  | .date d => d.text
  | .time t => t.text
  | .dateTime d t offset? => d.text ++ " " ++ t.text ++ (offset?.map offsetText).getD ""
  | .array items => "[" ++ ", ".intercalate (quotedItems items) ++ "]"
  | .table entries => "\x7b" ++ ", ".intercalate (quotedEntries entries) ++ "\x7d"

/-- The texts of the items of an array. -/
def quotedItems : List Value → List String
  | [] => []
  | v :: vs => v.quoted :: quotedItems vs

/-- The texts of the entries of a table. -/
def quotedEntries : List (String × Value) → List String
  | [] => []
  | e :: es => quotedEntry e :: quotedEntries es

/-- The text of an entry of a table. -/
def quotedEntry : String × Value → String
  | (name, v) => String.ofList (Text.quoted name.toList) ++ ": " ++ v.quoted

end

/-- The text of a value. -/
def Value.text : Value → String
  | .string s => s
  | v => v.quoted

/-- Why a text is not a document. -/
inductive Fault where
  | malformed
  /-- A decimal integer has more digits than are ever converted. -/
  | tooLong (digits : Nat)
deriving DecidableEq, Repr, Inhabited

end Clausal.Toml
