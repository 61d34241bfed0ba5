import Clausal.Text.Numeral
import Clausal.Toml.Text

/-!
# Numbers, dates and times of TOML

Values that are written without quotes and brackets. A date is tried before a number, since both
start with digits; what follows a value is not looked at.
-/

namespace Clausal.Toml

/-! ## Dates and times -/

/-- Reads two digits whose value lies between two bounds. -/
def twoDigits? (lo hi : Nat) : (cs : List Char) → Option (Taken Nat cs)
  | a :: b :: rest =>
    let n := 10 * (a.toNat - '0'.toNat) + (b.toNat - '0'.toNat)
    if a.isDigit ∧ b.isDigit ∧ lo ≤ n ∧ n ≤ hi then
      some ((Taken.first b rest n).after a)
    else none
  | _ => none

/-- Two digits with a bound, after a given character. -/
def marked? (c : Char) (lo hi : Nat) (cs : List Char) : Option (Taken Nat cs) := do
  let m ← mark? c cs
  return m.andThen (← twoDigits? lo hi m.rest)

/-- Reads a date. Whether the calendar has it is not checked. -/
def date? (cs : List Char) : Option (Taken Date cs) := do
  let century ← twoDigits? 0 99 cs
  let year ← twoDigits? 0 99 century.rest
  let month ← marked? '-' 1 12 year.rest
  let day ← marked? '-' 1 31 month.rest
  return century.andThen (year.andThen (month.andThen (day.map fun n =>
    ⟨100 * century.value + year.value, month.value, n⟩)))

/-- The number that decimal digits write. -/
def decimalNumber (ds : List Char) : Nat :=
  ds.foldl (fun n d => 10 * n + (d.toNat - '0'.toNat)) 0

/-- Reads the fraction of a second, if one follows, in microseconds. Further digits are dropped. -/
def fraction (cs : List Char) : Rest Nat cs :=
  match cs with
  | '.' :: rest =>
    let ds := rest.takeWhile Char.isDigit
    if ds.isEmpty then .stay ('.' :: rest) 0
    else
      let microseconds := decimalNumber ((ds ++ List.replicate 6 '0').take 6)
      (Rest.allOf Char.isDigit rest microseconds).after '.'
  | cs => .stay cs 0

/-- Reads a time of the day. -/
def time? (cs : List Char) : Option (Taken Time cs) := do
  let hour ← twoDigits? 0 23 cs
  let minute ← marked? ':' 0 59 hour.rest
  let second ← marked? ':' 0 59 minute.rest
  return hour.andThen (minute.andThen (second.andRest ((fraction second.rest).map fun n =>
    ⟨hour.value, minute.value, second.value, n⟩)))

/-- Hours and minutes of an offset, as minutes. -/
def offsetSize? (cs : List Char) : Option (Taken Nat cs) := do
  let hours ← twoDigits? 0 23 cs
  let minutes ← marked? ':' 0 59 hours.rest
  return hours.andThen (minutes.map fun n => 60 * hours.value + n)

/-- Reads the offset of a time from universal time, in minutes. -/
def offset? : (cs : List Char) → Option (Taken Int cs)
  | [] => none
  | c :: rest =>
    if c = 'Z' ∨ c = 'z' then some (.first c rest 0)
    else if c = '+' then (offsetSize? rest).map fun t => (t.map Int.ofNat).after c
    else if c = '-' then (offsetSize? rest).map fun t => (t.map (- Int.ofNat ·)).after c
    else none

/-- The time that may follow a date, after the letter T or a blank, and its offset. -/
def timeAfterDate? : (cs : List Char) → Option (Taken (Time × Option Int) cs)
  | [] => none
  | c :: rest =>
    if c = 'T' ∨ c = 't' ∨ c = ' ' then do
      let t ← time? rest
      match offset? t.rest with
      | some o => return (t.andThen (o.map fun n => (t.value, some n))).after c
      | none => return (t.map fun time => (time, none)).after c
    else none

/-- Reads a date, with a time if one follows. -/
def dateTime? (cs : List Char) : Option (Taken (Date × Value) cs) := do
  let d ← date? cs
  match timeAfterDate? d.rest with
  | some t => return d.andThen (t.map fun v => (d.value, .dateTime d.value v.1 v.2))
  | none => return d.map fun date => (date, .date date)

/-! ## Numbers -/

/-- Reads the digits of a number after its first one, each with at most one underscore before it.
The underscores are dropped. -/
def moreDigits (isDigit : Char → Bool) (cs : List Char) : Rest (List Char) cs :=
  match cs with
  | '_' :: d :: rest =>
    if isDigit d then (((moreDigits isDigit rest).map (d :: ·)).after d).after '_'
    else .stay ('_' :: d :: rest) []
  | d :: rest =>
    if isDigit d then ((moreDigits isDigit rest).map (d :: ·)).after d
    else .stay (d :: rest) []
  | [] => .stay [] []

/-- Reads the digits of a number. -/
def digits? (isDigit : Char → Bool) : (cs : List Char) → Option (Taken (List Char) cs)
  | [] => none
  | d :: rest =>
    if isDigit d then some (((moreDigits isDigit rest).map (d :: ·)).afterFirst d) else none

/-- Reads the digits of a whole number: a zero alone, or digits that start with another one. -/
def wholeDigits? : (cs : List Char) → Option (Taken (List Char) cs)
  | [] => none
  | '0' :: rest => some (.first '0' rest ['0'])
  | cs => digits? Char.isDigit cs

/-- Reads a sign, if one follows: whether it is a minus sign. -/
def sign (cs : List Char) : Rest Bool cs :=
  match cs with
  | '+' :: rest => (Rest.stay rest false).after '+'
  | '-' :: rest => (Rest.stay rest true).after '-'
  | cs => .stay cs false

/-- The digits after a decimal point, if they follow. -/
def decimals? (cs : List Char) : Option (Taken (List Char) cs) := do
  let point ← mark? '.' cs
  return point.andThen (← digits? Char.isDigit point.rest)

/-- The exponent of a number, if one follows. -/
def exponent? : (cs : List Char) → Option (Taken Int cs)
  | [] => none
  | c :: rest =>
    if c = 'e' ∨ c = 'E' then do
      let negative := sign rest
      let t ← digits? Char.isDigit negative.rest
      let n : Int := decimalNumber t.value
      return (negative.andThen (t.map fun _ => if negative.value then -n else n)).after c
    else none

/-- The value of a decimal integer. -/
def integer (negative : Bool) (ds : List Char) : Except Fault Value :=
  if Text.digitLimit < ds.length then .error (.tooLong ds.length)
  else
    let n : Int := decimalNumber ds
    .ok (.integer (if negative then -n else n))

/-- The value of a number with a fraction or an exponent. -/
def real (negative : Bool) (whole fraction : List Char) (exponent : Int) : Value :=
  .float (Decimal.toFloat ⟨negative, decimalNumber (whole ++ fraction),
    exponent - fraction.length⟩)

/-- Reads a decimal number: an integer, or a float if a fraction or an exponent follows. -/
def decimal? (cs : List Char) : Option (Taken (Except Fault Value) cs) := do
  let negative := sign cs
  let whole ← wholeDigits? negative.rest
  let front := negative.andThen whole
  match decimals? front.rest with
  | none =>
    match exponent? front.rest with
    | none => return front.map fun ds => integer negative.value ds
    | some e => return front.andThen (e.map fun n => .ok (real negative.value front.value [] n))
  | some f =>
    match exponent? f.rest with
    | none => return front.andThen (f.map fun ds => .ok (real negative.value front.value ds 0))
    | some e => return front.andThen (f.andThen (e.map fun n =>
        .ok (real negative.value front.value f.value n)))

/-- The number that digits write in a base. -/
def numberIn (base : Nat) (ds : List Char) : Nat :=
  ds.foldl (fun n d => base * n + (hexValue? d).getD 0) 0

/-- Reads an integer of a base after its two leading characters. -/
def based? (base : Nat) (cs : List Char) : Option (Taken Value cs) :=
  (digits? (fun d => (hexValue? d).any (· < base)) cs).map fun t =>
    t.map fun ds => .integer (numberIn base ds)

/-- Reads an integer in base sixteen, two or eight. -/
def prefixed? : (cs : List Char) → Option (Taken Value cs)
  | '0' :: c :: rest =>
    let base? := if c = 'x' then some 16 else if c = 'b' then some 2
      else if c = 'o' then some 8 else none
    base?.bind fun base => (based? base rest).map fun t => (t.after c).after '0'
  | _ => none

/-! ## Words -/

/-- The floating-point number that is greater than all others. -/
def infinity : Float := 1.0 / 0.0

/-- The floating-point value that is no number. -/
def notANumber : Float := 0.0 / 0.0

/-- The values that are words. -/
def words : List (String × Value) :=
  [("true", .boolean true), ("false", .boolean false),
    ("inf", .float infinity), ("+inf", .float infinity), ("-inf", .float (-infinity)),
    ("nan", .float notANumber), ("+nan", .float notANumber), ("-nan", .float notANumber)]

/-- Reads one of some words. -/
def word? (cs : List Char) : List (String × Value) → Option (Taken Value cs)
  | [] => none
  | (w, v) :: ws =>
    if h : w.toList.isPrefixOf cs = true ∧ w.toList ≠ [] then
      some ⟨v, cs.drop w.toList.length, by
        have hle := (List.isPrefixOf_iff_prefix.mp h.1).length_le
        have hpos := List.length_pos_iff.mpr h.2
        simp only [List.length_drop]; omega⟩
    else word? cs ws

/-- Reads a value that is written without quotes and brackets. -/
def scalar (cs : List Char) : Except Fault (Taken Value cs) :=
  match dateTime? cs with
  | some t => if t.value.1.isValid then .ok (t.map (·.2)) else .error .malformed
  | none =>
    match time? cs with
    | some t => .ok (t.map .time)
    | none =>
      match prefixed? cs with
      | some t => .ok t
      | none =>
        match decimal? cs with
        | some t => t.value.map fun v => t.map fun _ => v
        | none =>
          match word? cs words with
          | some t => .ok t
          | none => .error .malformed

end Clausal.Toml
