import Clausal.Text.Lines
import Clausal.Toml.Scalar

/-!
# TOML documents

A document is read line by line: a line is blank, a comment, a key with its value, or a header that
begins a new part. Values may be spread over lines, and reading goes on after them.
-/

namespace Clausal.Toml

mutual

/-- Reads a value. -/
def value (cs : List Char) : Except Fault (Taken Value cs) :=
  match cs with
  | [] => .error .malformed
  | c :: rest =>
    if c = '"' ∨ c = '\'' then do
      let t ← quotedString c rest
      return t.map fun s => .string (String.ofList s)
    else if c = '[' then do
      let t ← items rest
      return (t.map .array).after c
    else if c = '\x7b' then
      match mark? '\x7d' (skipSpace rest) with
      | some t => .ok ((t.afterSpace.map fun _ => .table []).after c)
      | none => do
        let t ← fields [] (skipSpace rest)
        return (t.afterSpace.map fun es => .table es.finish).after c
    else scalar (c :: rest)
termination_by 2 * cs.length
decreasing_by
  · simp only [List.length_cons]; omega
  · have := skipSpace_length_le rest
    simp only [List.length_cons]; omega

/-- Reads the items of an array up to its closing bracket. A comma may stand after the last one. -/
def items (cs : List Char) : Except Fault (Taken (List Value) cs) := do
  let front ← skipLines false cs
  match mark? ']' front.rest with
  | some t => return front.andThen (t.map fun _ => [])
  | none => do
    let v ← value front.rest
    let gap ← skipLines false v.rest
    match mark? ']' gap.rest, mark? ',' gap.rest with
    | some t, _ => return front.andThen (v.andThen (gap.andThen (t.map fun _ => [v.value])))
    | none, some comma => do
      let t ← items comma.rest
      return front.andThen (v.andThen (gap.andThen (comma.andThen (t.map (v.value :: ·)))))
    | none, none => .error .malformed
termination_by 2 * cs.length + 1
decreasing_by
  · have := front.notLonger
    omega
  · have := (front.andThen (v.andThen (gap.andThen comma))).shorter
    exact Nat.add_lt_add_right (Nat.mul_lt_mul_of_pos_left this (by decide)) 1

/-- Reads the fields of a table in braces up to its closing brace, after the fields before them. -/
def fields (es : Entries) (cs : List Char) : Except Fault (Taken Entries cs) := do
  let k ← key cs
  match mark? '=' k.rest with
  | none => .error .malformed
  | some equals => do
    let v ← value (skipSpace equals.rest)
    let es ← es.define 0 k.value v.value
    let front := k.andThen (equals.andThen v.afterSpace)
    match mark? '\x7d' (skipSpace front.rest), mark? ',' (skipSpace front.rest) with
    | some t, _ => return front.andThen (t.afterSpace.map fun _ => es)
    | none, some comma => do
      let t ← fields es (skipSpace comma.rest)
      return front.andThen (comma.andThen t.afterSpace).afterSpace
    | none, none => .error .malformed
termination_by 2 * cs.length + 1
decreasing_by
  · have := (k.andThen equals).shorter
    have := skipSpace_length_le equals.rest
    simp only [Taken.andThen] at *
    omega
  · have := (front.andThen comma.afterSpace).shorter
    have := skipSpace_length_le comma.rest
    simp only [Taken.andThen, Taken.afterSpace] at *
    omega

end

/-! ## Lines -/

/-- Reads a key and its value into a document. -/
def pair (d : Draft) (cs : List Char) : Except Fault (Taken Draft cs) := do
  let k ← key cs
  match mark? '=' k.rest with
  | none => .error .malformed
  | some equals => do
    let v ← value (skipSpace equals.rest)
    let d ← d.define k.value v.value
    return k.andThen (equals.andThen (v.afterSpace.map fun _ => d))

/-- Reads the header of a table, after its opening bracket, into a document. -/
def tableHeader (d : Draft) (cs : List Char) : Except Fault (Taken Draft cs) := do
  let k ← key (skipSpace cs)
  match mark? ']' k.rest with
  | none => .error .malformed
  | some t => do
    let d ← d.openTable k.value
    return (k.andThen (t.map fun _ => d)).afterSpace

/-- Reads the header of a table of an array, after its two opening brackets, into a document. -/
def arrayHeader (d : Draft) (cs : List Char) : Except Fault (Taken Draft cs) := do
  let k ← key (skipSpace cs)
  match mark? ']' k.rest with
  | none => .error .malformed
  | some s =>
    match mark? ']' s.rest with
    | none => .error .malformed
    | some t => do
      let d ← d.appendTable k.value
      return (k.andThen (s.andThen (t.map fun _ => d))).afterSpace

/-- Reads what a line has to say into a document. -/
def statement (d : Draft) (cs : List Char) : Except Fault (Rest Draft cs) :=
  match cs with
  | '[' :: '[' :: rest => do return (((← arrayHeader d rest).after '[').after '[').weaken
  | '[' :: rest => do return ((← tableHeader d rest).after '[').weaken
  | c :: rest =>
    if isKeyStart c then do return (← pair d (c :: rest)).weaken
    else .ok (.stay (c :: rest) d)
  | [] => .ok (.stay [] d)

/-- Reads the lines of a document. -/
def lines (d : Draft) (cs : List Char) : Except Fault Draft := do
  let s ← statement d (skipSpace cs)
  match ← lineEnd s.rest with
  | none => return s.value
  | some t => lines s.value t.rest
termination_by cs.length
decreasing_by exact (s.andThen t).afterSpace.shorter

/-- Reads a document. -/
def read (text : List Char) : Except Fault Table := do
  let d ← lines {} (Text.joinBreaks text)
  return d.entries.finish

end Clausal.Toml
