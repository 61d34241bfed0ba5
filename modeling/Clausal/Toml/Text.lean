import Clausal.Toml.Draft

/-!
# Blanks, strings and keys of TOML

The smallest things that a document is made of. Every reader gives the text that follows what it
read, which is shorter than the text it was given.
-/

namespace Clausal.Toml

/-- Something read from the front of a text, and the text after it. -/
structure Taken (α : Type) (cs : List Char) where
  value : α
  rest : List Char
  shorter : rest.length < cs.length

/-- Something that may have been read from the front of a text, and the text after it. -/
structure Rest (α : Type) (cs : List Char) where
  value : α
  rest : List Char
  notLonger : rest.length ≤ cs.length

/-! ## Blanks -/

/-- Whether a character separates words on a line. -/
def isSpace (c : Char) : Bool :=
  c = ' ' || c = '\t'

/-- Whether a character may stand in comments and in strings of one line: all but the control
characters other than the tab. -/
def isPlain (c : Char) : Bool :=
  c = '\t' || (0x20 ≤ c.toNat && c.toNat ≠ 0x7F)

/-- The text after the blanks at the front of a text. -/
def skipSpace (cs : List Char) : List Char :=
  cs.dropWhile isSpace

theorem skipSpace_length_le (cs : List Char) : (skipSpace cs).length ≤ cs.length :=
  (List.dropWhile_suffix isSpace).length_le

/-! ## Putting readings together -/

namespace Taken

variable {α β : Type} {cs : List Char}

/-- The first character of a text, read as some value. -/
def first (c : Char) (cs : List Char) (a : α) : Taken α (c :: cs) :=
  ⟨a, cs, Nat.lt_succ_self _⟩

/-- The same text read as another value. -/
def map (f : α → β) (t : Taken α cs) : Taken β cs :=
  ⟨f t.value, t.rest, t.shorter⟩

/-- What was read after one more character. -/
def after (c : Char) (t : Taken α cs) : Taken α (c :: cs) :=
  ⟨t.value, t.rest, Nat.lt_succ_of_lt t.shorter⟩

/-- What was read after something else. -/
def andThen (t : Taken α cs) (u : Taken β t.rest) : Taken β cs :=
  ⟨u.value, u.rest, Nat.lt_trans u.shorter t.shorter⟩

/-- What may have been read after something else. -/
def andRest (t : Taken α cs) (u : Rest β t.rest) : Taken β cs :=
  ⟨u.value, u.rest, Nat.lt_of_le_of_lt u.notLonger t.shorter⟩

/-- What was read after blanks. -/
def afterSpace (t : Taken α (skipSpace cs)) : Taken α cs :=
  ⟨t.value, t.rest, Nat.lt_of_lt_of_le t.shorter (skipSpace_length_le cs)⟩

/-- What was read and the blanks after it. -/
def beforeSpace (t : Taken α cs) : Taken α cs :=
  ⟨t.value, skipSpace t.rest, Nat.lt_of_le_of_lt (skipSpace_length_le t.rest) t.shorter⟩

/-- What was read, as something that may have been read. -/
def weaken (t : Taken α cs) : Rest α cs :=
  ⟨t.value, t.rest, Nat.le_of_lt t.shorter⟩

end Taken

namespace Rest

variable {α β : Type} {cs : List Char}

/-- Nothing read. -/
def stay (cs : List Char) (a : α) : Rest α cs :=
  ⟨a, cs, Nat.le_refl _⟩

/-- The same text read as another value. -/
def map (f : α → β) (t : Rest α cs) : Rest β cs :=
  ⟨f t.value, t.rest, t.notLonger⟩

/-- What may have been read after one more character. -/
def after (c : Char) (t : Rest α cs) : Rest α (c :: cs) :=
  ⟨t.value, t.rest, Nat.le_succ_of_le t.notLonger⟩

/-- What may have been read after a character that was read for sure. -/
def afterFirst (c : Char) (t : Rest α cs) : Taken α (c :: cs) :=
  ⟨t.value, t.rest, Nat.lt_succ_of_le t.notLonger⟩

/-- What was read after something that may have been read. -/
def andThen (t : Rest α cs) (u : Taken β t.rest) : Taken β cs :=
  ⟨u.value, u.rest, Nat.lt_of_lt_of_le u.shorter t.notLonger⟩

/-- The characters of a kind at the front of a text, read as some value. -/
def allOf (p : Char → Bool) (cs : List Char) (a : α) : Rest α cs :=
  ⟨a, cs.dropWhile p, (List.dropWhile_suffix p).length_le⟩

end Rest

/-- Reads one given character. -/
def mark? (c : Char) : (cs : List Char) → Option (Taken Unit cs)
  | d :: rest => if d = c then some (.first d rest ()) else none
  | [] => none

/-! ## Comments and line ends -/

/-- The rest of a comment and the end of its line; nothing if the text ends before. -/
def commentEnd : (cs : List Char) → Except Fault (Option (Taken Unit cs))
  | [] => .ok none
  | c :: cs =>
    if c = '\n' then .ok (some (.first c cs ()))
    else if isPlain c then (commentEnd cs).map fun t? => t?.map (·.after c)
    else .error .malformed

/-- The end of a line, before which only blanks and a comment may stand; nothing if the text ends
before. -/
def lineEnd (cs : List Char) : Except Fault (Option (Taken Unit cs)) :=
  match mark? '\n' (skipSpace cs) with
  | some t => .ok (some t.afterSpace)
  | none =>
    match mark? '#' (skipSpace cs) with
    | some t => (commentEnd t.rest).map fun e? => e?.map fun e => (t.andThen e).afterSpace
    | none => if skipSpace cs = [] then .ok none else .error .malformed

/-- The blanks, line ends and comments that may stand between the items of an array. The flag says
whether the text starts inside a comment. -/
def skipLines : Bool → (cs : List Char) → Except Fault (Rest Unit cs)
  | _, [] => .ok (.stay [] ())
  | true, c :: cs =>
    if c = '\n' then (skipLines false cs).map (·.after c)
    else if isPlain c then (skipLines true cs).map (·.after c)
    else .error .malformed
  | false, c :: cs =>
    if isSpace c ∨ c = '\n' then (skipLines false cs).map (·.after c)
    else if c = '#' then (skipLines true cs).map (·.after c)
    else .ok (.stay (c :: cs) ())

/-! ## Strings -/

/-- How a string is quoted. Only strings in double quotes have escapes. -/
structure Quoting where
  mark : Char
  multiline : Bool
deriving DecidableEq, Repr, Inhabited

/-- Whether a character may stand in a string. -/
def Quoting.admits (q : Quoting) (c : Char) : Bool :=
  isPlain c || (q.multiline && c = '\n')

/-- The value of a hexadecimal digit. -/
def hexValue? (c : Char) : Option Nat :=
  if c.isDigit then some (c.toNat - '0'.toNat)
  else if 'a' ≤ c ∧ c ≤ 'f' then some (c.toNat - 'a'.toNat + 10)
  else if 'A' ≤ c ∧ c ≤ 'F' then some (c.toNat - 'A'.toNat + 10)
  else none

/-- The number that hexadecimal digits write. -/
def hexNumber? (ds : List Char) : Option Nat :=
  ds.foldlM (fun n d => (hexValue? d).map (16 * n + ·)) 0

/-- The character with the number that hexadecimal digits write. -/
def hexChar? (ds : List Char) : Option Char := do
  let n ← hexNumber? ds
  if n.isValidChar then some (Char.ofNat n) else none

/-- The character that a letter stands for after a backslash. -/
def escaped? : Char → Option Char
  | 'b' => some '\x08'
  | 't' => some '\t'
  | 'n' => some '\n'
  | 'f' => some '\x0c'
  | 'r' => some '\r'
  | '"' => some '"'
  | '\\' => some '\\'
  | _ => none

/-- Reads the end of a line after a backslash: the rest of the line must be blank, and all blanks
and line ends after it are left out too. A text that is over here is never closed. -/
def escapedBreak (cs : List Char) : Except Fault (Taken (List Char) cs) :=
  match mark? '\n' (skipSpace cs) with
  | some t => .ok (t.andRest (.allOf (fun c => isSpace c || c = '\n') t.rest [])).afterSpace
  | none => .error .malformed

/-- Reads the digits of a character number. -/
def escapedNumber (count : Nat) (cs : List Char) : Except Fault (Rest (List Char) cs) :=
  match hexChar? (cs.take count) with
  | some x =>
    if count ≤ cs.length then .ok ⟨[x], cs.drop count, (List.drop_suffix count cs).length_le⟩
    else .error .malformed
  | none => .error .malformed

/-- Reads what stands after a backslash: the characters that it gives. -/
def escape (multiline : Bool) : (cs : List Char) → Except Fault (Taken (List Char) cs)
  | [] => .error .malformed
  | c :: cs =>
    if c = 'u' then (escapedNumber 4 cs).map (·.afterFirst c)
    else if c = 'U' then (escapedNumber 8 cs).map (·.afterFirst c)
    else match escaped? c with
      | some x => .ok (.first c cs [x])
      | none => if multiline then escapedBreak (c :: cs) else .error .malformed

/-- The closing quotes at the front of a text, if they stand there. Three quotes close a string of
several lines, and one or two quotes more still belong to the string. -/
def closing? (q : Quoting) (cs : List Char) : Option (Taken (List Char) cs) :=
  let n := (cs.takeWhile (· = q.mark)).length
  have hn : n ≤ cs.length := (List.takeWhile_prefix _).length_le
  if q.multiline then
    if h : 3 ≤ n then
      let extra := min (n - 3) 2
      some ⟨List.replicate extra q.mark, cs.drop (3 + extra), by
        simp only [List.length_drop]; omega⟩
    else none
  else if h : 1 ≤ n then some ⟨[], cs.drop 1, by simp only [List.length_drop]; omega⟩
  else none

/-- Reads a string after its opening quotes, with the closing ones. -/
def string (q : Quoting) (cs : List Char) : Except Fault (Taken (List Char) cs) :=
  match closing? q cs with
  | some t => .ok t
  | none =>
    match cs with
    | [] => .error .malformed
    | c :: rest =>
      if c = '\\' ∧ q.mark = '"' then do
        let e ← escape q.multiline rest
        let t ← string q e.rest
        return (e.andThen (t.map (e.value ++ ·))).after c
      else if c = q.mark ∨ q.admits c = true then do
        let t ← string q rest
        return (t.map (c :: ·)).after c
      else .error .malformed
termination_by cs.length
decreasing_by
  · exact Nat.lt_succ_of_lt e.shorter
  · exact Nat.lt_succ_self _

/-- Reads a string with its quotes. A line end right after the opening quotes of a string of several
lines is left out. -/
def quotedString (mark : Char) (cs : List Char) : Except Fault (Taken (List Char) (mark :: cs)) :=
  match cs with
  | a :: b :: rest =>
    if a = mark ∧ b = mark then
      match mark? '\n' rest with
      | some t => do
        let s ← string ⟨mark, true⟩ t.rest
        return (((t.andThen s).after b).after a).after mark
      | none => do
        let s ← string ⟨mark, true⟩ rest
        return ((s.after b).after a).after mark
    else do return (← string ⟨mark, false⟩ (a :: b :: rest)).after mark
  | cs => do return (← string ⟨mark, false⟩ cs).after mark

/-! ## Keys -/

/-- Whether a character may stand in a key without quotes. -/
def isBare (c : Char) : Bool :=
  c.isAlphanum || c = '-' || c = '_'

/-- Whether a key may start with a character. -/
def isKeyStart (c : Char) : Bool :=
  isBare c || c = '"' || c = '\''

/-- Reads one name of a key, and the blanks after it. -/
def keyName : (cs : List Char) → Except Fault (Taken String cs)
  | [] => .error .malformed
  | c :: rest =>
    if isBare c then
      .ok ((Rest.allOf isBare rest (String.ofList (c :: rest.takeWhile isBare))).afterFirst c
        ).beforeSpace
    else if c = '"' ∨ c = '\'' then do
      let t ← string ⟨c, false⟩ rest
      return ((t.map String.ofList).after c).beforeSpace
    else .error .malformed

/-- Reads the names after the points that follow a key. -/
def moreNames (k : Key) (cs : List Char) : Except Fault (Rest Key cs) :=
  match mark? '.' cs with
  | none => .ok (.stay cs k)
  | some point => do
    let name ← keyName (skipSpace point.rest)
    let t ← moreNames (k.extend name.value) name.rest
    return (point.andThen (name.andRest t).afterSpace).weaken
termination_by cs.length
decreasing_by exact (point.andThen name.afterSpace).shorter

/-- Reads a key, and the blanks after it. -/
def key (cs : List Char) : Except Fault (Taken Key cs) := do
  let name ← keyName cs
  return name.andRest (← moreNames ⟨[], name.value⟩ name.rest)

end Clausal.Toml
