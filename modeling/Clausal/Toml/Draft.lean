import Clausal.Toml

/-!
# Tables under construction

While a document is read, its tables grow, and the rules on what may still be added to a table
depend on how it came about.

* A table that a header names may be named by a header once.
* A table that only stands on the way to another one may be named later.
* A table that a dotted key opens belongs to the part of the document in which it was opened: only
  dotted keys of the same part add to it.
* An array of tables grows at its end; its earlier tables are finished.
* An array or table that is written as a value is finished at once.

The parts of a document, one for each header, are numbered, so a table needs to remember just the
number of the part that opened it.
-/

namespace Clausal.Toml

/-- A key: the names of the tables on the way, and its own name. -/
structure Key where
  path : List String
  last : String
deriving DecidableEq, Repr, Inhabited

/-- All names of a key. -/
def Key.names (k : Key) : List String :=
  k.path ++ [k.last]

/-- A key one level deeper. -/
def Key.extend (k : Key) (name : String) : Key :=
  ⟨k.names, name⟩

/-- What a name stands for while its document is read. -/
inductive Node where
  /-- A finished value. -/
  | value (v : Value)
  /-- A table, with the number of the part that opened it if one has. -/
  | table (part? : Option Nat) (entries : List (String × Node))
  /-- An array of tables: the finished ones and the entries of the last one. -/
  | tables (done : List Table) (last : List (String × Node))
deriving Inhabited

/-- The entries of a table under construction. -/
abbrev Entries := Assoc Node

mutual

/-- The value that a name stands for when the document is over. -/
def Node.finish : Node → Value
  | .value v => v
  | .table _ entries => .table (finishEntries entries)
  | .tables done last => .array (done.map .table ++ [.table (finishEntries last)])

/-- The table that entries make when the document is over. -/
def finishEntries : List (String × Node) → List (String × Value)
  | [] => []
  | e :: es => finishEntry e :: finishEntries es

/-- One entry when the document is over. -/
def finishEntry : String × Node → String × Value
  | (name, n) => (name, n.finish)

end

namespace Entries

/-- The table made of entries. -/
def finish (es : Entries) : Table :=
  finishEntries es

/-- Changes the table that a header leads to. Tables that are missing on the way are made; an array
of tables leads to its last one. -/
def under (f : Entries → Except Fault Entries) : List String → Entries → Except Fault Entries
  | [], es => f es
  | name :: path, es =>
    match es.value? name with
    | none => do return es.put name (.table none (← under f path []))
    | some (.table part? inner) => do return es.put name (.table part? (← under f path inner))
    | some (.tables done last) => do return es.put name (.tables done (← under f path last))
    | some (.value _) => .error .malformed

/-- Changes the table that a dotted key of a part leads to. The tables on the way become tables of
that part, so they must not have been opened by an earlier one. -/
def within (part : Nat) (f : Entries → Except Fault Entries) :
    List String → Entries → Except Fault Entries
  | [], es => f es
  | name :: path, es =>
    match es.value? name with
    | none => do return es.put name (.table (some part) (← within part f path []))
    | some (.table part? inner) =>
      if part? = none ∨ part? = some part then do
        return es.put name (.table (some part) (← within part f path inner))
      else .error .malformed
    | some (.tables ..) | some (.value _) => .error .malformed

/-- Adds a value under a new name. -/
def addValue (name : String) (v : Value) (es : Entries) : Except Fault Entries :=
  if es.has name then .error .malformed else .ok (es.put name (.value v))

/-- Adds a value under a key of a part. -/
def define (part : Nat) (k : Key) (v : Value) (es : Entries) : Except Fault Entries :=
  within part (addValue k.last v) k.path es

/-- Opens the table of a name, which no part may have opened before. -/
def openHere (part : Nat) (name : String) (es : Entries) : Except Fault Entries :=
  match es.value? name with
  | none => .ok (es.put name (.table (some part) []))
  | some (.table none inner) => .ok (es.put name (.table (some part) inner))
  | some _ => .error .malformed

/-- Opens the table of a header. -/
def openTable (part : Nat) (k : Key) (es : Entries) : Except Fault Entries :=
  under (openHere part k.last) k.path es

/-- Starts a new table at the end of an array of tables. -/
def appendHere (name : String) (es : Entries) : Except Fault Entries :=
  match es.value? name with
  | none => .ok (es.put name (.tables [] []))
  | some (.tables done last) => .ok (es.put name (.tables (done ++ [finish last]) []))
  | some _ => .error .malformed

/-- Starts a new table of the array of tables that a header names. -/
def appendTable (k : Key) (es : Entries) : Except Fault Entries :=
  under (appendHere k.last) k.path es

end Entries

/-- A document while it is read: its entries so far, the table that the last header names, and the
number of the part that this header began. -/
structure Draft where
  entries : Entries := []
  header : List String := []
  part : Nat := 0
deriving Inhabited

namespace Draft

/-- Adds a value under a key of the present part. -/
def define (d : Draft) (k : Key) (v : Value) : Except Fault Draft := do
  return { d with entries := ← d.entries.under (Entries.define d.part k v) d.header }

/-- Begins a part with the table of a header. -/
def openTable (d : Draft) (k : Key) : Except Fault Draft := do
  return ⟨← d.entries.openTable (d.part + 1) k, k.names, d.part + 1⟩

/-- Begins a part with a new table of the array of tables of a header. -/
def appendTable (d : Draft) (k : Key) : Except Fault Draft := do
  return ⟨← d.entries.appendTable k, k.names, d.part + 1⟩

end Draft

end Clausal.Toml
