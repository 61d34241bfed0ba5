import Clausal.Decimal.Shortest
import Clausal.Sexp
import Clausal.Text.Run

/-!
# Trees from plain data

Texts, truth values, numbers and sequences of them stand for trees: a scalar for an atom, a
sequence for a list. Other data stand for nothing. Whole numbers and truth values also stand for
indents, at which the tree of a list is printed; an atom is printed alike at any datum.
-/

namespace Clausal

/-- Plain data, with trees among them. -/
inductive Datum where
  | tree (s : Sexp)
  | text (t : String)
  | truth (b : Bool)
  | int (n : Int)
  | float (x : Float)
  | sequence (items : List Datum)
  | nothing
  | record
deriving Inhabited

/-- A datum that stands for no tree. -/
inductive Datum.Unfit where
  | nothing
  | record
deriving DecidableEq, Repr, Inhabited

mutual

/-- The tree that a datum stands for. -/
def Datum.toSexp : Datum → Except Datum.Unfit Sexp
  | .tree s => .ok s
  | .text t => .ok (.atom t)
  | .truth b => .ok (.atom (if b then "1" else "0"))
  | .int n => .ok (.atom (toString n))
  | .float x => .ok (.atom (String.ofList (Decimal.ofFloat x)))
  | .sequence items => do return .list (← Datum.toSexps items)
  | .nothing => .error .nothing
  | .record => .error .record

/-- The trees that several data stand for. -/
def Datum.toSexps : List Datum → Except Datum.Unfit (List Sexp)
  | [] => .ok []
  | d :: ds => do
    let s ← d.toSexp
    let rest ← Datum.toSexps ds
    return s :: rest

end

/-! ## Indents -/

/-- What a datum is. -/
inductive Datum.Kind where
  | tree
  | text
  | truth
  | int
  | float
  | sequence
  | nothing
  | record
deriving DecidableEq, Repr, Inhabited

/-- What a datum is. -/
def Datum.kind : Datum → Datum.Kind
  | .tree _ => .tree
  | .text _ => .text
  | .truth _ => .truth
  | .int _ => .int
  | .float _ => .float
  | .sequence _ => .sequence
  | .nothing => .nothing
  | .record => .record

/-- Why a datum is no indent. -/
inductive Datum.NoIndent where
  /-- It is not a number of columns. -/
  | kind (k : Datum.Kind)
  /-- There is no run of so many blanks. -/
  | width (f : Text.RunFault)
deriving DecidableEq, Repr, Inhabited

/-- The number that a datum counts as; yes and no count as one and zero. -/
def Datum.count : Datum → Except Datum.NoIndent Int
  | .int n => .ok n
  | .truth b => .ok (if b then 1 else 0)
  | d => .error (.kind d.kind)

/-- The columns of an indent, of which no more than `room` fit into memory. -/
def Datum.columns (room : Int) (d : Datum) : Except Datum.NoIndent Int := do
  let n ← d.count
  match Text.checkRun room n with
  | .ok () => return n
  | .error f => throw (.width f)

/-- The text of a tree at an indent. An atom has none. -/
def Sexp.prettyAt (room : Int) (indent : Datum) : Sexp → Except Datum.NoIndent String
  | .atom t => .ok t
  | .list items => (indent.columns room).map fun width => (Sexp.list items).pretty width

/-! ## Forms -/

/-- The tree of a head and what follows it; a head alone stays as it is. -/
def Datum.form (head : Datum) (rest : List Datum) : Except Datum.Unfit Sexp := do
  let h ← head.toSexp
  return .form h (← Datum.toSexps rest)

end Clausal
