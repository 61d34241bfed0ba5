import Clausal.Text.Lines

/-!
# Symbolic expressions

The text form of a module is a tree of atoms and lists. `Sexp.layout` prints a tree in one line or
with one child a line; it is a function of the tree and the indent alone.
-/

namespace Clausal

/-- A tree of atoms and lists. -/
inductive Sexp where
  | atom (text : String)
  | list (items : List Sexp)
deriving Repr, Inhabited

namespace Sexp

mutual

/-- Decides whether two trees are equal. -/
def decEq : (a b : Sexp) → Decidable (a = b)
  | .atom s, .atom t => if h : s = t then .isTrue (by rw [h]) else .isFalse (by simpa using h)
  | .atom _, .list _ => .isFalse nofun
  | .list _, .atom _ => .isFalse nofun
  | .list xs, .list ys =>
    match decEqs xs ys with
    | .isTrue h => .isTrue (by rw [h])
    | .isFalse h => .isFalse (by simpa using h)

/-- Decides whether two lists of trees are equal. -/
def decEqs : (as bs : List Sexp) → Decidable (as = bs)
  | [], [] => .isTrue rfl
  | [], _ :: _ => .isFalse nofun
  | _ :: _, [] => .isFalse nofun
  | a :: as, b :: bs =>
    match decEq a b, decEqs as bs with
    | .isTrue h, .isTrue hs => .isTrue (by rw [h, hs])
    | .isFalse h, _ => .isFalse fun e => h (List.cons.inj e).1
    | _, .isFalse hs => .isFalse fun e => hs (List.cons.inj e).2

end

instance : DecidableEq Sexp := decEq

/-- Whether a tree is a list. -/
def isList : Sexp → Bool
  | .atom _ => false
  | .list _ => true

/-- A head followed by more trees; a head alone stays as it is. -/
def form (head : Sexp) (rest : List Sexp) : Sexp :=
  if rest.isEmpty then head else .list (head :: rest)

/-- A reference to a name, such as `$main`. -/
def reference (name : String) : Sexp :=
  .atom ("$" ++ name)

/-- A text in double quotes, such as `"memory"`. -/
def quotation (text : String) : Sexp :=
  .atom ("\"" ++ text ++ "\"")

/-- A tree with one more tree at its end; an atom becomes the first of two items. -/
def extend : Sexp → Sexp → Sexp
  | .atom t, x => .list [.atom t, x]
  | .list items, x => .list (items ++ [x])

/-- What stands between the items of a list that is spread out: a line feed and the indent if the
width is positive, otherwise one blank. -/
def separator (width : Int) : List Char :=
  if 0 < width then '\n' :: List.replicate width.toNat ' ' else [' ']

/-- What stands before the bracket that closes a list that is spread out. -/
def finalBreak (width : Int) : List Char :=
  if 0 < width then ['\n'] else []

/-- A text with each of its line feeds made a separator, which moves its later lines one level
deeper. -/
def deepen (width : Int) (text : List Char) : List Char :=
  (separator width).intercalate (Text.splitOn '\n' text)

/-- Puts printed items between brackets: side by side, or spread out one a line. -/
def enclose (width : Int) (spread : Bool) (texts : List (List Char)) : List Char :=
  match spread, texts with
  | true, head :: rest =>
    '(' :: head ++ separator width ++
      (separator width).intercalate (rest.map (deepen width)) ++ finalBreak width ++ [')']
  | _, texts => '(' :: [' '].intercalate texts ++ [')']

mutual

/-- The text of a tree. A list is spread out if it has more than one item and one of them is a
list. -/
def layout (width : Int) : Sexp → List Char
  | .atom t => t.toList
  | .list items =>
    enclose width (items.any isList && decide (1 < items.length)) (layouts width items)

/-- The texts of several trees. -/
def layouts (width : Int) : List Sexp → List (List Char)
  | [] => []
  | x :: xs => layout width x :: layouts width xs

end

/-- The text of a tree with an indent of `width` blanks a level; one line if that is not
positive. -/
def pretty (width : Int) (s : Sexp) : String :=
  String.ofList (s.layout width)

/-- The text of a tree on one line. -/
def text (s : Sexp) : String :=
  s.pretty 0

theorem layouts_eq_map (width : Int) (xs : List Sexp) :
    layouts width xs = xs.map (layout width) := by
  induction xs with
  | nil => rfl
  | cons x xs ih => rw [layouts, ih, List.map_cons]

end Sexp

end Clausal
