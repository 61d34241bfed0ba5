import Clausal.FileTree.Node
import Clausal.Path

/-!
# File trees

A file tree is what a program sees of a file system: directories and files with their bytes, and a
current directory. A path is followed part by part, and every part but the last must lead to a
directory. Names and whole paths have a greatest length, and the null character, which ends a path
where it is handed over, may not stand in one. What can go wrong is a `FileTree.Fault`.

There are no symbolic links: every name leads to what stands under it, so a path is followed in as
many steps as it has parts, and `..` leads back to the directory from which the part before it was
entered. Permissions and times are left out as well.
-/

namespace Clausal

namespace FileTree

/-- Why a file tree refuses something. -/
inductive Fault where
  /-- Nothing is there. -/
  | missing
  /-- Something on the way is a file. -/
  | notDirectory
  /-- A directory is where a file is wanted. -/
  | isDirectory
  /-- Something is there already. -/
  | occupied (path : Path)
  /-- A name or a path is longer than file trees take it. -/
  | tooLong
  /-- A path holds the null character. -/
  | nullCharacter
deriving DecidableEq, Repr, Inhabited

end FileTree

/-- What is below the top, which is always a directory, and the current directory. -/
structure FileTree where
  nodes : List (String × FileTree.Node) := []
  here : Route := []
deriving Inhabited

namespace FileTree

/-! ## Places -/

/-- The node at the top. -/
def top (t : FileTree) : Node :=
  .directory t.nodes

/-- The tree with another node at the top. -/
def withTop (t : FileTree) : Node → FileTree
  | .directory nodes => { t with nodes }
  | .file _ => t

/-- What stands at a place. -/
def get? (t : FileTree) (r : Route) : Option Entry :=
  t.top.get? r

/-- Puts something at a place, instead of what stood there and below it. -/
def put (t : FileTree) (r : Route) (e : Entry) : FileTree :=
  t.withTop (t.top.put r (.ofEntry e))

/-- Takes away what stands at a place and below it. -/
def erase (t : FileTree) (r : Route) : FileTree :=
  t.withTop (t.top.erase r)

/-- All places but the top, with what stands there. -/
def places (t : FileTree) : List (Route × Entry) :=
  t.top.places []

theorem top_withTop {t : FileTree} {n : Node} (h : n.entry = .directory) :
    (t.withTop n).top = n := by
  cases n with
  | file bytes => exact absurd h (by simp [Node.entry])
  | directory nodes => rfl

/-- What stands in a tree after something was put in a directory where no directory stood. -/
theorem get?_put {t : FileTree} {r : Route} (s : Route) (e : Entry) (hr : r ≠ [])
    (hparent : t.get? r.dropLast = some .directory) (hfree : t.get? r ≠ some .directory) :
    (t.put r e).get? s = if s = r then some e else t.get? s := by
  have htop := Node.get?_put [] e hr hparent hfree
  rw [if_neg (Ne.symm hr), Node.get?_nil, Node.get?_nil] at htop
  rw [get?, put, top_withTop (Option.some.inj htop), get?]
  exact Node.get?_put s e hr hparent hfree

/-- What stands in a tree after a place was cleared. -/
theorem get?_erase {t : FileTree} {r : Route} (s : Route) (hr : r ≠ []) :
    (t.erase r).get? s = if r <+: s then none else t.get? s := by
  have htop := Node.get?_erase (n := t.top) [] hr
  rw [if_neg (fun h => hr (List.prefix_nil.mp h)), Node.get?_nil, Node.get?_nil] at htop
  rw [get?, erase, top_withTop (Option.some.inj htop), get?]
  exact Node.get?_erase s hr

/-! ## Following paths -/

/-- The place that one part of a path leads to. -/
def step (r : Route) (part : String) : Route :=
  if part = "." then r else if part = ".." then r.dropLast else r ++ [part]

/-- The greatest length of a name, in bytes. -/
def nameLimit : Nat := 255

/-- The greatest length of a path, in bytes. -/
def pathLimit : Nat := 4095

/-- Makes sure that the null character does not stand in the text of a path. -/
def refuseNull (text : String) : Except Fault Unit :=
  if text.toList.contains '\x00' then .error .nullCharacter else .ok ()

/-- Makes sure that the text of a path can be handed to a file tree at all. -/
def accept (text : String) : Except Fault Unit := do
  refuseNull text
  if pathLimit < text.utf8ByteSize then .error .tooLong
  else .ok ()

/-- Follows the parts of a path from a place on. The last one may lead to a place where nothing
stands yet. -/
def walk (t : FileTree) : Route → List String → Except Fault Route
  | r, [] => .ok r
  | r, part :: parts =>
    match t.get? r with
    | none => .error .missing
    | some (.file _) => .error .notDirectory
    | some .directory =>
      if nameLimit < part.utf8ByteSize then .error .tooLong else walk t (step r part) parts

/-- The place where following a path starts. -/
def start (t : FileTree) (p : Path) : Route :=
  if p.isAbsolute then [] else t.here

/-- The place that a path leads to. -/
def locate (t : FileTree) (p : Path) : Except Fault Route := do
  accept p.text
  t.walk (t.start p) p.parts

/-- What stands at a place that must not be empty. -/
def entryAt (t : FileTree) (r : Route) : Except Fault Entry :=
  match t.get? r with
  | none => .error .missing
  | some e => .ok e

/-- What stands where a path leads. -/
def find (t : FileTree) (p : Path) : Except Fault Entry := do
  t.entryAt (← t.locate p)

/-- What stands where a text leads that was not made a path: a slash at its end asks for a
directory, and the empty text leads nowhere. -/
def findText (t : FileTree) (text : String) : Except Fault Entry := do
  if text = "" then .error .missing
  else
    accept text
    let parts := (Path.split text).filter (· ≠ "")
    let parts := if text.toList.getLast? = some '/' then parts ++ ["."] else parts
    t.entryAt (← t.walk (t.start (Path.ofString text)) parts)

/-- What stands where a path leads, if anything does. Only names and paths that are too long are
faults. -/
def find? (t : FileTree) (p : Path) : Except Fault (Option Entry) :=
  match t.find p with
  | .ok e => .ok (some e)
  | .error .tooLong => .error .tooLong
  | .error _ => .ok none

/-- Whether a path leads to a directory. -/
def hasDirectory (t : FileTree) (p : Path) : Bool :=
  match t.find p with
  | .ok e => e.isDirectory
  | .error _ => false

/-- The place of a path that is followed without looking at what is there. -/
def resolve (t : FileTree) (p : Path) : Except Fault Route := do
  refuseNull p.text
  return p.parts.foldl step (t.start p)

/-! ## Reading and changing -/

/-- The bytes of a file. -/
def read (t : FileTree) (p : Path) : Except Fault ByteArray :=
  match t.find p with
  | .error f => .error f
  | .ok .directory => .error .isDirectory
  | .ok (.file bytes) => .ok bytes

/-- Writes a file, whether or not it is there already. -/
def write (t : FileTree) (p : Path) (bytes : ByteArray) : Except Fault FileTree := do
  let r ← t.locate p
  match t.get? r with
  | some .directory => .error .isDirectory
  | _ => .ok (t.put r (.file bytes))

/-- Takes away a file. -/
def remove (t : FileTree) (p : Path) : Except Fault FileTree := do
  let r ← t.locate p
  match ← t.entryAt r with
  | .directory => .error .isDirectory
  | .file _ => .ok (t.erase r)

/-- Makes a directory in one that is there. -/
def makeDirectory (t : FileTree) (p : Path) : Except Fault FileTree := do
  let r ← t.locate p
  match t.get? r with
  | some _ => .error (.occupied p)
  | none => .ok (t.put r .directory)

/-- Makes a directory and all directories that lead to it. One that is there already is a fault
unless `mayExist` is set. What was made before a fault stays. -/
def makeDirectories (t : FileTree) (p : Path) (mayExist : Bool) : FileTree × Except Fault Unit :=
  let refuse := fun (t : FileTree) (f : Fault) =>
    if mayExist && t.hasDirectory p then (t, Except.ok ()) else (t, Except.error f)
  match t.makeDirectory p with
  | .ok t => (t, .ok ())
  | .error .missing =>
    if h : p.parts = [] then (t, .error .missing)
    else
      have : p.parent.parts.length < p.parts.length := by
        have := List.length_pos_iff.mpr h
        rw [Path.parent, List.length_dropLast]; omega
      match makeDirectories t p.parent true with
      | (t, .error f) => (t, .error f)
      | (t, .ok ()) =>
        match t.makeDirectory p with
        | .ok t => (t, .ok ())
        | .error .missing => (t, .error .missing)
        | .error f => refuse t f
  | .error f => refuse t f
termination_by p.parts.length

end FileTree

end Clausal
