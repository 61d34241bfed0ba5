import Clausal.Assoc

/-!
# Nodes of a file tree

A node is a file with its bytes, or a directory with the nodes below it by name. What a tree shows
at a place is an `Entry`, which leaves out what is below. The operations are stated by the entries
that they show: `get?_put` for a new entry in a directory that is there, `get?_erase` for a place
that is cleared with all that is below it.
-/

namespace Clausal

/-- A place in a file tree: the names that lead to it from the top. -/
abbrev Route := List String

namespace FileTree

/-- What stands at a place. -/
inductive Entry where
  | directory
  | file (bytes : ByteArray)
deriving Inhabited

/-- Whether an entry is a directory. -/
def Entry.isDirectory : Entry → Bool
  | .directory => true
  | .file _ => false

/-- Whether two entries are directories, or files with the same bytes. -/
def Entry.agrees : Entry → Entry → Bool
  | .directory, .directory => true
  | .file a, .file b => a.data == b.data
  | _, _ => false

/-- A file, or a directory with the nodes below it by name. -/
inductive Node where
  | file (bytes : ByteArray)
  | directory (nodes : List (String × Node))

instance : Inhabited Node := ⟨.directory []⟩

namespace Node

/-- A node without what is below it. -/
def entry : Node → Entry
  | .file bytes => .file bytes
  | .directory _ => .directory

/-- A node with nothing below it. -/
def ofEntry : Entry → Node
  | .file bytes => .file bytes
  | .directory => .directory []

/-- What stands at a place below a node. -/
def get? : Node → Route → Option Entry
  | n, [] => some n.entry
  | .file _, _ :: _ => none
  | .directory nodes, name :: r =>
    match Assoc.value? nodes name with
    | some n => n.get? r
    | none => none

/-- Puts a node at a place, instead of what stood there. Nothing changes unless the directory that
leads there exists. -/
def put : Node → Route → Node → Node
  | _, [], new => new
  | .file bytes, _ :: _, _ => .file bytes
  | .directory nodes, [name], new => .directory (Assoc.put nodes name new)
  | .directory nodes, name :: name' :: r, new =>
    match Assoc.value? nodes name with
    | some n => .directory (Assoc.put nodes name (n.put (name' :: r) new))
    | none => .directory nodes

/-- Takes away what stands at a place below a node. -/
def erase : Node → Route → Node
  | n, [] => n
  | .file bytes, _ :: _ => .file bytes
  | .directory nodes, [name] => .directory (Assoc.erase nodes name)
  | .directory nodes, name :: name' :: r =>
    match Assoc.value? nodes name with
    | some n => .directory (Assoc.put nodes name (n.erase (name' :: r)))
    | none => .directory nodes

mutual

/-- All places below a node with what stands there; `r` leads to the node. -/
def places (r : Route) : Node → List (Route × Entry)
  | .file _ => []
  | .directory nodes => placesOfAll r nodes

/-- The places of several nodes of a directory. -/
def placesOfAll (r : Route) : List (String × Node) → List (Route × Entry)
  | [] => []
  | p :: ps => placesOf r p ++ placesOfAll r ps

/-- The place of a node of a directory and those below it. -/
def placesOf (r : Route) : String × Node → List (Route × Entry)
  | (name, n) => (r ++ [name], n.entry) :: places (r ++ [name]) n

end

/-! ## What is shown after a change -/

@[simp] theorem get?_nil (n : Node) : n.get? [] = some n.entry := by
  cases n <;> rfl

theorem get?_ofEntry (e : Entry) (r : Route) :
    (ofEntry e).get? r = if r = [] then some e else none := by
  cases e <;> cases r <;> simp [ofEntry, get?, entry]

theorem get?_directory (nodes : List (String × Node)) (name : String) (r : Route) :
    (directory nodes).get? (name :: r) = (Assoc.value? nodes name).bind fun n => n.get? r := by
  rw [get?]
  cases Assoc.value? nodes name <;> rfl

/-- Below a place that shows no directory there is nothing. -/
theorem get?_append_of_not_directory {n : Node} {r s : Route} (hs : s ≠ [])
    (h : n.get? r ≠ some .directory) : n.get? (r ++ s) = none := by
  induction r generalizing n with
  | nil =>
    cases n with
    | directory nodes => exact absurd rfl h
    | file bytes =>
      cases s with
      | nil => exact absurd rfl hs
      | cons name s => rfl
  | cons name r ih =>
    cases n with
    | file bytes => rfl
    | directory nodes =>
      rw [List.cons_append, get?_directory]
      rw [get?_directory] at h
      cases hn : Assoc.value? nodes name with
      | none => rfl
      | some n => rw [hn] at h; exact ih h

/-- What is shown after an entry was put in a directory where no directory stood before. -/
theorem get?_put {n : Node} {r : Route} (s : Route) (e : Entry) (hr : r ≠ [])
    (hparent : n.get? r.dropLast = some .directory) (hfree : n.get? r ≠ some .directory) :
    (n.put r (ofEntry e)).get? s = if s = r then some e else n.get? s := by
  induction r generalizing n s with
  | nil => exact absurd rfl hr
  | cons name r ih =>
    cases n with
    | file bytes => cases r <;> simp [get?, entry] at hparent
    | directory nodes =>
      cases r with
      | nil =>
        rw [put]
        cases s with
        | nil => simp [entry]
        | cons m s =>
          rw [get?_directory, Assoc.value?_put]
          by_cases hm : name = m
          · subst hm
            rw [if_pos rfl, Option.bind_some, get?_ofEntry]
            cases s with
            | nil => simp
            | cons a s =>
              have hnone := get?_append_of_not_directory (s := a :: s) (by simp) hfree
              simpa using hnone.symm
          · rw [if_neg hm, get?_directory, if_neg (fun h => hm (List.cons.inj h).1.symm)]
      | cons name' r =>
        rw [List.dropLast_cons_of_ne_nil (by simp), get?_directory] at hparent
        cases hn : Assoc.value? nodes name with
        | none => rw [hn] at hparent; exact absurd hparent (by simp)
        | some c =>
          rw [hn, Option.bind_some] at hparent
          rw [get?_directory, hn, Option.bind_some] at hfree
          simp only [put, hn]
          cases s with
          | nil => simp [entry]
          | cons m s =>
            rw [get?_directory, Assoc.value?_put, get?_directory]
            by_cases hm : name = m
            · subst hm
              rw [if_pos rfl, hn, Option.bind_some, Option.bind_some,
                ih s (by simp) hparent hfree]
              simp
            · rw [if_neg hm, if_neg (fun h => hm (List.cons.inj h).1.symm)]

/-- What is shown after a place was cleared. -/
theorem get?_erase {n : Node} {r : Route} (s : Route) (hr : r ≠ []) :
    (n.erase r).get? s = if r <+: s then none else n.get? s := by
  induction r generalizing n s with
  | nil => exact absurd rfl hr
  | cons name r ih =>
    cases s with
    | nil =>
      rw [if_neg (by simp)]
      cases n with
      | file bytes => rfl
      | directory nodes =>
        cases r with
        | nil => rfl
        | cons name' r => rw [erase]; split <;> rfl
    | cons m s =>
      cases n with
      | file bytes => simp [erase, get?]
      | directory nodes =>
        by_cases hm : name = m
        · subst hm
          cases r with
          | nil =>
            rw [erase, get?_directory, Assoc.value?_erase]
            simp
          | cons name' r =>
            cases hn : Assoc.value? nodes name with
            | none =>
              simp [erase, hn, get?_directory]
            | some c =>
              simp only [erase, hn]
              rw [get?_directory, Assoc.value?_put, if_pos rfl, Option.bind_some, ih s (by simp),
                get?_directory, hn, Option.bind_some]
              simp only [List.cons_prefix_cons, true_and]
        · rw [if_neg (fun h => hm (List.cons_prefix_cons.mp h).1)]
          cases r with
          | nil => simp [erase, get?_directory, hm]
          | cons name' r => rw [erase]; split <;> simp [get?_directory, hm]

end Node

end FileTree

end Clausal
