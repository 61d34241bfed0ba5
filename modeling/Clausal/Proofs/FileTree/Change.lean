import Clausal.FileTree
import Clausal.Proofs.FileTree.Path

/-!
# What a change leaves

Where a path leads depends on the directories of a tree only (`locate_of_keeps`), and writing and
removing files keeps them. So after a file was written or removed, every path still leads where it
led before, and what stands there is what stood there unless it is the place of the file
(`write_spec`, `remove_spec`). The place of a file is its directory with the last part of the path
added (`locate_file`), so files whose names differ have different places (`Apart.place_ne`).
-/

namespace Clausal.FileTree

variable {t u : FileTree} {p q : Path} {r d : Route} {bytes : ByteArray}

/-! ## Directories -/

/-- The top is a directory. -/
theorem get?_top (t : FileTree) : t.get? [] = some .directory :=
  Node.get?_nil _

/-- What leads to a directory is a directory. -/
theorem get?_dropLast (h : t.get? r = some .directory) : t.get? r.dropLast = some .directory := by
  by_cases hr : r = []
  · rw [hr]
    exact get?_top t
  · refine Classical.byContradiction fun hfile => ?_
    have hnone := Node.get?_append_of_not_directory (s := [r.getLast hr]) (by simp) hfile
    rw [List.dropLast_concat_getLast hr] at hnone
    cases hnone.symm.trans h

/-- Below a file there is nothing. -/
theorem get?_below_file (h : t.get? r = some (.file bytes)) {s : Route} (hbelow : r <+: s)
    (hne : s ≠ r) : t.get? s = none := by
  obtain ⟨rest, rfl⟩ := hbelow
  have hfile : t.top.get? r ≠ some .directory := fun hdir => by cases hdir.symm.trans h
  refine Node.get?_append_of_not_directory (fun hrest => hne ?_) hfile
  rw [hrest, List.append_nil]

/-- The directories of a tree are directories of another one, and both have the same current
directory. -/
structure Keeps (t u : FileTree) : Prop where
  here : u.here = t.here
  directory : ∀ r, t.get? r = some .directory → u.get? r = some .directory

/-- A change at one place keeps the directories if there is none at the place. -/
theorem keeps_of_place (hhere : u.here = t.here) (hr : t.get? r ≠ some .directory)
    {e : Option Entry} (hget : ∀ s, u.get? s = if s = r then e else t.get? s) : Keeps t u := by
  refine ⟨hhere, fun s hs => ?_⟩
  have hne : s ≠ r := fun heq => hr (heq ▸ hs)
  rw [hget, if_neg hne]
  exact hs

/-! ## Where paths lead -/

/-- A path is walked one part after the other. -/
theorem walk_append (t : FileTree) (r : Route) (ps qs : List String) :
    t.walk r (ps ++ qs) = t.walk r ps >>= fun d => t.walk d qs := by
  induction ps generalizing r with
  | nil => rfl
  | cons part ps ih =>
    rw [List.cons_append, walk, walk]
    cases t.get? r with
    | none => rfl
    | some e =>
      cases e with
      | file bytes => rfl
      | directory =>
        dsimp only
        split
        · rfl
        · exact ih (step r part)

/-- What is kept is walked as before. -/
theorem walk_of_keeps (h : Keeps t u) {ps : List String} {s : Route} (hwalk : t.walk s ps = .ok r) :
    u.walk s ps = .ok r := by
  induction ps generalizing s with
  | nil => exact hwalk
  | cons part ps ih =>
    rw [walk] at hwalk ⊢
    cases hs : t.get? s with
    | none =>
      rw [hs] at hwalk
      cases hwalk
    | some e =>
      rw [hs] at hwalk
      cases e with
      | file bytes => cases hwalk
      | directory =>
        rw [h.directory s hs]
        dsimp only at hwalk ⊢
        split at hwalk
        · cases hwalk
        · next hshort =>
          rw [if_neg hshort]
          exact ih hwalk

/-- A path is located if it is accepted and can be walked. -/
theorem locate_eq_ok_iff : t.locate p = .ok r ↔
    accept p.text = .ok () ∧ t.walk (t.start p) p.parts = .ok r := by
  unfold locate
  cases accept p.text with
  | error f =>
    constructor
    · intro h
      cases h
    · rintro ⟨h, -⟩
      cases h
  | ok _ => exact ⟨fun h => ⟨rfl, h⟩, fun h => h.2⟩

/-- A path leads to the same place while directories are kept. -/
theorem locate_of_keeps (h : Keeps t u) (hlocate : t.locate p = .ok r) : u.locate p = .ok r := by
  rw [locate_eq_ok_iff] at hlocate ⊢
  have hstart : u.start p = t.start p := by rw [start, start, h.here]
  rw [hstart]
  exact ⟨hlocate.1, walk_of_keeps h hlocate.2⟩

/-- A path that does not lead to a directory leads from its directory to its last part. -/
theorem locate_file (hp : p.parts ≠ []) (hlocate : t.locate p = .ok r)
    (hfile : t.get? r ≠ some .directory) :
    ∃ d, t.get? d = some .directory ∧ r = d ++ [p.name] := by
  have hwalk := (locate_eq_ok_iff.1 hlocate).2
  rw [← Path.dropLast_append_name hp, walk_append] at hwalk
  cases hd : t.walk (t.start p) p.parts.dropLast with
  | error f =>
    rw [hd] at hwalk
    cases hwalk
  | ok d =>
    rw [hd] at hwalk
    change t.walk d [p.name] = .ok r at hwalk
    rw [walk] at hwalk
    cases hentry : t.get? d with
    | none =>
      rw [hentry] at hwalk
      cases hwalk
    | some e =>
      rw [hentry] at hwalk
      cases e with
      | file bytes => cases hwalk
      | directory =>
        dsimp only at hwalk
        split at hwalk
        · cases hwalk
        · rw [walk] at hwalk
          refine ⟨d, hentry, ?_⟩
          have hstep : step d p.name = r := Except.ok.inj hwalk
          -- the two parts that are not names lead to directories
          unfold step at hstep
          split at hstep
          · exact absurd (hstep ▸ hentry) hfile
          · split at hstep
            · exact absurd (hstep ▸ get?_dropLast hentry) hfile
            · exact hstep.symm

/-! ## Reading and changing -/

/-- What is read is what stands at the located place. -/
theorem read_of_locate (hlocate : t.locate p = .ok r) : t.read p =
    match t.get? r with
    | none => .error .missing
    | some .directory => .error .isDirectory
    | some (.file bytes) => .ok bytes := by
  have hfind : t.find p = t.entryAt r := by
    unfold find
    rw [hlocate]
    rfl
  rw [read, hfind, entryAt]
  cases t.get? r with
  | none => rfl
  | some e => cases e <;> rfl

/-- A path reads as what its place holds. -/
theorem read_eq_ok_iff :
    t.read p = .ok bytes ↔ ∃ r, t.locate p = .ok r ∧ t.get? r = some (.file bytes) := by
  constructor
  · intro h
    cases hlocate : t.locate p with
    | error f =>
      unfold read find at h
      rw [hlocate] at h
      cases h
    | ok r =>
      rw [read_of_locate hlocate] at h
      refine ⟨r, rfl, ?_⟩
      split at h
      · cases h
      · cases h
      · next hentry =>
        cases h
        exact hentry
  · rintro ⟨r, hlocate, hentry⟩
    rw [read_of_locate hlocate, hentry]

/-- A change of the tree does not move the current directory. -/
theorem here_withTop (t : FileTree) (n : Node) : (t.withTop n).here = t.here := by
  cases n <;> rfl

/-- **Writing** a file changes what stands at its place, and nothing else. -/
theorem write_spec (hp : p.parts ≠ []) (h : t.write p bytes = .ok u) :
    ∃ r, t.locate p = .ok r ∧ t.get? r ≠ some .directory ∧ Keeps t u ∧
      ∀ s, u.get? s = if s = r then some (.file bytes) else t.get? s := by
  unfold write at h
  cases hlocate : t.locate p with
  | error f =>
    rw [hlocate] at h
    cases h
  | ok r =>
    rw [hlocate] at h
    simp only [bind, Except.bind] at h
    split at h
    · cases h
    · next hfile =>
      cases h
      obtain ⟨d, hd, rfl⟩ := locate_file hp hlocate hfile
      have hget : ∀ s, (t.put (d ++ [p.name]) (.file bytes)).get? s =
          if s = d ++ [p.name] then some (.file bytes) else t.get? s := by
        intro s
        refine get?_put s _ (by simp) ?_ hfile
        rw [List.dropLast_concat]
        exact hd
      exact ⟨_, rfl, hfile, keeps_of_place (here_withTop _ _) hfile hget, hget⟩

/-- **Removing** a file clears its place, and changes nothing else. -/
theorem remove_spec (h : t.remove p = .ok u) :
    ∃ r, t.locate p = .ok r ∧ t.get? r ≠ some .directory ∧ Keeps t u ∧
      ∀ s, u.get? s = if s = r then none else t.get? s := by
  unfold remove at h
  cases hlocate : t.locate p with
  | error f =>
    rw [hlocate] at h
    cases h
  | ok r =>
    rw [hlocate] at h
    simp only [bind, Except.bind, entryAt] at h
    cases hentry : t.get? r with
    | none =>
      rw [hentry] at h
      cases h
    | some e =>
      rw [hentry] at h
      cases e with
      | directory => cases h
      | file bytes =>
        cases h
        have hr : r ≠ [] := by
          rintro rfl
          cases (get?_top t).symm.trans hentry
        have hfile : t.get? r ≠ some .directory := fun hdir => by cases hdir.symm.trans hentry
        have hget : ∀ s, (t.erase r).get? s = if s = r then none else t.get? s := by
          intro s
          rw [get?_erase s hr]
          by_cases hs : s = r
          · rw [if_pos hs, hs, if_pos (List.prefix_refl r)]
          · rw [if_neg hs]
            split
            · next hbelow => exact (get?_below_file hentry hbelow hs).symm
            · rfl
        exact ⟨r, rfl, hfile, keeps_of_place (here_withTop _ _) hfile hget, hget⟩

/-- What is written is read. -/
theorem read_write_self (hp : p.parts ≠ []) (h : t.write p bytes = .ok u) :
    u.read p = .ok bytes := by
  obtain ⟨r, hlocate, -, hkeeps, hget⟩ := write_spec hp h
  exact read_eq_ok_iff.2 ⟨r, locate_of_keeps hkeeps hlocate, by rw [hget, if_pos rfl]⟩

/-- What is removed is missing. -/
theorem read_remove_self (h : t.remove p = .ok u) : u.read p = .error .missing := by
  obtain ⟨r, hlocate, -, hkeeps, hget⟩ := remove_spec h
  rw [read_of_locate (locate_of_keeps hkeeps hlocate), hget, if_pos rfl]

/-- Two paths have last parts, and different ones. -/
structure Apart (p q : Path) : Prop where
  left : p.parts ≠ []
  right : q.parts ≠ []
  name : p.name ≠ q.name

theorem Apart.symm (h : Apart p q) : Apart q p :=
  ⟨h.right, h.left, Ne.symm h.name⟩

/-- Files whose names differ have different places. -/
theorem Apart.place_ne (h : Apart p q) {s : Route} (hp : t.locate p = .ok r)
    (hr : t.get? r ≠ some .directory) (hq : t.locate q = .ok s)
    (hs : t.get? s ≠ some .directory) : s ≠ r := by
  obtain ⟨d, -, rfl⟩ := locate_file h.left hp hr
  obtain ⟨d', -, rfl⟩ := locate_file h.right hq hs
  intro heq
  exact h.name (List.singleton_inj.1 (List.append_inj_right' heq rfl)).symm

/-- A file is kept while the place of a file of another name changes. -/
theorem Apart.read_of_place (h : Apart p q) (hread : t.read q = .ok bytes)
    (hp : t.locate p = .ok r) (hr : t.get? r ≠ some .directory) (hkeeps : Keeps t u)
    {e : Option Entry} (hget : ∀ s, u.get? s = if s = r then e else t.get? s) :
    u.read q = .ok bytes := by
  obtain ⟨s, hq, hs⟩ := read_eq_ok_iff.1 hread
  have hne : s ≠ r := h.place_ne hp hr hq fun hdir => by cases hdir.symm.trans hs
  refine read_eq_ok_iff.2 ⟨s, locate_of_keeps hkeeps hq, ?_⟩
  rw [hget, if_neg hne]
  exact hs

/-- Writing one path does not change what is read at one apart from it. -/
theorem Apart.read_write (h : Apart p q) (hread : t.read q = .ok bytes)
    {content : ByteArray} (hwrite : t.write p content = .ok u) : u.read q = .ok bytes := by
  obtain ⟨r, hlocate, hfile, hkeeps, hget⟩ := write_spec h.left hwrite
  exact h.read_of_place hread hlocate hfile hkeeps hget

/-- Nor does removing it. -/
theorem Apart.read_remove (h : Apart p q) (hread : t.read q = .ok bytes)
    (hremove : t.remove p = .ok u) : u.read q = .ok bytes := by
  obtain ⟨r, hlocate, hfile, hkeeps, hget⟩ := remove_spec hremove
  exact h.read_of_place hread hlocate hfile hkeeps hget

end Clausal.FileTree
