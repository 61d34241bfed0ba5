import Clausal.Path
import Clausal.Proofs.Text.Lines

/-!
# Paths and their texts

A path that a text writes is normal (`ofString_normal`): its parts are names, and it starts with at
most two slashes. Normal paths are closed under what builds do with them, and the text of a normal
path writes that path (`ofString_text`), so nothing is lost when a path is handed to a tool as a
text. The last part of a path is its stem and its suffix (`stem_append_suffix`).
-/

namespace Clausal

namespace Path

/-- The text can stand between the slashes of a path. -/
def IsName (part : String) : Prop :=
  part ≠ "" ∧ part ≠ "." ∧ '/' ∉ part.toList

instance (part : String) : Decidable (IsName part) :=
  inferInstanceAs (Decidable (_ ∧ _ ∧ _))

/-- The path starts with at most two slashes, and its parts are names. -/
def Normal (p : Path) : Prop :=
  p.slashes ≤ 2 ∧ ∀ part ∈ p.parts, IsName part

/-- A path from a text is normal. -/
theorem ofString_normal (text : String) : (ofString text).Normal := by
  constructor
  · show leadingSlashes text ≤ 2
    unfold leadingSlashes
    split <;> omega
  · intro part hpart
    obtain ⟨hsplit, hname⟩ := List.mem_filter.1 hpart
    obtain ⟨l, hl, rfl⟩ := List.mem_map.1 hsplit
    rw [Bool.and_eq_true, decide_eq_true_iff, decide_eq_true_iff] at hname
    refine ⟨hname.1, hname.2, ?_⟩
    rw [String.toList_ofList]
    exact Text.not_mem_of_mem_splitOn hl

/-- Normal paths are joined to one. -/
theorem Normal.join {p q : Path} (hp : p.Normal) (hq : q.Normal) : (p.join q).Normal := by
  unfold Path.join
  split
  · exact hq
  · refine ⟨hp.1, fun part hpart => ?_⟩
    rcases List.mem_append.1 hpart with hpart | hpart
    · exact hp.2 part hpart
    · exact hq.2 part hpart

/-- A name below a normal path is a normal path. -/
theorem Normal.child {p : Path} (hp : p.Normal) (name : String) : (p.child name).Normal :=
  hp.join (ofString_normal name)

/-- What is above a normal path is a normal path. -/
theorem Normal.parent {p : Path} (hp : p.Normal) : p.parent.Normal :=
  ⟨hp.1, fun part hpart => hp.2 part (List.dropLast_subset _ hpart)⟩

/-! ## Texts -/

/-- The text of a path: its slashes, and its parts with slashes between them. -/
theorem toList_text {p : Path} (h : ¬ (p.slashes = 0 ∧ p.parts = [])) :
    p.text.toList =
      List.replicate p.slashes '/' ++ ['/'].intercalate (p.parts.map String.toList) := by
  rw [text, if_neg h, String.toList_append, String.toList_ofList, String.toList_intercalate]
  rfl

/-- Slashes at the front are cut off as empty parts. -/
theorem split_slashes (k : Nat) (cs : List Char) :
    (List.replicate k '/' ++ cs).splitOn '/' = List.replicate k [] ++ cs.splitOn '/' := by
  induction k with
  | zero => rfl
  | succ k ih =>
    rw [List.replicate_succ, List.cons_append, List.splitOn_cons_eq_if_modifyHead, if_pos (by rfl),
      ih]
    rfl

/-- Names that are put together with slashes do not start with one. -/
theorem takeWhile_intercalate {parts : List String} (h : ∀ part ∈ parts, IsName part) :
    (['/'].intercalate (parts.map String.toList)).takeWhile (· = '/') = [] := by
  cases parts with
  | nil => rfl
  | cons part parts =>
    obtain ⟨hne, -, hslash⟩ := h part List.mem_cons_self
    cases hcs : part.toList with
    | nil => exact absurd (String.toList_eq_nil_iff.1 hcs) hne
    | cons c cs =>
      rw [hcs, List.mem_cons, not_or] at hslash
      have hc : ¬ decide (c = '/') = true := by simpa using Ne.symm hslash.1
      cases parts with
      | nil =>
        rw [List.map_singleton, List.intercalate_singleton, hcs]
        exact List.takeWhile_cons_of_neg hc
      | cons part' parts =>
        rw [List.map_cons, List.map_cons, List.intercalate_cons_cons, hcs]
        exact List.takeWhile_cons_of_neg hc

/-- The text of a normal path starts with its slashes. -/
theorem leadingSlashes_text {p : Path} (h : p.Normal)
    (hdot : ¬ (p.slashes = 0 ∧ p.parts = [])) : leadingSlashes p.text = p.slashes := by
  have hslashes := h.1
  have hlength : (p.text.toList.takeWhile (· = '/')).length = p.slashes := by
    rw [toList_text hdot, List.takeWhile_append_of_pos (by simp), takeWhile_intercalate h.2,
      List.append_nil, List.length_replicate]
  unfold leadingSlashes
  rw [hlength]
  generalize p.slashes = k at hslashes
  match k, hslashes with
  | 0, _ | 1, _ | 2, _ => rfl

/-- The text of a normal path is cut into its parts. -/
theorem split_text {p : Path} (h : p.Normal) (hparts : p.parts ≠ []) :
    split p.text = List.replicate p.slashes "" ++ p.parts := by
  have hnames : ∀ l ∈ p.parts.map String.toList, '/' ∉ l := by
    intro l hl
    obtain ⟨part, hpart, rfl⟩ := List.mem_map.1 hl
    exact (h.2 part hpart).2.2
  have hne : p.parts.map String.toList ≠ [] := fun hnil => hparts (List.map_eq_nil_iff.1 hnil)
  rw [split, Text.splitOn_eq, toList_text fun hdot => hparts hdot.2, split_slashes,
    List.splitOn_intercalate _ hnames hne, List.map_append, List.map_replicate, List.map_map]
  congr 1
  exact (List.map_congr_left fun _ _ => String.ofList_toList).trans (List.map_id _)

/-- **The text of a normal path writes the path.** -/
theorem ofString_text {p : Path} (h : p.Normal) : ofString p.text = p := by
  obtain ⟨slashes, parts⟩ := p
  by_cases hparts : parts = []
  · subst hparts
    have hslashes : slashes ≤ 2 := h.1
    match slashes, hslashes with
    | 0, _ | 1, _ | 2, _ => decide
  · have hnames : parts.filter (fun part => part ≠ "" && part ≠ ".") = parts :=
      List.filter_eq_self.2 fun part hpart => by
        obtain ⟨hne, hdot, -⟩ := h.2 part hpart
        simp [hne, hdot]
    rw [ofString, leadingSlashes_text h fun hdot => hparts hdot.2, split_text h hparts,
      List.filter_append, hnames]
    simp

/-! ## Stems and suffixes -/

/-- A name that is cut is cut before its last dot. -/
theorem splitSuffix?_append {name : String} {front ending : List Char}
    (h : splitSuffix? name = some (front, ending)) : front ++ ending = name.toList := by
  have hsplit := List.takeWhile_append_dropWhile (p := (· ≠ '.')) (l := name.toList.reverse)
  unfold splitSuffix? at h
  dsimp only at h
  split at h
  · next rest hrest =>
    split at h
    · cases h
    · cases h
      rw [hrest] at hsplit
      have hname := congrArg List.reverse hsplit
      rw [List.reverse_append, List.reverse_reverse, List.reverse_cons, List.append_assoc] at hname
      exact hname
  · cases h

/-- The last part of a path is its stem and its suffix. -/
theorem stem_append_suffix (p : Path) : p.stem ++ p.suffix = p.name := by
  unfold stem suffix
  cases h : splitSuffix? p.name with
  | none => exact String.append_empty
  | some cut =>
    obtain ⟨front, ending⟩ := cut
    show String.ofList front ++ String.ofList ending = p.name
    rw [← String.ofList_append, splitSuffix?_append h, String.ofList_toList]

/-- The name of a path is its last part. -/
theorem dropLast_append_name {p : Path} (h : p.parts ≠ []) :
    p.parts.dropLast ++ [p.name] = p.parts := by
  rw [name, List.getLast?_eq_some_getLast h]
  exact List.dropLast_concat_getLast h

/-- The last part of a path is its name. -/
theorem name_of_parts {p : Path} {parts : List String} {last : String}
    (h : p.parts = parts ++ [last]) : p.name = last := by
  rw [name, h, List.getLast?_concat]
  rfl

section WithSuffix

variable {p q : Path} {ending : String} (h : p.withSuffix? ending = some q)
include h

/-- Only a path with parts is given another ending. -/
theorem parts_ne_nil_of_withSuffix? : p.parts ≠ [] := by
  intro hparts
  rw [withSuffix?, name, hparts] at h
  cases h

/-- A path with another ending has the same directory. -/
theorem eq_of_withSuffix? : q = ⟨p.slashes, p.parts.dropLast ++ [p.stem ++ ending]⟩ := by
  unfold withSuffix? at h
  split at h
  · cases h
  · exact (Option.some.inj h).symm

/-- A path keeps its last part exactly if it had the ending before. -/
theorem withSuffix?_name_eq_iff : q.name = p.name ↔ p.suffix = ending := by
  have hname : q.name = p.stem ++ ending := by
    rw [eq_of_withSuffix? h]
    exact name_of_parts rfl
  rw [hname, ← stem_append_suffix p, eq_comm]
  exact String.append_right_inj _

/-- The ending that a path has already does not change it. -/
theorem withSuffix?_eq_self (hsuffix : p.suffix = ending) : q = p := by
  rw [eq_of_withSuffix? h, ← hsuffix, stem_append_suffix,
    dropLast_append_name (parts_ne_nil_of_withSuffix? h)]

/-- A normal path with another ending is normal. -/
theorem Normal.withSuffix? (hp : p.Normal) (hending : IsName ending) : q.Normal := by
  obtain ⟨hne, hdot, hslash⟩ := hending
  rw [eq_of_withSuffix? h]
  refine ⟨hp.1, fun part hpart => ?_⟩
  rcases List.mem_append.1 hpart with hpart | hpart
  · exact hp.parent.2 part hpart
  · obtain rfl := List.mem_singleton.1 hpart
    refine ⟨fun hempty => hne (String.append_eq_empty_iff.1 hempty).2, fun heq => ?_, ?_⟩
    · have hchars := congrArg String.toList heq
      rw [String.toList_append] at hchars
      rcases List.append_eq_singleton_iff.1 hchars with ⟨-, hlast⟩ | ⟨-, hnil⟩
      · exact hdot (String.toList_injective hlast)
      · exact hne (String.toList_eq_nil_iff.1 hnil)
    · have hname : p.name ∈ p.parts := by
        rw [← dropLast_append_name (parts_ne_nil_of_withSuffix? h)]
        exact List.mem_append_right _ List.mem_cons_self
      have hstem := (hp.2 _ hname).2.2
      rw [← stem_append_suffix, String.toList_append, List.mem_append, not_or] at hstem
      rw [String.toList_append, List.mem_append, not_or]
      exact ⟨hstem.1, hslash⟩

end WithSuffix

end Path

end Clausal
