import Clausal.Sexp.Datum

/-!
# Reading trees

An ordinary reader of symbolic expressions: whatever `blank` says separates, brackets nest, and
what stands between them are words. A text is first cut into marks, from left to right
(`marksOf`), and then the marks are put together to a tree (`assemble`).

Printing writes the marks of a tree, whatever the width (`layout_spells`). The relation `Spells`
says that a text is some marks with blanks between them, at least where two words would run into one
another; it is what all the cases of the printer have in common, and it survives that a text is cut
into lines and these are moved (`Spells.deepen`). From it follow what is read from a text and what
is left of it without the blanks.
-/

namespace Clausal.Sexp

/-- The parts of a text that separators stand between. -/
inductive Mark where
  | opening
  | closing
  | word (text : String)
deriving DecidableEq, Repr

/-- The characters of a mark. -/
def Mark.chars : Mark → List Char
  | .opening => ['(']
  | .closing => [')']
  | .word t => t.toList

/-- Whether a character is one of the visible characters of ASCII. -/
def isGraphic (c : Char) : Bool :=
  0x21 ≤ c.toNat && c.toNat ≤ 0x7E

/-! ## The reader -/

section Reader
variable (blank : Char → Bool)

/-- Spaces and line feeds separate, and no visible character of ASCII does. -/
structure Separates : Prop where
  space : blank ' ' = true
  feed : blank '\n' = true
  graphic : ∀ c, isGraphic c = true → blank c = false

/-- Whether a character is part of a word. -/
def isWordChar (c : Char) : Bool :=
  !blank c && c ≠ '(' && c ≠ ')'

/-- The marks of a text. A word goes as far as there are characters of words. -/
def marksOf : List Char → List Mark
  | [] => []
  | c :: cs =>
    if blank c then marksOf cs
    else if c = '(' then .opening :: marksOf cs
    else if c = ')' then .closing :: marksOf cs
    else .word (String.ofList (c :: cs.takeWhile (isWordChar blank))) ::
      marksOf (cs.dropWhile (isWordChar blank))
termination_by cs => cs.length
decreasing_by
  · exact Nat.lt_succ_self _
  · exact Nat.lt_succ_self _
  · exact Nat.lt_succ_self _
  · exact Nat.lt_succ_of_le (List.dropWhile_sublist _).length_le

/-- The tree that marks make up. The stack holds the items of the lists that are open, the last
item and the innermost list first, and below them what stands outside all brackets. -/
def assemble : List Mark → List (List Sexp) → Option Sexp
  | [], [[s]] => some s
  | .opening :: ms, stack => assemble ms ([] :: stack)
  | .closing :: ms, items :: outer :: stack =>
    assemble ms ((.list items.reverse :: outer) :: stack)
  | .word t :: ms, items :: stack => assemble ms ((.atom t :: items) :: stack)
  | _, _ => none

/-- The tree that a text denotes. -/
def read? (text : String) : Option Sexp :=
  assemble (marksOf blank text.toList) [[]]

end Reader

/-! ## The marks of a tree -/

mutual

/-- The marks of a tree. -/
def marks : Sexp → List Mark
  | .atom t => [.word t]
  | .list items => .opening :: marksAll items ++ [.closing]

/-- The marks of several trees. -/
def marksAll : List Sexp → List Mark
  | [] => []
  | x :: xs => x.marks ++ marksAll xs

end

mutual

/-- The marks of a tree are put together to that tree. -/
theorem assemble_marks (ms : List Mark) : ∀ (s : Sexp) (items : List Sexp)
    (stack : List (List Sexp)),
    assemble (s.marks ++ ms) (items :: stack) = assemble ms ((s :: items) :: stack)
  | .atom t, items, stack => by rw [marks, List.singleton_append, assemble]
  | .list xs, items, stack => by
    rw [marks, List.cons_append, List.cons_append, assemble, List.append_assoc,
      assemble_marksAll _ xs, List.singleton_append, assemble, List.append_nil,
      List.reverse_reverse]

/-- The marks of several trees are put together as these trees. -/
theorem assemble_marksAll (ms : List Mark) : ∀ (xs items : List Sexp) (stack : List (List Sexp)),
    assemble (marksAll xs ++ ms) (items :: stack) = assemble ms ((xs.reverse ++ items) :: stack)
  | [], items, stack => by rw [marksAll, List.nil_append, List.reverse_nil, List.nil_append]
  | x :: xs, items, stack => by
    rw [marksAll, List.append_assoc, assemble_marks _ x, assemble_marksAll ms xs,
      List.reverse_cons, List.append_assoc, List.singleton_append]

end

/-! ## Texts of marks -/

section Texts
variable {blank : Char → Bool} {ms ms' : List Mark} {cs cs' : List Char}

/-- A text that does not begin inside a word. -/
def Apart (blank : Char → Bool) (cs : List Char) : Prop :=
  ∀ c, cs.head? = some c → isWordChar blank c = false

/-- A text is made of marks and of blanks between them; after a word comes no character that could
be part of it. -/
inductive Spells (blank : Char → Bool) : List Mark → List Char → Prop
  | nil : Spells blank [] []
  | blank {c : Char} {ms : List Mark} {cs : List Char} : blank c = true → Spells blank ms cs →
      Spells blank ms (c :: cs)
  | opening {ms : List Mark} {cs : List Char} : Spells blank ms cs →
      Spells blank (.opening :: ms) ('(' :: cs)
  | closing {ms : List Mark} {cs : List Char} : Spells blank ms cs →
      Spells blank (.closing :: ms) (')' :: cs)
  | word {t : String} {ms : List Mark} {cs : List Char} : t.toList ≠ [] →
      (∀ c ∈ t.toList, isWordChar blank c = true) → Apart blank cs → Spells blank ms cs →
      Spells blank (.word t :: ms) (t.toList ++ cs)

/-- The characters of words are all but blanks and parentheses. -/
theorem isWordChar_iff {c : Char} :
    isWordChar blank c = true ↔ blank c = false ∧ c ≠ '(' ∧ c ≠ ')' := by
  simp [isWordChar, and_assoc]

/-- A blank is in no word. -/
theorem not_isWordChar_of_blank {c : Char} (h : blank c = true) : isWordChar blank c = false := by
  simp [isWordChar, h]

/-- The end of a text ends a word. -/
theorem apart_nil : Apart blank [] := by
  intro c h
  cases h

/-- So does a character that is in no word. -/
theorem apart_cons {c : Char} (h : isWordChar blank c = false) : Apart blank (c :: cs) := by
  intro d hd
  cases hd
  exact h

/-- Two texts of which each ends a word end it together. -/
theorem Apart.append (h : Apart blank cs) (h' : Apart blank cs') : Apart blank (cs ++ cs') := by
  cases cs with
  | nil => exact h'
  | cons c cs => exact apart_cons (h c rfl)

/-- A word is cut off before what ends it. -/
theorem Apart.takeWhile {t : List Char} (h : Apart blank cs)
    (ht : ∀ c ∈ t, isWordChar blank c = true) :
    (t ++ cs).takeWhile (isWordChar blank) = t ∧ (t ++ cs).dropWhile (isWordChar blank) = cs := by
  rw [List.takeWhile_append_of_pos ht, List.dropWhile_append_of_pos ht]
  cases cs with
  | nil => simp
  | cons c cs => simp [h c rfl]

/-- The marks of a text are read from it. -/
theorem Spells.marksOf_eq (hb : Separates blank) (h : Spells blank ms cs) :
    marksOf blank cs = ms := by
  induction h with
  | nil => rw [marksOf]
  | blank hc _ ih => rw [marksOf, if_pos hc, ih]
  | opening _ ih => rw [marksOf, hb.graphic _ rfl, if_neg Bool.false_ne_true, if_pos rfl, ih]
  | closing _ ih =>
    rw [marksOf, hb.graphic _ rfl, if_neg Bool.false_ne_true, if_neg (by decide), if_pos rfl, ih]
  | @word t ms cs hne ht hcs _ ih =>
    cases hlist : t.toList with
    | nil => exact absurd hlist hne
    | cons c rest =>
      rw [hlist] at ht
      obtain ⟨hblank, hopen, hclose⟩ := isWordChar_iff.1 (ht c List.mem_cons_self)
      obtain ⟨htake, hdrop⟩ := hcs.takeWhile fun d hd => ht d (List.mem_cons_of_mem _ hd)
      rw [List.cons_append, marksOf, hblank, if_neg Bool.false_ne_true, if_neg hopen, if_neg hclose,
        htake, hdrop, ih, ← hlist, String.ofList_toList]

/-- Without its blanks a text is its marks. -/
theorem Spells.filter_eq (hb : Separates blank) (h : Spells blank ms cs) :
    cs.filter (fun c => !blank c) = ms.flatMap Mark.chars := by
  induction h with
  | nil => rfl
  | blank hc _ ih => rw [List.filter_cons_of_neg (by simp [hc]), ih]
  | opening _ ih | closing _ ih =>
    rw [List.filter_cons_of_pos (by rw [hb.graphic _ rfl]; rfl), ih]
    rfl
  | word _ ht _ _ ih =>
    rw [List.filter_append, ih, List.filter_eq_self.2]
    · rfl
    · intro c hc
      rw [(isWordChar_iff.1 (ht c hc)).1]
      rfl

/-- Blanks may stand in front. -/
theorem Spells.after (h : Spells blank ms cs') (hcs : ∀ c ∈ cs, blank c = true) :
    Spells blank ms (cs ++ cs') := by
  induction cs with
  | nil => exact h
  | cons c cs ih =>
    exact .blank (hcs c List.mem_cons_self) (ih fun d hd => hcs d (List.mem_cons_of_mem _ hd))

/-- Two texts spell their marks one after the other, if the second one ends a word. -/
theorem Spells.append (h : Spells blank ms cs) (h' : Spells blank ms' cs')
    (hapart : Apart blank cs') : Spells blank (ms ++ ms') (cs ++ cs') := by
  induction h with
  | nil => exact h'
  | blank hc _ ih => exact .blank hc ih
  | opening _ ih => exact .opening ih
  | closing _ ih => exact .closing ih
  | word hne ht hcs _ ih =>
    rw [List.append_assoc]
    exact .word hne ht (hcs.append hapart) ih

/-- The characters of a word spell it. -/
theorem spells_word {t : String} (hne : t.toList ≠ [])
    (ht : ∀ c ∈ t.toList, isWordChar blank c = true) : Spells blank [.word t] t.toList := by
  have h := Spells.word hne ht apart_nil .nil
  rwa [List.append_nil] at h

/-! ## The separators of the printer -/

/-- What stands between items is blank. -/
theorem separator_blank (hb : Separates blank) (width : Int) :
    ∀ c ∈ separator width, blank c = true := by
  intro c hc
  unfold separator at hc
  split at hc
  · rcases List.mem_cons.1 hc with rfl | hc
    · exact hb.feed
    · rw [List.eq_of_mem_replicate hc]
      exact hb.space
  · rw [List.mem_singleton.1 hc]
    exact hb.space

/-- So is what stands before a closing parenthesis. -/
theorem finalBreak_blank (hb : Separates blank) (width : Int) :
    ∀ c ∈ finalBreak width, blank c = true := by
  intro c hc
  unfold finalBreak at hc
  split at hc
  · rw [List.mem_singleton.1 hc]
    exact hb.feed
  · cases hc

/-- There is something between items at every width. -/
theorem separator_ne_nil (width : Int) : separator width ≠ [] := by
  unfold separator
  split <;> simp

/-- Blanks keep apart what follows them, if there are any. -/
theorem apart_blanks (h : ∀ c ∈ cs, blank c = true) (hne : cs ≠ []) : Apart blank (cs ++ cs') := by
  cases cs with
  | nil => exact absurd rfl hne
  | cons c cs => exact apart_cons (not_isWordChar_of_blank (h c List.mem_cons_self))

/-- A deeper text has a separator for each of its line feeds. -/
theorem deepen_eq_flatMap (width : Int) (cs : List Char) :
    deepen width cs = cs.flatMap fun c => if c = '\n' then separator width else [c] := by
  unfold deepen
  induction cs with
  | nil => simp [Text.splitOn, List.intercalate]
  | cons c cs ih =>
    rw [Text.splitOn, List.flatMap_cons, ← ih]
    cases hlines : Text.splitOn '\n' cs with
    | nil => exact absurd hlines (Text.splitOn_ne_nil '\n' cs)
    | cons line lines =>
      by_cases hc : c = '\n'
      · simp [hc, List.intercalate]
      · cases lines <;> simp [hc, List.intercalate]

/-- A text of one line stays as it is. -/
theorem deepen_of_not_mem {width : Int} (h : '\n' ∉ cs) : deepen width cs = cs := by
  rw [deepen_eq_flatMap]
  induction cs with
  | nil => rfl
  | cons c cs ih =>
    rw [List.mem_cons, not_or] at h
    rw [List.flatMap_cons, if_neg fun hc => h.1 hc.symm, ih h.2, List.singleton_append]

/-- Moving the lines of a text does not change its marks. -/
theorem Spells.deepen (hb : Separates blank) (width : Int) (h : Spells blank ms cs) :
    Spells blank ms (Sexp.deepen width cs) := by
  have hsep := separator_blank hb width
  rw [deepen_eq_flatMap]
  induction h with
  | nil => exact .nil
  | blank hc _ ih =>
    rw [List.flatMap_cons]
    split
    · exact ih.after hsep
    · exact .blank hc ih
  | opening _ ih => exact .opening ih
  | closing _ ih => exact .closing ih
  | @word t ms cs hne ht hcs _ ih =>
    -- a word has no line feed, and what follows it starts as before or with a separator
    have hfeed : '\n' ∉ t.toList := fun hmem =>
      nomatch hb.feed.symm.trans (isWordChar_iff.1 (ht _ hmem)).1
    rw [List.flatMap_append, ← deepen_eq_flatMap, deepen_of_not_mem hfeed]
    refine .word hne ht ?_ ih
    cases cs with
    | nil => exact apart_nil
    | cons c cs =>
      rw [List.flatMap_cons]
      split
      · exact apart_blanks hsep (separator_ne_nil width)
      · exact apart_cons (hcs c rfl)

end Texts

/-! ## Printed trees -/

mutual

/-- The texts of the atoms of a tree. -/
def atoms : Sexp → List String
  | .atom t => [t]
  | .list items => atomsAll items

/-- The texts of the atoms of several trees. -/
def atomsAll : List Sexp → List String
  | [] => []
  | x :: xs => x.atoms ++ atomsAll xs

end

/-- The atoms of a tree are words: none is empty or has a separator or a bracket in it. -/
def Plain (blank : Char → Bool) (s : Sexp) : Prop :=
  ∀ t ∈ s.atoms, t.toList ≠ [] ∧ ∀ c ∈ t.toList, isWordChar blank c = true

section Printing
variable {blank : Char → Bool}

/-- Texts side by side are the marks of all of them, with any separator between them. -/
theorem spells_intercalate {sep : List Char} {f : Sexp → List Char}
    (hsep : ∀ c ∈ sep, blank c = true) (hne : sep ≠ []) :
    ∀ {xs : List Sexp}, (∀ x ∈ xs, Spells blank x.marks (f x)) →
      Spells blank (marksAll xs) (sep.intercalate (xs.map f))
  | [], _ => .nil
  | [x], h => by
    have hx := h x List.mem_cons_self
    simpa [marksAll, List.intercalate] using hx
  | x :: y :: xs, h => by
    have hx := h x List.mem_cons_self
    have hrest := spells_intercalate hsep hne fun z hz => h z (List.mem_cons_of_mem x hz)
    have happ := hx.append (hrest.after hsep) (apart_blanks hsep hne)
    simpa [marksAll, List.intercalate] using happ

/-- Enclosed texts are the marks of a list of what they are the marks of. -/
theorem enclose_spells (hb : Separates blank) {width : Int} {f : Sexp → List Char} (spread : Bool)
    {xs : List Sexp} (h : ∀ x ∈ xs, Spells blank x.marks (f x)) :
    Spells blank (Sexp.list xs).marks (enclose width spread (xs.map f)) := by
  have hclose : Spells blank [.closing] [')'] := .closing .nil
  have hbracket : isWordChar blank ')' = false := by simp [isWordChar]
  have hspace : ∀ c ∈ [' '], blank c = true := by
    intro c hc
    rw [List.mem_singleton.1 hc]
    exact hb.space
  have hflat : Spells blank (Sexp.list xs).marks ('(' :: [' '].intercalate (xs.map f) ++ [')']) :=
    .opening ((spells_intercalate hspace (List.cons_ne_nil _ _) h).append hclose
      (apart_cons hbracket))
  cases spread with
  | false => simpa [enclose] using hflat
  | true =>
    cases xs with
    | nil => simpa [enclose] using hflat
    | cons x xs =>
      have hsep := separator_blank hb width
      have hfinal := finalBreak_blank hb width
      have hx := h x List.mem_cons_self
      have hrest : Spells blank (marksAll xs)
          ((separator width).intercalate (xs.map fun y => deepen width (f y))) :=
        spells_intercalate hsep (separator_ne_nil width) fun y hy =>
          (h y (List.mem_cons_of_mem x hy)).deepen hb width
      have hend : Apart blank (finalBreak width ++ [')']) := by
        refine Apart.append ?_ (apart_cons hbracket)
        cases hcs : finalBreak width with
        | nil => exact apart_nil
        | cons c cs =>
          rw [hcs] at hfinal
          exact apart_cons (not_isWordChar_of_blank (hfinal c List.mem_cons_self))
      have hbody := hx.append ((hrest.append (hclose.after hfinal) hend).after hsep)
        (apart_blanks hsep (separator_ne_nil width))
      have hall := Spells.opening hbody
      simpa [enclose, marks, marksAll, Function.comp_def] using hall

mutual

/-- **A printed tree is its marks**, at every width. -/
theorem layout_spells (hb : Separates blank) (width : Int) : ∀ s : Sexp, s.Plain blank →
    Spells blank s.marks (s.layout width)
  | .atom t, h => by
    obtain ⟨hne, ht⟩ := h t (List.mem_singleton.2 rfl)
    exact spells_word hne ht
  | .list items, h => by
    rw [layout, layouts_eq_map]
    exact enclose_spells hb _ (layouts_spells hb width items h)

/-- The layouts of several trees spell their marks. -/
theorem layouts_spells (hb : Separates blank) (width : Int) : ∀ xs : List Sexp,
    (∀ t ∈ atomsAll xs, t.toList ≠ [] ∧ ∀ c ∈ t.toList, isWordChar blank c = true) →
    ∀ x ∈ xs, Spells blank x.marks (x.layout width)
  | [], _, _, hx => by cases hx
  | x :: xs, h, y, hy => by
    rw [atomsAll] at h
    rcases List.mem_cons.1 hy with heq | hy
    · rw [heq]
      exact layout_spells hb width x fun t ht => h t (List.mem_append_left _ ht)
    · exact layouts_spells hb width xs (fun t ht => h t (List.mem_append_right _ ht)) y hy

end

/-- The printed text of a tree is read as that tree. -/
theorem read?_pretty (hb : Separates blank) {s : Sexp} (h : s.Plain blank) (width : Int) :
    read? blank (s.pretty width) = some s := by
  unfold read? pretty
  rw [String.toList_ofList, (layout_spells hb width s h).marksOf_eq hb, ← List.append_nil s.marks,
    assemble_marks, assemble]

/-- The printed texts of a tree differ in separators only. -/
theorem filter_pretty (hb : Separates blank) {s : Sexp} (h : s.Plain blank) (width : Int) :
    (s.pretty width).toList.filter (fun c => !blank c) = s.marks.flatMap Mark.chars := by
  unfold pretty
  rw [String.toList_ofList, (layout_spells hb width s h).filter_eq hb]

end Printing

/-! ## Widths -/

/-- Whether there is a text of a tree at a width: for a list there must be a run of so many blanks,
which can be counted and fits. -/
def Printable (room : Int) (s : Sexp) (width : Int) : Prop :=
  s.isList = true → Text.Countable width ∧ width ≤ room

/-- An atom is printed as it is, whatever the indent. -/
theorem prettyAt_atom (room : Int) (indent : Datum) (t : String) :
    (atom t).prettyAt room indent = .ok t :=
  rfl

/-- A list is printed at a width of which there is a run of blanks. -/
theorem prettyAt_list_of_ok {room width : Int} (h : Text.checkRun room width = .ok ())
    (items : List Sexp) :
    (list items).prettyAt room (.int width) = .ok ((list items).pretty width) := by
  rw [prettyAt, Datum.columns, Datum.count]
  simp only [bind, Except.bind, h]
  rfl

/-- At any other width it is refused, for the reason for which there is no such run. -/
theorem prettyAt_list_of_error {room width : Int} {f : Text.RunFault}
    (h : Text.checkRun room width = .error f) (items : List Sexp) :
    (list items).prettyAt room (.int width) = .error (.width f) := by
  rw [prettyAt, Datum.columns, Datum.count]
  simp only [bind, Except.bind, h]
  rfl

/-- A tree is printed exactly if there is a text of it. -/
theorem prettyAt_eq_ok_iff {room : Int} {s : Sexp} {width : Int} :
    s.prettyAt room (.int width) = .ok (s.pretty width) ↔ s.Printable room width := by
  cases s with
  | atom t =>
    refine ⟨fun _ hlist => ?_, fun _ => ?_⟩
    · cases hlist
    · unfold pretty
      rw [prettyAt_atom, layout, String.ofList_toList]
  | list items =>
    have hrun : Printable room (list items) width ↔ Text.checkRun room width = .ok () :=
      ⟨fun h => Text.checkRun_eq_ok_iff.2 (h rfl), fun h _ => Text.checkRun_eq_ok_iff.1 h⟩
    rw [hrun]
    cases hcheck : Text.checkRun room width with
    | ok _ => simp only [prettyAt_list_of_ok hcheck]
    | error f => simp only [prettyAt_list_of_error hcheck, reduceCtorEq]

/-- A tree is refused at a width exactly if it is a list and there is no run of so many blanks, and
for the reason for which there is none. -/
theorem prettyAt_eq_error_iff {room : Int} {s : Sexp} {width : Int} {f : Text.RunFault} :
    s.prettyAt room (.int width) = .error (.width f) ↔
      s.isList = true ∧ Text.checkRun room width = .error f := by
  cases s with
  | atom t => simp [prettyAt_atom, isList]
  | list items =>
    cases hcheck : Text.checkRun room width with
    | ok _ => simp [prettyAt_list_of_ok hcheck]
    | error g => simp [prettyAt_list_of_error hcheck, isList]

end Clausal.Sexp
