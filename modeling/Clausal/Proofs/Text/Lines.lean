import Clausal.Text.Lines

/-!
# Two ways to count lines

Places are counted by line feeds, and `splitOn '\n'` gives the lines that belong to them. An excerpt
is looked up in `lines`, which end at other characters too. Each line of the first kind is cut into
one or more pieces, and `lines` lists the pieces of all of them (`lines_append_lineFeed`). A line
that is one piece is `Unbroken`: it holds no such character, a carriage return right at its end
apart.

`getElem?_lines_eq_iff`: the `n`-th line of the second kind is the `n`-th line of the first kind
exactly if that line is unbroken and no broken line before it has moved another piece into its
place, or a piece with the same characters.
-/

namespace Clausal.Text

variable {sep : Char} {cs ds line : List Char} {c : Char}

/-! ## Cutting at a separator -/

/-- Splitting a text is that of the standard library. -/
theorem splitOn_eq (cs : List Char) : splitOn sep cs = cs.splitOn sep := by
  induction cs with
  | nil => rfl
  | cons c cs ih =>
    rw [List.splitOn_cons_eq_if_modifyHead, ← ih, splitOn]
    cases h : splitOn sep cs with
    | nil => exact absurd h (splitOn_ne_nil sep cs)
    | cons l ls => simp

/-- Pieces hold no separators. -/
theorem not_mem_of_mem_splitOn {cs l : List Char} (h : l ∈ splitOn sep cs) : sep ∉ l := by
  induction cs generalizing l with
  | nil =>
    rw [splitOn, List.mem_singleton] at h
    rw [h]
    exact List.not_mem_nil
  | cons c cs ih =>
    cases hls : splitOn sep cs with
    | nil => exact absurd hls (splitOn_ne_nil sep cs)
    | cons k ks =>
      rw [hls] at ih
      rw [splitOn, hls] at h
      dsimp only at h
      split at h
      · rcases List.mem_cons.1 h with rfl | h
        · exact List.not_mem_nil
        · exact ih h
      · next hc =>
        rcases List.mem_cons.1 h with rfl | h
        · rw [List.mem_cons, not_or]
          exact ⟨Ne.symm hc, ih List.mem_cons_self⟩
        · exact ih (List.mem_cons_of_mem _ h)

/-- Rows that are joined by a separator are found again, those that hold it in parts. -/
theorem splitOn_intercalate (sep : Char) {rows : List (List Char)} (h : rows ≠ []) :
    splitOn sep ([sep].intercalate rows) = rows.flatMap (splitOn sep) := by
  induction rows with
  | nil => exact absurd rfl h
  | cons row rows ih =>
    cases rows with
    | nil => rw [List.intercalate_singleton, List.flatMap_singleton]
    | cons row' rows =>
      rw [List.intercalate_cons_cons, List.append_assoc, List.singleton_append, splitOn_eq,
        List.splitOn_append_cons_self, ← splitOn_eq, ← splitOn_eq, ih (by simp)]
      rfl

/-- Rows without the separator that stand one after the other stay rows of the whole. -/
theorem infix_splitOn_intercalate {rows all : List (List Char)} (hne : rows ≠ [])
    (h : rows <:+: all) (hsep : ∀ row ∈ rows, sep ∉ row) :
    rows <:+: splitOn sep ([sep].intercalate all) := by
  obtain ⟨before, after, rfl⟩ := h
  have hall : before ++ rows ++ after ≠ [] := by simp [hne]
  have hrows : rows.flatMap (splitOn sep) = rows.flatMap fun row => [row] := by
    rw [List.flatMap_def, List.flatMap_def, List.map_congr_left]
    intro row hrow
    rw [splitOn_eq, List.splitOn_eq_singleton (hsep row hrow)]
  rw [splitOn_intercalate sep hall, List.flatMap_append, List.flatMap_append, hrows,
    List.flatMap_singleton']
  exact ⟨_, _, rfl⟩

/-! ## One character after the other -/

theorem lines_nil : lines [] = [] := rfl

/-- A pair of `\r` and `\n` is one break. -/
theorem lines_returnFeed (cs : List Char) : lines ('\r' :: '\n' :: cs) = [] :: lines cs := rfl

/-- A break ends a line, where it is not the first of two characters that are one break. -/
theorem lines_break (hc : isBreak c = true) (h : c = '\r' → cs.head? ≠ some '\n') :
    lines (c :: cs) = [] :: lines cs := by
  have hcut : linesWithBreaks (c :: cs) = [c] :: linesWithBreaks cs := by
    rw [linesWithBreaks.eq_def]
    split
    · next heq => cases heq
    · next heq =>
      cases heq
      exact absurd rfl (h rfl)
    · next heq =>
      cases heq
      exact if_pos hc
  rw [lines, hcut]
  simp [lines, hc]

/-- Any other character stands at the front of the line that follows. -/
theorem lines_cons (hc : isBreak c = false) (cs : List Char) :
    lines (c :: cs) = (c :: (lines cs).headD []) :: (lines cs).tail := by
  have hcut : linesWithBreaks (c :: cs) =
      (c :: (linesWithBreaks cs).headD []) :: (linesWithBreaks cs).tail := by
    rw [linesWithBreaks.eq_def]
    split
    · next heq => cases heq
    · next heq =>
      cases heq
      cases hc
    · next heq =>
      cases heq
      rw [if_neg (by simp [hc])]
      cases linesWithBreaks cs <;> rfl
  rw [lines, hcut]
  cases h : linesWithBreaks cs <;> simp [lines, h, hc]

/-- Only the empty text has no lines. -/
theorem lines_eq_nil_iff : lines cs = [] ↔ cs = [] := by
  cases cs with
  | nil => simp [lines_nil]
  | cons c cs =>
    cases hc : isBreak c with
    | false => simp [lines_cons hc]
    | true =>
      by_cases h : c = '\r' ∧ cs.head? = some '\n'
      · obtain ⟨rfl, hhead⟩ := h
        obtain ⟨rest, rfl⟩ := List.head?_eq_some_iff.1 hhead
        simp [lines_returnFeed]
      · simp [lines_break hc fun hr hn => h ⟨hr, hn⟩]

/-- Lines hold no breaks. -/
theorem isBreak_of_mem_lines (h : line ∈ lines cs) (hc : c ∈ line) : isBreak c = false := by
  obtain ⟨l, -, rfl⟩ := List.mem_map.1 h
  simpa using (List.mem_filter.1 hc).2

/-- Induction along the breaks of a text. -/
theorem lines_induction {motive : List Char → Prop} (nil : motive [])
    (returnFeed : ∀ cs, motive cs → motive ('\r' :: '\n' :: cs))
    (ends : ∀ c cs, isBreak c = true → (c = '\r' → cs.head? ≠ some '\n') → motive cs →
      motive (c :: cs))
    (continues : ∀ c cs, isBreak c = false → motive cs → motive (c :: cs)) (cs : List Char) :
    motive cs := by
  induction cs using linesWithBreaks.induct with
  | case1 => exact nil
  | case2 cs ih => exact returnFeed cs ih
  | case3 c cs hcut hc ih =>
    refine ends c cs hc (fun hr hn => ?_) ih
    obtain ⟨rest, rfl⟩ := List.head?_eq_some_iff.1 hn
    exact hcut rest hr rfl
  | case4 c cs hcut hc _ ih => exact continues c cs (by simpa using hc) ih
  | case5 c cs hcut hc _ _ _ ih => exact continues c cs (by simpa using hc) ih

/-! ## The pieces of a line -/

/-- A line without a carriage return at its end. -/
def withoutReturn (line : List Char) : List Char :=
  if line.getLast? = some '\r' then line.dropLast else line

/-- A line that holds no break, a carriage return at its end apart. -/
def Unbroken (line : List Char) : Prop :=
  ∀ c ∈ withoutReturn line, isBreak c = false

instance (line : List Char) : Decidable (Unbroken line) :=
  List.decidableBAll (fun c => isBreak c = false) (withoutReturn line)

/-- What a line that ends with a line feed is cut into. -/
def pieces (line : List Char) : List (List Char) :=
  lines (line ++ ['\n'])

/-- **The pieces of a line do not depend on what follows it.** -/
theorem lines_append_lineFeed (cs ds : List Char) :
    lines (cs ++ '\n' :: ds) = pieces cs ++ lines ds := by
  unfold pieces
  induction cs using lines_induction with
  | nil => rfl
  | returnFeed cs ih => simp only [List.cons_append, lines_returnFeed, ih]
  | ends c cs hc hnext ih =>
    cases cs with
    | nil =>
      by_cases hreturn : c = '\r'
      · subst hreturn
        rfl
      · have hlines : ∀ ds, lines (c :: ds) = [] :: lines ds :=
          fun ds => lines_break hc fun h => absurd h hreturn
        simp only [List.cons_append, hlines, ih]
    | cons d cs =>
      have hlines : ∀ ds, lines (c :: d :: cs ++ ds) = [] :: lines (d :: cs ++ ds) :=
        fun ds => lines_break hc hnext
      rw [hlines, hlines, ih]
      rfl
  | continues c cs hc ih =>
    obtain ⟨first, rest, h⟩ := List.exists_cons_of_ne_nil
      (mt lines_eq_nil_iff.1 (List.append_ne_nil_of_right_ne_nil cs (List.cons_ne_nil '\n' [])))
    simp only [List.cons_append, lines_cons hc, ih, h, List.headD_cons, List.tail_cons]

/-- Characters without a break stand at the front of the line that follows. -/
theorem lines_append {first : List Char} {rest : List (List Char)}
    (h : ∀ c ∈ cs, isBreak c = false) (hds : lines ds = first :: rest) :
    lines (cs ++ ds) = (cs ++ first) :: rest := by
  induction cs with
  | nil => exact hds
  | cons c cs ih =>
    obtain ⟨hc, hcs⟩ := List.forall_mem_cons.1 h
    rw [List.cons_append, lines_cons hc, ih hcs]
    rfl

/-- A line loses a `\r` at its end, and nothing else. -/
theorem withoutReturn_cases (line : List Char) :
    line = withoutReturn line ∨ line = withoutReturn line ++ ['\r'] := by
  unfold withoutReturn
  split
  · next h =>
    obtain ⟨front, rfl⟩ := List.getLast?_eq_some_iff.1 h
    exact .inr (by rw [List.dropLast_concat])
  · exact .inl rfl

/-- An unbroken line is one piece. -/
theorem pieces_of_unbroken (h : Unbroken line) : pieces line = [withoutReturn line] := by
  have hfeed : lines ['\n'] = [[]] := rfl
  have hreturn : lines ['\r', '\n'] = [[]] := rfl
  unfold pieces
  rcases withoutReturn_cases line with heq | heq
  · have hlines := lines_append h hfeed
    rw [List.append_nil, ← heq] at hlines
    rw [hlines, ← heq]
  · have hlines := lines_append h hreturn
    rw [List.append_nil] at hlines
    rwa [heq, List.append_assoc, ← heq]

/-- The first piece of a line is the line itself exactly if it is unbroken. -/
theorem head?_pieces_iff : (pieces line).head? = some (withoutReturn line) ↔ Unbroken line := by
  refine ⟨fun h c hc => ?_, fun h => by rw [pieces_of_unbroken h]; rfl⟩
  exact isBreak_of_mem_lines (List.mem_of_head? h) hc

/-- A line starts with the same piece whether a line feed or the end of the text follows. -/
theorem headD_lines (line : List Char) : (lines line).headD [] = (pieces line).headD [] := by
  unfold pieces
  induction line using lines_induction with
  | nil => rfl
  | returnFeed cs ih => rfl
  | ends c cs hc hnext ih =>
    rw [lines_break hc hnext]
    cases cs with
    | nil =>
      by_cases hreturn : c = '\r'
      · subst hreturn
        rfl
      · rw [List.singleton_append, lines_break hc fun h => absurd h hreturn]
        rfl
    | cons d cs =>
      have hlines : lines (c :: d :: cs ++ ['\n']) = [] :: lines (d :: cs ++ ['\n']) :=
        lines_break hc hnext
      rw [hlines]
      rfl
  | continues c cs hc ih =>
    rw [List.cons_append, lines_cons hc, lines_cons hc, ih]
    rfl

/-! ## Whole texts -/

/-- The lines of a text are the pieces of its lines, as far as these end with a line feed. -/
theorem lines_intercalate (earlier : List (List Char)) (line : List Char)
    (later : List (List Char)) :
    lines (['\n'].intercalate (earlier ++ line :: later)) =
      earlier.flatMap pieces ++ lines (['\n'].intercalate (line :: later)) := by
  induction earlier with
  | nil => rfl
  | cons l earlier ih =>
    rw [List.cons_append, List.intercalate_cons_of_ne_nil (by simp), List.append_assoc,
      List.singleton_append, lines_append_lineFeed, ih, List.flatMap_cons, List.append_assoc]

/-- Every line has a piece. -/
theorem length_le_pieces (earlier : List (List Char)) :
    earlier.length ≤ (earlier.flatMap pieces).length := by
  induction earlier with
  | nil => exact Nat.le_refl 0
  | cons l earlier ih =>
    have hne : pieces l ≠ [] := mt lines_eq_nil_iff.1 (by simp)
    have hpos := List.length_pos_iff.2 hne
    rw [List.flatMap_cons, List.length_append, List.length_cons]
    omega

/-- What follows the lines before it starts with the first piece of a line that is not empty. -/
theorem head?_lines_intercalate (hne : line ≠ []) (later : List (List Char)) :
    (lines (['\n'].intercalate (line :: later))).head? = (pieces line).head? := by
  have hpieces : pieces line ≠ [] := mt lines_eq_nil_iff.1 (by simp)
  cases later with
  | nil =>
    have hlines : lines line ≠ [] := mt lines_eq_nil_iff.1 hne
    rw [List.intercalate_singleton, List.head?_eq_some_head hlines, List.head?_eq_some_head hpieces]
    have hhead := headD_lines line
    rw [List.headD_eq_head?_getD, List.headD_eq_head?_getD, List.head?_eq_some_head hlines,
      List.head?_eq_some_head hpieces] at hhead
    exact congrArg some hhead
  | cons next later =>
    rw [List.intercalate_cons_cons, List.append_assoc, List.singleton_append, lines_append_lineFeed,
      List.head?_append, List.head?_eq_some_head hpieces, Option.some_or]

/-- **A line is shown as it is counted** exactly if it is unbroken and no other piece has taken its
place, or one with the same characters. -/
theorem getElem?_lines_eq_iff {n : Nat} (hline : (splitOn '\n' cs)[n]? = some line)
    (hne : line ≠ []) :
    (lines cs)[n]? = some (withoutReturn line) ↔ Unbroken line ∧
      ∀ shown ∈ (((splitOn '\n' cs).take n).flatMap pieces)[n]?, shown = withoutReturn line := by
  obtain ⟨hn, hget⟩ := List.getElem?_eq_some_iff.1 hline
  have hsplit : splitOn '\n' cs =
      (splitOn '\n' cs).take n ++ line :: (splitOn '\n' cs).drop (n + 1) := by
    rw [← hget, ← List.drop_eq_getElem_cons hn, List.take_append_drop]
  have hlines := lines_intercalate ((splitOn '\n' cs).take n) line ((splitOn '\n' cs).drop (n + 1))
  rw [← hsplit, intercalate_splitOn] at hlines
  have hhead := head?_lines_intercalate hne ((splitOn '\n' cs).drop (n + 1))
  have hlength := length_le_pieces ((splitOn '\n' cs).take n)
  rw [List.length_take_of_le (Nat.le_of_lt hn)] at hlength
  have hunbroken : (lines cs)[n]? = some (withoutReturn line) → Unbroken line :=
    fun h c hc => isBreak_of_mem_lines (List.mem_of_getElem? h) hc
  rw [hlines] at hunbroken ⊢
  generalize ((splitOn '\n' cs).take n).flatMap pieces = before at hlength hunbroken ⊢
  cases hbefore : before[n]? with
  | none =>
    -- No line before this one is broken, so its first piece stands in its place.
    have hle := List.getElem?_eq_none_iff.1 hbefore
    rw [List.getElem?_append_right hle, Nat.sub_eq_zero_of_le hlength, ← List.head?_eq_getElem?,
      hhead, head?_pieces_iff]
    simp
  | some shown =>
    have hlt := (List.getElem?_eq_some_iff.1 hbefore).1
    rw [List.getElem?_append_left hlt, hbefore] at hunbroken ⊢
    refine ⟨fun h => ⟨hunbroken h, ?_⟩, fun h => congrArg some (h.2 shown rfl)⟩
    rintro shown' ⟨⟩
    exact Option.some.inj h

/-- Where no line up to it is broken, a line is shown as it is counted. -/
theorem getElem?_lines_of_unbroken {n : Nat} (hline : (splitOn '\n' cs)[n]? = some line)
    (hne : line ≠ []) (h : ∀ l ∈ (splitOn '\n' cs).take (n + 1), Unbroken l) :
    (lines cs)[n]? = some (withoutReturn line) := by
  rw [List.take_add_one, hline, Option.toList_some] at h
  refine (getElem?_lines_eq_iff hline hne).2 ⟨h line (by simp), fun shown hshown => ?_⟩
  have hpieces : ((splitOn '\n' cs).take n).flatMap pieces =
      ((splitOn '\n' cs).take n).map withoutReturn := by
    rw [List.flatMap_def, List.map_congr_left fun l hl =>
      pieces_of_unbroken (h l (List.mem_append_left _ hl)), ← List.flatMap_def,
      List.map_eq_flatMap]
  have hlength : (((splitOn '\n' cs).take n).map withoutReturn).length ≤ n := by
    rw [List.length_map]
    exact List.length_take_le n _
  rw [hpieces, List.getElem?_eq_none hlength] at hshown
  cases hshown

end Clausal.Text
