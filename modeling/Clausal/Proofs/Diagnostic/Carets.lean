import Clausal.Diagnostic.Render
import Clausal.Proofs.Text.Lines

/-!
# Where the carets stand

An excerpt and the carets below it are two rows of a rendered diagnostic
(`infix_splitOn_render`). Both start with a frame, and the frames are not equally long: that of the
excerpt holds the line number in at least four places, a blank and a bar, that of the carets three
blanks and a bar. So the carets stand to the left of the characters that they are about, by the
`overhang` of the longer frame, which is two characters for line numbers of up to four digits and
one more for each further digit.

`carets_shifted` says what stands above the carets: the columns of the span in the text that the
overhang and the source line make together. It is the source text in these columns only if each
character of it is the same as the one that stands as many columns before it as the overhang is
long.
-/

namespace Clausal

/-- The characters of a line in the columns of a span. -/
def Span.columns (s : Span) (line : List Char) : List Char :=
  (line.drop (s.startCol - 1).toNat).take (s.endCol - s.startCol + 1).toNat

namespace Render

variable {n : Int} {line row : List Char} {s : Severity} {span : Span}

/-- The characters of a row that stand above the carets of the row below it. -/
def underlined (row below : List Char) : List Char :=
  ((row.zip below).filter fun p => p.2 = '^').map (·.1)

/-- The end of the frame of an excerpt, as far as it is longer than the frame of the carets. -/
def overhang (n : Int) : List Char :=
  (numbered n ++ [' ']).drop (bar.length + 1)

/-! ## Rows of the text -/

/-- An excerpt has no line feed in it. -/
theorem not_mem_of_mem_ofSources {sources : Assoc (List Char)} {file : String}
    (h : line ∈ Excerpts.ofSources sources file) : '\n' ∉ line := by
  unfold Excerpts.ofSources at h
  split at h
  · intro hfeed
    cases Text.isBreak_of_mem_lines h hfeed
  · cases h

/-- A number is written on one line. -/
theorem not_mem_toString (n : Int) : '\n' ∉ (toString n).toList := by
  have hdigits : ∀ m : Nat, '\n' ∉ Nat.toDigits 10 m := by
    intro m hfeed
    cases Nat.isDigit_of_mem_toDigits (by decide) (by decide) hfeed
  rw [Int.toString_eq_repr, Int.repr_eq_if]
  split <;> simp [Nat.repr_eq_ofList_toDigits, hdigits]

/-- Nor has its row. -/
theorem not_mem_excerptRow (h : '\n' ∉ line) : '\n' ∉ excerptRow false n line := by
  have hdigits := not_mem_toString n
  unfold excerptRow numbered
  generalize (toString n).toList = digits at hdigits ⊢
  simp [framed, paint, List.leftpad, hdigits, h]

/-- Nor has the row of carets. -/
theorem not_mem_caretRow : '\n' ∉ caretRow false s span := by
  simp [caretRow, framed, paint, bar]

/-- The rows of a label are rows of its diagnostic, one after the other. -/
theorem labelRows_consecutive {x : Excerpts} {d : Diagnostic} {l : Label} (hl : l ∈ d.labels) :
    labelRows false x d.severity l <:+: rows false x d := by
  obtain ⟨before, after, hlabels⟩ := List.append_of_mem hl
  rw [rows, hlabels]
  refine ⟨headerRow false d :: before.flatMap (labelRows false x d.severity),
    after.flatMap (labelRows false x d.severity) ++ d.notes.map (noteRow false), ?_⟩
  simp

/-- The excerpt of a label and the carets below it are rows of the text. -/
theorem infix_splitOn_render {sources : Assoc (List Char)} {d : Diagnostic} {l : Label}
    (hl : l ∈ d.labels)
    (hline : (Excerpts.ofSources sources).line? l.span.file l.span.startLine = some line)
    (hone : l.span.startLine = l.span.endLine) :
    [excerptRow false l.span.startLine line, caretRow false d.severity l.span] <:+:
      Text.splitOn '\n' (d.render false (Excerpts.ofSources sources)).toList := by
  have hrows : excerptRows false (Excerpts.ofSources sources) d.severity l.span =
      [excerptRow false l.span.startLine line, caretRow false d.severity l.span] := by
    rw [excerptRows, hline]
    simp [hone]
  have hfeed : '\n' ∉ line := by
    unfold Excerpts.line? at hline
    split at hline
    · exact not_mem_of_mem_ofSources (List.mem_of_getElem? hline)
    · cases hline
  rw [Diagnostic.render, String.toList_ofList]
  refine Text.infix_splitOn_intercalate (by simp) ?_ ?_
  · refine List.IsInfix.trans ?_ (labelRows_consecutive hl)
    rw [← hrows, labelRows]
    exact List.infix_append _ _ _
  · simp only [List.forall_mem_cons, List.not_mem_nil, false_implies, implies_true, and_true]
    exact ⟨not_mem_excerptRow hfeed, not_mem_caretRow⟩

/-! ## What stands above the carets -/

/-- Carets after characters that are none. -/
theorem underlined_append (row : List Char) {before : List Char} (h : '^' ∉ before) (k : Nat) :
    underlined row (before ++ List.replicate k '^') = (row.drop before.length).take k := by
  induction before generalizing row with
  | nil =>
    induction k generalizing row with
    | zero => cases row <;> rfl
    | succ k ih =>
      cases row with
      | nil => rfl
      | cons c row => simpa [underlined, List.replicate_succ] using ih row
  | cons b before ih =>
    rw [List.mem_cons, not_or] at h
    cases row with
    | nil => simp [underlined]
    | cons c row => simpa [underlined, Ne.symm h.1] using ih row h.2

/-- A line number takes four columns or as many as it needs, and the bar after it two. -/
theorem length_numbered (n : Int) :
    (numbered n).length = max 4 (toString n).toList.length + 2 := by
  rw [numbered, List.length_append, List.length_leftpad]
  rfl

/-- A line number of more than four digits hangs over by the rest. -/
theorem length_overhang (n : Int) :
    (overhang n).length = max 4 (toString n).toList.length - 2 := by
  have hbar : bar.length = 4 := rfl
  rw [overhang, List.length_drop, List.length_append, length_numbered, List.length_singleton, hbar]
  omega

/-- After as many characters as the frame of the carets has, the row of an excerpt goes on with the
overhang and the line. -/
theorem drop_excerptRow (n : Int) (line : List Char) :
    (excerptRow false n line).drop (2 + (bar.length + 1)) = overhang n ++ line := by
  have hbar : bar.length + 1 ≤ (numbered n ++ [' ']).length := by
    rw [List.length_append, length_numbered, List.length_singleton]
    show 5 ≤ _
    omega
  have hrow : excerptRow false n line = [' ', ' '] ++ (numbered n ++ [' '] ++ line) := by
    simp [excerptRow, framed, paint]
  rw [hrow, ← List.drop_drop]
  exact List.drop_append_of_le_length hbar

/-- What stands above the carets of a span. -/
theorem underlined_caretRow (n : Int) (line : List Char) (horder : span.startCol ≤ span.endCol) :
    underlined (excerptRow false n line) (caretRow false s span) =
      span.columns (overhang n ++ line) := by
  have hrow : caretRow false s span =
      ([' ', ' '] ++ bar ++ [' '] ++ List.replicate (paddingLength span).toNat ' ') ++
        List.replicate (caretLength span).toNat '^' := by
    simp [caretRow, framed, paint]
  have hlength : ([' ', ' '] ++ bar ++ [' '] ++
      List.replicate (paddingLength span).toNat ' ').length =
        2 + (bar.length + 1) + (span.startCol - 1).toNat := by
    simp only [List.length_append, List.length_replicate, List.length_cons, List.length_nil,
      paddingLength]
    omega
  have hcarets : (caretLength span).toNat = (span.endCol - span.startCol + 1).toNat := by
    unfold caretLength
    omega
  rw [hrow, underlined_append _ (by simp [bar]), hlength, hcarets, ← List.drop_drop,
    drop_excerptRow, Span.columns]

/-- Two lines have the same characters in the columns of a span. -/
theorem columns_eq_iff {cs ds : List Char} (hstart : 1 ≤ span.startCol) :
    span.columns cs = span.columns ds ↔
      ∀ c : Nat, span.startCol ≤ c + 1 → c + 1 ≤ span.endCol → cs[c]? = ds[c]? := by
  have hget : ∀ (cs : List Char) (i : Nat), (span.columns cs)[i]? =
      if i < (span.endCol - span.startCol + 1).toNat then cs[(span.startCol - 1).toNat + i]?
      else none := by
    intro cs i
    rw [Span.columns, List.getElem?_take, List.getElem?_drop]
  constructor
  · intro h c hc hend
    have hat : (span.columns cs)[c - (span.startCol - 1).toNat]? =
        (span.columns ds)[c - (span.startCol - 1).toNat]? := by rw [h]
    rwa [hget, hget, if_pos (by omega), if_pos (by omega), Nat.add_sub_cancel' (by omega)] at hat
  · intro h
    apply List.ext_getElem?
    intro i
    rw [hget, hget]
    split
    · exact h _ (by omega) (by omega)
    · rfl

/-- **The carets stand to the left of the text they point at.** The excerpt and the carets of a
label are two rows of the text, one below the other, and above the carets are the columns of the
label in the overhang and the line. So they stand under the source text in these columns exactly if
each of its characters is the one that stands as far before it as the overhang is long. -/
theorem carets_shifted (sources : Assoc (List Char)) (d : Diagnostic) (l : Label)
    (text : List Char) (hl : l ∈ d.labels)
    (hline : (Excerpts.ofSources sources).line? l.span.file l.span.startLine = some text)
    (hone : l.span.startLine = l.span.endLine) (hstart : 1 ≤ l.span.startCol)
    (horder : l.span.startCol ≤ l.span.endCol) :
    [excerptRow false l.span.startLine text, caretRow false d.severity l.span] <:+:
        Text.splitOn '\n' (d.render false (Excerpts.ofSources sources)).toList ∧
      underlined (excerptRow false l.span.startLine text) (caretRow false d.severity l.span) =
        l.span.columns (overhang l.span.startLine ++ text) ∧
      (overhang l.span.startLine).length =
        max 4 (toString l.span.startLine).toList.length - 2 ∧
      (underlined (excerptRow false l.span.startLine text) (caretRow false d.severity l.span) =
          l.span.columns text ↔
        ∀ c : Nat, l.span.startCol ≤ c + 1 → c + 1 ≤ l.span.endCol →
          (overhang l.span.startLine ++ text)[c]? = text[c]?) := by
  refine ⟨infix_splitOn_render hl hline hone, underlined_caretRow _ text horder, length_overhang _,
    ?_⟩
  rw [underlined_caretRow _ text horder, columns_eq_iff hstart]

/-- A fraction where an integer is asked for, in columns 8 to 10 of the first line. -/
def fraction : Diagnostic :=
  .error "E300" "type mismatch: expected 'int', got 'float'" (some ⟨"prog", 1, 8, 1, 10⟩)

/-- The program that `fraction` is about. -/
def fractionSource : Assoc (List Char) :=
  [("prog", "main = 1.5\n".toList)]

/-- The carets stand two columns to the left of the fraction. -/
theorem carets_shifted_fraction :
    ⟨⟨"prog", 1, 8, 1, 10⟩, ""⟩ ∈ fraction.labels ∧
      (Excerpts.ofSources fractionSource).line? "prog" 1 = some "main = 1.5".toList ∧
      underlined (excerptRow false 1 "main = 1.5".toList)
        (caretRow false .error ⟨"prog", 1, 8, 1, 10⟩) = "= 1".toList :=
  ⟨List.mem_singleton.2 rfl, rfl, (carets_shifted fractionSource fraction
    ⟨⟨"prog", 1, 8, 1, 10⟩, ""⟩ "main = 1.5".toList (List.mem_singleton.2 rfl) rfl rfl (by decide)
    (by decide)).2.1⟩

/-- The text above the carets is not the text in the columns of the label. -/
theorem carets_miss_fraction :
    (Excerpts.ofSources fractionSource).line? "prog" 1 = some "main = 1.5".toList ∧
      [excerptRow false 1 "main = 1.5".toList, caretRow false .error ⟨"prog", 1, 8, 1, 10⟩] <:+:
        Text.splitOn '\n' (fraction.render false (Excerpts.ofSources fractionSource)).toList ∧
      Span.columns ⟨"prog", 1, 8, 1, 10⟩ "main = 1.5".toList = "1.5".toList ∧
      underlined (excerptRow false 1 "main = 1.5".toList)
        (caretRow false .error ⟨"prog", 1, 8, 1, 10⟩) ≠ "1.5".toList := by
  refine ⟨rfl, ?_, rfl, ?_⟩
  · exact infix_splitOn_render (l := ⟨⟨"prog", 1, 8, 1, 10⟩, ""⟩) (List.mem_singleton.2 rfl) rfl rfl
  · decide

end Render

end Clausal
