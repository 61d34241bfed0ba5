import Clausal.Text.Lines
import Clausal.Token

/-!
# Places and characters

The position of a character is found by counting through the characters before it. It belongs to
that character alone (`ofIndex_inj`), it comes after the positions of earlier characters
(`ofIndex_before`), and it says which line the character is on and what stands before it there
(`splitOn_drop_line`). So the characters under a span can be looked up in the lines of a text:
`Token.Shows` says that they are the text of a token.
-/

namespace Clausal

/-! ## Positions of characters -/

namespace Position

/-- The position of the character that has `i` characters before it. -/
def ofIndex (cs : List Char) (i : Nat) : Position :=
  ({} : Position).advance (cs.take i)

/-- On an earlier line, or on the same line in an earlier column. -/
def Before (p q : Position) : Prop :=
  p.line < q.line ∨ p.line = q.line ∧ p.col < q.col

/-- Positions are ordered one before the other. -/
theorem Before.trans {p q r : Position} (h : p.Before q) (h' : q.Before r) : p.Before r := by
  unfold Before at *
  omega

/-- A character leads further. -/
theorem before_step (p : Position) (c : Char) : p.Before (p.step c) := by
  unfold step Before
  split
  · exact .inl (Nat.lt_succ_self p.line)
  · exact .inr ⟨rfl, Nat.lt_succ_self p.col⟩

variable {cs : List Char} {i j : Nat}

/-- The position after a character is one step further. -/
theorem ofIndex_succ {c : Char} (h : cs[i]? = some c) :
    ofIndex cs (i + 1) = (ofIndex cs i).step c := by
  rw [ofIndex, List.take_add_one, h, advance_append]
  rfl

/-- Later characters stand at later positions. -/
theorem ofIndex_before (hij : i < j) (hj : j ≤ cs.length) :
    (ofIndex cs i).Before (ofIndex cs j) := by
  induction j with
  | zero => omega
  | succ j ih =>
    have hstep := before_step (ofIndex cs j) cs[j]
    rw [← ofIndex_succ (List.getElem?_eq_getElem hj)] at hstep
    rcases Nat.lt_succ_iff_lt_or_eq.1 hij with hlt | rfl
    · exact (ih hlt (Nat.le_of_lt hj)).trans hstep
    · exact hstep

/-- A position belongs to one character. -/
theorem ofIndex_inj (hi : i ≤ cs.length) (hj : j ≤ cs.length)
    (h : ofIndex cs i = ofIndex cs j) : i = j := by
  have hirrefl : ∀ p : Position, ¬ p.Before p := by
    intro p hp
    unfold Before at hp
    omega
  rcases Nat.lt_trichotomy i j with hlt | heq | hgt
  · exact absurd (h ▸ ofIndex_before hlt hj) (hirrefl _)
  · exact heq
  · exact absurd (h ▸ ofIndex_before hgt hi) (hirrefl _)

/-- The position after a text is that before it, moved over the text. -/
theorem ofIndex_add {text rest : List Char} (h : cs.drop i = text ++ rest) :
    ofIndex cs (i + text.length) = (ofIndex cs i).advance text := by
  rw [ofIndex, ofIndex, List.take_add, h, List.take_left, advance_append]

/-- Characters without a line feed move along one line. -/
theorem advance_of_not_mem {text : List Char} (h : '\n' ∉ text) (p : Position) :
    p.advance text = ⟨p.line, p.col + text.length⟩ := by
  induction text generalizing p with
  | nil => rfl
  | cons c text ih =>
    obtain ⟨hc, htext⟩ := not_or.1 (mt List.mem_cons.2 h)
    have hstep : p.step c = ⟨p.line, p.col + 1⟩ := if_neg (Ne.symm hc)
    rw [advance_cons, ih htext, hstep, List.length_cons, Nat.add_assoc, Nat.add_comm 1]

/-! ### Positions and lines -/

/-- A first character starts a new line or belongs to the first one. -/
theorem splitOn_cons {c : Char} {cs first : List Char} {rest : List (List Char)}
    (h : Text.splitOn '\n' cs = first :: rest) :
    Text.splitOn '\n' (c :: cs) =
      if c = '\n' then [] :: first :: rest else (c :: first) :: rest := by
  rw [Text.splitOn, h]

/-- The position of a character says which line it is on, and how many characters of that line
stand before it. -/
theorem splitOn_drop_line (hi : i ≤ cs.length) :
    ∃ head first rest, (ofIndex cs i).col = head.length + 1 ∧ 1 ≤ (ofIndex cs i).line ∧
      Text.splitOn '\n' (cs.drop i) = first :: rest ∧
      (Text.splitOn '\n' cs).drop ((ofIndex cs i).line - 1) = (head ++ first) :: rest := by
  induction i with
  | zero =>
    obtain ⟨first, rest, h⟩ := List.exists_cons_of_ne_nil (Text.splitOn_ne_nil '\n' cs)
    exact ⟨[], first, rest, rfl, Nat.le_refl 1, h, h⟩
  | succ i ih =>
    obtain ⟨head, first, rest, hcol, hline, hfirst, hdrop⟩ := ih (Nat.le_of_lt hi)
    obtain ⟨first', rest', h⟩ :=
      List.exists_cons_of_ne_nil (Text.splitOn_ne_nil '\n' (cs.drop (i + 1)))
    rw [List.drop_eq_getElem_cons hi, splitOn_cons h] at hfirst
    rw [ofIndex_succ (List.getElem?_eq_getElem hi), step]
    split at hfirst
    · next hc =>
      -- The character ends its line: the position is the first one of the next line.
      cases hfirst
      have hnext := congrArg List.tail hdrop
      rw [List.tail_drop, Nat.sub_add_cancel hline, List.tail_cons] at hnext
      rw [if_pos hc]
      exact ⟨[], first', rest', rfl, Nat.le_add_left 1 _, h, hnext⟩
    · next hc =>
      cases hfirst
      rw [if_neg hc]
      refine ⟨head ++ [cs[i]], first', rest, ?_, hline, h, ?_⟩
      · rw [hcol, List.length_append, List.length_singleton]
      · rw [hdrop, List.append_assoc, List.singleton_append]

/-- A text without line feeds is at the front of a line. -/
theorem splitOn_append {text cs first : List Char} {rest : List (List Char)} (htext : '\n' ∉ text)
    (h : Text.splitOn '\n' cs = first :: rest) :
    Text.splitOn '\n' (text ++ cs) = (text ++ first) :: rest := by
  induction text with
  | nil => exact h
  | cons c text ih =>
    obtain ⟨hc, htext⟩ := not_or.1 (mt List.mem_cons.2 htext)
    rw [List.cons_append, splitOn_cons (ih htext), if_neg (Ne.symm hc), List.cons_append]

end Position

/-! ## Spans and the characters under them -/

namespace Span

/-- The characters of a text in the columns of a span, on the line where it starts. Only a line
feed ends a line. -/
def excerpt (s : Span) (cs : List Char) : List Char :=
  let line := ((Text.splitOn '\n' cs)[(s.startLine - 1).toNat]?).getD []
  (line.drop (s.startCol - 1).toNat).take (s.endCol + 1 - s.startCol).toNat

/-- Spans of single characters at different positions differ. -/
theorem single_inj {file : String} {p q : Position} (h : single file p = single file q) :
    p = q := by
  obtain ⟨line, col⟩ := p
  obtain ⟨line', col'⟩ := q
  simp only [single, Span.mk.injEq] at h
  obtain rfl : line = line' := by omega
  obtain rfl : col = col' := by omega
  rfl

/-- The position is on the one line of the span, in one of its columns. -/
def Covers (s : Span) (p : Position) : Prop :=
  s.startLine = p.line ∧ s.endLine = p.line ∧ s.startCol ≤ p.col ∧ p.col ≤ s.endCol

/-- One span ends before the other one starts. -/
def Before (s t : Span) : Prop :=
  s.endLine < t.startLine ∨ s.endLine = t.startLine ∧ s.endCol < t.startCol

end Span

namespace Token

/-- The span of a token is on one line of a text; it has a column for each character of the token,
and these columns hold the text of the token. -/
structure Shows (cs : List Char) (t : Token) : Prop where
  oneLine : t.span.startLine = t.span.endLine
  startLine : 1 ≤ t.span.startLine
  startCol : 1 ≤ t.span.startCol
  nonempty : t.span.startCol ≤ t.span.endCol
  width : t.span.endCol + 1 - t.span.startCol = t.text.toList.length
  excerpt : t.span.excerpt cs = t.text.toList

end Token

end Clausal
