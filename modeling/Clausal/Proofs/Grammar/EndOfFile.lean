import Clausal.Proofs.Grammar.Accounts

/-!
# Reading stops at the end of the file

Tokens may hold an end of the file anywhere, with more tokens behind it. Reading stops at the first
one (`ofTokens_stops_at_eof`). It takes the tokens before it, one by one and in order, and never an
end of the file, wherever a line has a fault; it comes to the same outcome if the tokens are cut off
there; and it never runs out of tokens, so that it ends with a program or with diagnostics, unless
it has taken an integer with too many digits.

That the outcome is the same follows line by line: a line is read from its own tokens
(`line_parallel`), and so is a last line that goes up to the end of the file. What is taken is read
off the account of a reading (`run_accounts`).
-/

namespace Clausal

namespace Grammar

open Token

/-! ## Tokens behind the end of the file -/

section Cut

variable {eof : Token} {used rest rest' tail tail' after body : List Token}
  {segs : List (List Token)}

/-- A line in front of tokens that it does not look at. -/
theorem lines_congr (hne : used ≠ []) (hused : ∀ t ∈ used, endsLine t.kind = false)
    (hparallel : Parallel Eq tail tail' (used ++ rest) (used ++ rest'))
    (htail : ∀ l, line (used ++ rest) = .ok l → lines tail = lines tail')
    (hskip : lines (skipLine (used ++ rest)) = lines (skipLine (used ++ rest'))) :
    lines (used ++ rest) = lines (used ++ rest') := by
  have hboth := line_parallel carries_eq hparallel
  cases hline : line (used ++ rest) with
  | ok l =>
    obtain ⟨l', hline', hvalue, hrest, hrest'⟩ := hboth.of_ok hline
    rw [lines_of_ok hne hused hline, lines_of_ok hne hused hline', hrest, hrest',
      htail l hline, hvalue, Line.moved_id]
  | error e =>
    obtain ⟨e', hline', hsame⟩ := hboth.of_error hline
    rw [hsame.eq] at hline'
    cases e with
    | fault f => rw [lines_of_fault hne hused hline, lines_of_fault hne hused hline', hskip]
    | abort a => rw [lines_of_abort hne hused hline, lines_of_abort hne hused hline']

/-- **What is behind the end of the file** makes no difference. -/
theorem Segmented.lines_cut (h : Segmented body segs) (heof : eof.kind = .eof)
    (hbody : ∀ t ∈ body, t.kind ≠ .eof) :
    lines (body ++ eof :: after) = lines (body ++ [eof]) := by
  have hends : endsLine eof.kind = true := by rw [heof]; rfl
  induction h with
  | nil => rw [List.nil_append, List.nil_append, lines_eof heof, lines_eof heof]
  | @last seg hne hseg =>
    have hused : ∀ t ∈ seg, endsLine t.kind = false := fun t ht =>
      endsLine_eq_false_iff.2 ⟨hseg t ht, hbody t ht⟩
    refine lines_congr hne hused (parallel_append hused hends)
      (fun l hl => absurd hl (line_eof_ne_ok hused heof l)) ?_
    rw [skipLine_append hused hends, skipLine_append hused hends, if_pos heof, if_pos heof,
      lines_eof heof, lines_eof heof]
  | @line seg ts segs stop hseg hstop hsegments ih =>
    obtain ⟨hbefore, hts⟩ := List.forall_mem_append.1 hbody
    have hrest := ih (List.forall_mem_cons.1 hts).2
    have hused : ∀ t ∈ seg, endsLine t.kind = false := fun t ht =>
      endsLine_eq_false_iff.2 ⟨hseg t ht, hbefore t ht⟩
    have hstops : endsLine stop.kind = true := by rw [hstop]; rfl
    have hne : stop.kind ≠ .eof := by rw [hstop]; decide
    rw [List.append_assoc, List.append_assoc, List.cons_append, List.cons_append]
    by_cases hnil : seg = []
    · rw [hnil, List.nil_append, List.nil_append, lines_newline hstop, lines_newline hstop, hrest]
    · refine lines_congr hnil hused (parallel_append hused hstops) (fun _ _ => hrest) ?_
      rw [skipLine_append hused hstops, skipLine_append hused hstops, if_neg hne, if_neg hne, hrest]

/-- The tokens up to the first end of the file, which is the last of them. -/
def upToEof : List Token → List Token
  | [] => []
  | t :: ts => if t.kind = .eof then [t] else t :: upToEof ts

/-- The tokens up to the first end of the file are cut off there. -/
theorem exists_upToEof {ts : List Token} (h : ∃ t ∈ ts, t.kind = .eof) :
    ∃ before eof after, ts = before ++ eof :: after ∧ upToEof ts = before ++ [eof] ∧
      eof.kind = .eof ∧ ∀ t ∈ before, t.kind ≠ .eof := by
  induction ts with
  | nil =>
    obtain ⟨t, ht, -⟩ := h
    cases ht
  | cons t ts ih =>
    by_cases heof : t.kind = .eof
    · exact ⟨[], t, ts, rfl, if_pos heof, heof, List.forall_mem_nil _⟩
    · obtain ⟨u, hu, hkind⟩ := h
      have hmem : u ∈ ts := by
        rcases List.mem_cons.1 hu with rfl | hu
        · exact absurd hkind heof
        · exact hu
      obtain ⟨before, eof, after, rfl, hcut, hlast, hbefore⟩ := ih ⟨u, hmem, hkind⟩
      refine ⟨t :: before, eof, after, rfl, ?_, hlast, List.forall_mem_cons.2 ⟨heof, hbefore⟩⟩
      rw [upToEof, if_neg heof, hcut, List.cons_append]

end Cut

/-! ## Tokens that cannot be converted -/

/-- A numeral is a whole number. -/
theorem integer_ne_malformed {cs : List Char} (h : isNumeral cs = true) :
    Text.integer cs ≠ .error .malformed := by
  unfold isNumeral at h
  split at h
  · obtain ⟨hne, hdigits⟩ := isDigits_iff.1 h
    rw [Text.integer_minus_digits hne hdigits]
    split <;> rintro ⟨⟩
  · obtain ⟨hne, hdigits⟩ := isDigits_iff.1 h
    rw [Text.integer_digits hne hdigits]
    split <;> rintro ⟨⟩

/-- Why a token cannot be converted, and what reading gives up with. -/
theorem Unreadable.causes {t : Token} {a : Abort} (h : Unreadable t a) :
    (t.kind = .integer ∧
      ((∃ digits, Text.integer t.text.toList = .error (.tooLong digits) ∧ a = .tooLong digits) ∨
        Text.integer t.text.toList = .error .malformed ∧ a = .notANumber t.text)) ∨
    t.kind = .typeName ∧ Ty.ofName? t.text = none ∧ a = .unknownType t.text := by
  rcases h with h | h
  · unfold literal at h
    split at h
    · next hkind =>
      split at h
      · split at h <;> cases h
      · next digits hinteger =>
        cases h
        exact .inl ⟨hkind, .inl ⟨digits, hinteger, rfl⟩⟩
      · next hinteger =>
        cases h
        exact .inl ⟨hkind, .inr ⟨hinteger, rfl⟩⟩
    · cases h
    · cases h
  · unfold typeNamed at h
    split at h
    · next hkind =>
      split at h
      · cases h
      · next hname =>
        cases h
        exact .inr ⟨hkind, hname, rfl⟩
    · cases h

/-- A token that cannot be converted is not the end of the tokens. -/
theorem Unreadable.ne_cutOff {t : Token} {a : Abort} (h : Unreadable t a) : a ≠ .cutOff := by
  rintro rfl
  rcases h.causes with ⟨-, ⟨_, -, ha⟩ | ⟨-, ha⟩⟩ | ⟨-, -, ha⟩ <;> cases ha

/-- A token with the text of its kind can be converted, unless it is an integer with too many
digits. -/
theorem Unreadable.tooLong {t : Token} {a : Abort} (h : Unreadable t a) (ht : t.Regular) :
    ¬ t.Short ∧ ∃ digits, a = .tooLong digits := by
  rcases h.causes with ⟨hkind, ⟨digits, hinteger, rfl⟩ | ⟨hinteger, -⟩⟩ | ⟨hkind, hname, -⟩
  · refine ⟨fun hshort => ?_, digits, rfl⟩
    rw [integer_of_isNumeral (ht.1 hkind) (hshort hkind)] at hinteger
    cases hinteger
  · exact absurd hinteger (integer_ne_malformed (ht.1 hkind))
  · obtain ⟨ty, hty⟩ := ht.typeName hkind
    rw [hty, Ty.ofName?_name] at hname
    cases hname

/-! ## The account up to the end of the file -/

/-- Tokens without an end of the file, at the front of others, come before the first one. -/
theorem exists_of_append_eof {taken left before after : List Token} {eof : Token}
    (heof : eof.kind = .eof) (htaken : ∀ t ∈ taken, t.kind ≠ .eof)
    (h : before ++ eof :: after = taken ++ left) :
    ∃ more, before = taken ++ more ∧ left = more ++ eof :: after := by
  rcases List.append_eq_append_iff.1 h with ⟨more, htaken', hleft⟩ | ⟨more, hbefore, hleft⟩
  · cases more with
    | nil => exact ⟨[], by simpa using htaken'.symm, hleft.symm⟩
    | cons t more =>
      obtain ⟨rfl, -⟩ := List.cons.inj hleft
      exact absurd heof (htaken eof (by rw [htaken']; simp))
  · exact ⟨more, hbefore, hleft⟩

end Grammar

namespace Program

open Grammar Token

/-- What comes of tokens with an end of the file among them. -/
structure StopsAtEof (file : String) (ts : List Token) : Prop where
  /-- The tokens behind the first end of the file make no difference. -/
  cut : ofTokens file ts = ofTokens file (upToEof ts)
  /-- The account of the tokens that are taken is one of this reading. -/
  account : (Run.ofTokens ts).result = Grammar.lines ts
  /-- No end of the file is taken, -/
  taken : ∀ t ∈ (Run.ofTokens ts).taken, t.kind ≠ .eof
  /-- and nothing behind the first one. -/
  before : ∃ left ≠ [], upToEof ts = (Run.ofTokens ts).taken ++ left
  /-- Reading does not run out of tokens. -/
  complete : ofTokens file ts ≠ .error (.aborted .cutOff)
  /-- Tokens with the texts of their kinds are all taken, up to the end of the file, and make up a
  program or are reported; or reading gives up at an integer with too many digits. -/
  ends : (∀ t ∈ ts, t.Regular) →
    ((∃ eof, upToEof ts = (Run.ofTokens ts).taken ++ [eof]) ∧
      ((∃ p, ofTokens file ts = .ok p) ∨ ∃ ds, ofTokens file ts = .error (.batch ds) ∧ ds ≠ [] ∧
        ∀ d ∈ ds, d.code = "E200")) ∨
    ∃ t ∈ (Run.ofTokens ts).taken, ¬ t.Short ∧
      ∃ digits, ofTokens file ts = .error (.aborted (.tooLong digits))

/-- A reading is a program, or one or more diagnostics about lines. -/
theorem reading_program (file : String) (r : Reading) :
    (∃ p, r.program file = .ok p) ∨ ∃ ds, r.program file = .error (.batch ds) ∧ ds ≠ [] ∧
      ∀ d ∈ ds, d.code = "E200" := by
  rw [Reading.program]
  split
  · exact .inl ⟨_, rfl⟩
  · next hfaults =>
    refine .inr ⟨_, rfl, by simpa using hfaults, fun d hd => ?_⟩
    obtain ⟨f, -, rfl⟩ := List.mem_map.1 hd
    rfl

/-- Reading gives up just as the lines do. -/
theorem ofTokens_eq_aborted_iff {file : String} {ts : List Token} {a : Abort} :
    ofTokens file ts = .error (.aborted a) ↔ Grammar.lines ts = .error a := by
  rw [ofTokens]
  cases Grammar.lines ts with
  | ok r =>
    dsimp only
    split <;> refine ⟨fun h => ?_, fun h => ?_⟩ <;> cases h
  | error b =>
    refine ⟨fun h => ?_, fun h => ?_⟩ <;> cases h <;> rfl

/-- **Reading stops at the first end of the file**, wherever it stands and whatever is behind it. -/
theorem ofTokens_stops_at_eof (file : String) (ts : List Token) (h : ∃ t ∈ ts, t.kind = .eof) :
    StopsAtEof file ts := by
  obtain ⟨before, eof, after, rfl, hcut, heof, hbefore⟩ := exists_upToEof h
  have hlines : Grammar.lines (before ++ eof :: after) = Grammar.lines (before ++ [eof]) :=
    (segments_spec before).lines_cut heof hbefore
  have hrun := run_accounts (before ++ eof :: after)
  obtain ⟨left, hsplit, hok, hstop⟩ := hrun.left
  obtain ⟨more, hmore, rfl⟩ := exists_of_append_eof heof hrun.kinds hsplit
  refine ⟨?_, hrun.result, hrun.kinds, ⟨more ++ [eof], by simp, ?_⟩, fun hcutOff => ?_,
    fun hregular => ?_⟩
  · rw [ofTokens, ofTokens, hcut, hlines]
  · rw [hcut, ← List.append_assoc, ← hmore]
  · rcases hstop .cutOff (ofTokens_eq_aborted_iff.1 hcutOff) with ⟨-, hnil⟩ | ⟨t, -, hread⟩
    · simp at hnil
    · exact hread.ne_cutOff rfl
  · cases hresult : Grammar.lines (before ++ eof :: after) with
    | ok r =>
      -- What is left starts with an end of the file, and so with the first one.
      obtain ⟨stop, rest, hleft, hkind⟩ := hok r hresult
      have hnil : more = [] := by
        cases more with
        | nil => rfl
        | cons t more =>
          obtain ⟨rfl, -⟩ := List.cons.inj hleft
          exact absurd hkind (hbefore t (by rw [hmore]; simp))
      rw [hnil, List.append_nil] at hmore
      rw [ofTokens_of_lines file hresult]
      exact .inl ⟨⟨eof, by rw [hcut, ← hmore]⟩, reading_program file r⟩
    | error a =>
      rcases hstop a hresult with ⟨-, hnil⟩ | ⟨t, ht, hread⟩
      · simp at hnil
      · have hmem : t ∈ before ++ eof :: after := hsplit ▸ List.mem_append_left _ ht
        obtain ⟨hlong, digits, rfl⟩ := hread.tooLong (hregular t hmem)
        exact .inr ⟨t, ht, hlong, digits, ofTokens_eq_aborted_iff.2 hresult⟩

/-- The line `x = 1`, and the line `y = (2)` with an end of the file before the parenthesis
closes. -/
def interrupted : List Token :=
  let word (kind : Kind) (text : String) : Token := ⟨kind, text, .nowhere⟩
  [word .identifier "x", word .assign "=", word .integer "1", word .newline "\n",
    word .identifier "y", word .assign "=", word .lparen "(", word .integer "2", word .eof "",
    word .rparen ")", word .newline "\n", word .eof ""]

/-- The tokens behind the first end of the file are not looked at. -/
theorem ofTokens_stops_at_eof_interrupted :
    (∃ t ∈ interrupted, t.kind = .eof) ∧ (∀ t ∈ interrupted, t.Regular) ∧
    StopsAtEof "interrupted" interrupted ∧
    (Run.ofTokens interrupted).taken = interrupted.take 8 ∧
    (reported (ofTokens "interrupted" interrupted)).map (·.message) =
      ["expected ')', got end of file"] := by
  have heof : ∃ t ∈ interrupted, t.kind = .eof := by decide
  have hstops := ofTokens_stops_at_eof "interrupted" interrupted heof
  refine ⟨heof, by decide, hstops, by decide +kernel, ?_⟩
  rw [hstops.cut]
  decide +kernel

end Program

end Clausal
