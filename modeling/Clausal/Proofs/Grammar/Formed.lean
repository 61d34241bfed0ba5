import Clausal.Proofs.Grammar.Printing

/-!
# What gets through the scanner and the readers

The scanner takes any text, but its tokens are never arbitrary: each has a text that its kind allows
(`Formed`), and the last one is the only end of the file (`scan_formed`). So the names and literals
of a program that is read from a text are ones that can be written (`parse_writable`), and reading
never has to give up before the end of the text, unless an integer is too long to convert
(`parse_reports`).
-/

namespace Clausal

open Token

namespace Token

/-! ## Tokens -/

/-- The text of a token is one that a token of its kind has in a text, names and fractions
included. -/
structure Formed (t : Token) : Prop where
  regular : t.Regular
  name : t.kind = .identifier → IsName t.text
  fraction : t.kind = .float → IsFraction t.text

/-- Only literals, types and names have a form. -/
theorem formed_of_kind {t : Token}
    (h : t.kind ∉ [.integer, .typeName, .boolean, .identifier, .float]) : t.Formed := by
  simp only [List.mem_cons, List.not_mem_nil, or_false, not_or] at h
  obtain ⟨hint, htype, hbool, hname, hfloat⟩ := h
  refine ⟨(regular_short_of_kind ?_).1, fun hk => absurd hk hname, fun hk => absurd hk hfloat⟩
  simp [hint, htype, hbool]

/-- The digits at the front of a text that starts with one are digits. -/
theorem isDigits_takeWhile {cs : List Char} (h : startsWithDigit cs = true) :
    isDigits (cs.takeWhile Char.isDigit) = true := by
  cases cs with
  | nil => cases h
  | cons c cs =>
    have hc : c.isDigit = true := h
    refine isDigits_iff.2 ⟨by simp [hc], fun d hd => ?_⟩
    exact List.all_eq_true.1 List.all_takeWhile d hd

/-- A number is made of digits, or of digits with a fraction. -/
theorem readNumber_forms {cs : List Char} (h : startsWithDigit cs = true) :
    ((readNumber cs).1 = .integer ∧ isDigits (readNumber cs).2.1 = true) ∨
      ((readNumber cs).1 = .float ∧ ∃ whole fraction, isDigits whole = true ∧
        isDigits fraction = true ∧ (readNumber cs).2.1 = whole ++ '.' :: fraction) := by
  have hwhole := isDigits_takeWhile h
  unfold readNumber
  split
  · next d rest _ =>
    split
    · next hd =>
      refine .inr ⟨rfl, _, d :: rest.takeWhile Char.isDigit, hwhole, ?_, rfl⟩
      have hfraction : isDigits ((d :: rest).takeWhile Char.isDigit) = true :=
        isDigits_takeWhile hd
      rwa [List.takeWhile_cons_of_pos hd] at hfraction
    · exact .inl ⟨rfl, hwhole⟩
  · exact .inl ⟨rfl, hwhole⟩

/-- A number is a token of its form, and so it is after a minus sign. -/
theorem formed_number {cs text : List Char} {span : Span} (h : startsWithDigit cs = true)
    (htext : text = (readNumber cs).2.1 ∨ text = '-' :: (readNumber cs).2.1) :
    Formed ⟨(readNumber cs).1, String.ofList text, span⟩ := by
  rcases readNumber_forms h with ⟨hkind, hdigits⟩ | ⟨hkind, whole, fraction, hw, hf, hnumber⟩
  · have hnumeral : isNumeral text = true := by
      rcases htext with rfl | rfl
      · unfold isNumeral
        split
        · next cs' heq =>
          rw [heq] at hdigits
          cases (isDigits_iff.1 hdigits).2 '-' List.mem_cons_self
        · exact hdigits
      · exact hdigits
    rw [hkind]
    refine ⟨⟨fun _ => ?_, nofun, nofun⟩, nofun, nofun⟩
    rwa [String.toList_ofList]
  · rw [hkind]
    refine ⟨⟨nofun, nofun, nofun⟩, nofun, fun _ => ⟨whole, fraction, hw, hf, ?_⟩⟩
    rw [String.toList_ofList, ← hnumber]
    exact htext

/-- A word is a keyword or a name. -/
theorem formed_word {c : Char} {cs : List Char} {span : Span} (hc : isNameStart c = true)
    (hcs : cs.all isNameChar = true) :
    Formed ⟨Kind.ofWord (String.ofList (c :: cs)), String.ofList (c :: cs), span⟩ := by
  have hname : (∃ c' cs', (String.ofList (c :: cs)).toList = c' :: cs' ∧
      (c'.isLower || c' = '_') = true ∧ (cs'.all fun d => d.isAlphanum || d = '_') = true) :=
    ⟨c, cs, String.toList_ofList, hc, hcs⟩
  generalize String.ofList (c :: cs) = word at hname
  unfold Kind.ofWord
  split
  · exact ⟨⟨nofun, nofun, fun _ => by simp⟩, nofun, nofun⟩
  · exact ⟨⟨nofun, nofun, fun _ => by simp⟩, nofun, nofun⟩
  · exact ⟨⟨nofun, fun _ => by simp, nofun⟩, nofun, nofun⟩
  · exact ⟨⟨nofun, fun _ => by simp, nofun⟩, nofun, nofun⟩
  · exact ⟨⟨nofun, fun _ => by simp, nofun⟩, nofun, nofun⟩
  · exact ⟨⟨nofun, nofun, nofun⟩, fun _ => ⟨hname, by simp_all⟩, nofun⟩

/-- A symbol is no literal, no name, no type and not the end of the file. -/
theorem readSymbol?_kind {cs text rest : List Char} {k : Kind}
    (h : readSymbol? cs = some (k, text, rest)) :
    k ∉ [.integer, .typeName, .boolean, .identifier, .float] ∧ k ≠ .eof := by
  unfold readSymbol? at h
  split at h <;> cases h <;> decide

/-- A lexeme that is a token is one of its form, and not the end of the file. -/
theorem readLexeme_formed {signed : Bool} {c : Char} {cs : List Char} {k : Kind}
    (h : (readLexeme signed c cs).1 = .token k) (span : Span) :
    Formed ⟨k, String.ofList (readLexeme signed c cs).2.1, span⟩ ∧ k ≠ .eof := by
  have hnumber : ∀ {cs}, startsWithDigit cs = true → (readNumber cs).1 ≠ .eof := by
    intro cs hstart heof
    rcases readNumber_forms hstart with ⟨hkind, -⟩ | ⟨hkind, -⟩ <;> cases heof.symm.trans hkind
  revert h
  unfold readLexeme
  split
  · exact fun h => nomatch h
  split
  · exact fun h => nomatch h
  split
  · exact fun h => nomatch h
  split
  · exact fun h => nomatch h
  split
  · next hdigit =>
    intro h
    cases h
    have hstart : startsWithDigit (c :: cs) = true := hdigit
    exact ⟨formed_number hstart (.inl rfl), hnumber hstart⟩
  split
  · next hminus =>
    intro h
    cases h
    exact ⟨formed_number hminus.2.1 (.inr rfl), hnumber hminus.2.1⟩
  split
  · next hstart =>
    intro h
    cases h
    refine ⟨formed_word hstart List.all_takeWhile, ?_⟩
    unfold Kind.ofWord
    split <;> decide
  split
  · next hsymbol =>
    intro h
    cases h
    obtain ⟨hkind, heof⟩ := readSymbol?_kind hsymbol
    exact ⟨formed_of_kind hkind, heof⟩
  · exact fun h => nomatch h

/-! ## Whole texts -/

/-- A token that is not the end of the file can stand in front. -/
theorem EndInEof.cons {t : Token} {ts : List Token} (h : EndInEof ts) (ht : t.kind ≠ .eof) :
    EndInEof (t :: ts) := by
  obtain ⟨body, eof, rfl, heof, hbody⟩ := h
  exact ⟨t :: body, eof, rfl, heof, List.forall_mem_cons.2 ⟨ht, hbody⟩⟩

/-- The tokens at the end of a text have the form of their kinds and end the file. -/
theorem endTokens_formed (file : String) (cur : Cursor) :
    (∀ t ∈ endTokens file cur, t.Formed) ∧ EndInEof (endTokens file cur) := by
  have heof : ∀ span, Formed ⟨.eof, "", span⟩ := fun span => formed_of_kind (by simp)
  have hend : ∀ span, EndInEof [⟨.eof, "", span⟩] := fun span => ⟨[], _, rfl, rfl, nofun⟩
  unfold endTokens
  split
  · exact ⟨List.forall_mem_singleton.2 (heof _), hend _⟩
  · split
    · exact ⟨List.forall_mem_singleton.2 (heof _), hend _⟩
    · refine ⟨List.forall_mem_cons.2 ⟨formed_of_kind (by simp), ?_⟩, (hend _).cons (by simp)⟩
      exact List.forall_mem_singleton.2 (heof _)

/-- The tokens of a text have the form of their kinds and end the file. -/
theorem scanFrom_formed (file : String) (cur : Cursor) (cs : List Char) :
    (∀ t ∈ (scanFrom file cur cs).tokens, t.Formed) ∧ EndInEof (scanFrom file cur cs).tokens := by
  fun_induction scanFrom file cur cs with
  | case1 cur => exact endTokens_formed file cur
  | case2 _ _ _ _ _ _ _ ih | case3 _ _ _ _ _ _ _ ih | case5 _ _ _ _ _ _ _ _ ih
  | case6 _ _ _ _ _ _ _ ih | case7 _ _ _ _ _ _ _ ih => exact ih
  | case4 cur c cs lexeme text next span _ _ ih =>
    exact ⟨List.forall_mem_cons.2 ⟨formed_of_kind (by simp), ih.1⟩, ih.2.cons (by simp)⟩
  | case8 cur c cs lexeme text next span k hk ih =>
    obtain ⟨hformed, heof⟩ := readLexeme_formed hk span
    exact ⟨List.forall_mem_cons.2 ⟨hformed, ih.1⟩, ih.2.cons heof⟩

/-- **The tokens of any text** have the form of their kind, and the last of them is the only end of
the file. -/
theorem scan_formed (text file : String) :
    (∀ t ∈ (scan text file).tokens, t.Formed) ∧ EndInEof (scan text file).tokens :=
  scanFrom_formed file {} text.toList

end Token

namespace Grammar

/-! ## Readers -/

/-- Tokens as the scanner makes them. -/
def AllFormed (ts : List Token) : Prop :=
  ∀ t ∈ ts, t.Formed

variable {t : Token} {ts : List Token}

/-- The first token has the form of its kind. -/
theorem AllFormed.head (h : AllFormed (t :: ts)) : t.Formed :=
  h t List.mem_cons_self

/-- So have the others. -/
theorem AllFormed.tail (h : AllFormed (t :: ts)) : AllFormed ts :=
  fun t' ht' => h t' (List.mem_cons_of_mem _ ht')

/-- A literal from a formed token can be written. -/
theorem literal_writable (ht : t.Formed) : Gives (literal t) Literal.Writable fun _ => True := by
  unfold literal
  split
  · split
    · next n _ =>
      split
      · next hrange => exact inRange_iff.1 hrange
      · trivial
    · trivial
    · trivial
  · next hfloat => exact ht.fraction hfloat
  · trivial

/-- A token that is asked for has the form of its kind. -/
theorem expect_formed {kind : Kind} {what : Wanted} (hts : AllFormed ts) :
    Gives (expect kind what ts)
      (fun r => r.value.kind = kind ∧ r.value.Formed ∧ AllFormed r.rest) fun _ => True := by
  cases ts with
  | nil => trivial
  | cons t ts =>
    rw [expect]
    split
    · next hkind => exact ⟨hkind, hts.head, hts.tail⟩
    · trivial

-- The recursion is that of the readers: it goes down in the tokens that are left.
mutual

/-- An expression from formed tokens can be written. -/
theorem expression_writable (ts : List Token) (hts : AllFormed ts) :
    Gives (expression ts) (fun r => r.value.Writable ∧ AllFormed r.rest) fun _ => True := by
  rw [expression]
  refine (operand_writable ts hts).bind fun left hleft => ?_
  obtain ⟨hleft, hrest⟩ := hleft
  split
  · trivial
  · next t after hcons =>
    have hshorter : after.length + 1 < ts.length := by simpa [hcons] using left.shorter
    rw [hcons] at hrest
    dsimp only
    split
    · refine (operand_writable after hrest.tail).bind fun right hright => ?_
      exact ⟨⟨hleft, hright.1⟩, hright.2⟩
    · split
      · refine (operand_writable after hrest.tail).bind fun yes hyes => ?_
        have := yes.shorter
        refine (expect_formed hyes.2).bind fun colon hcolon => ?_
        have := colon.shorter
        refine (operand_writable colon.rest hcolon.2.2).bind fun no hno => ?_
        exact ⟨⟨hleft, hyes.1, hno.1⟩, hno.2⟩
      · exact ⟨hleft, hrest⟩
termination_by 2 * ts.length + 1

/-- So can an operand. -/
theorem operand_writable : ∀ ts : List Token, AllFormed ts →
    Gives (operand ts) (fun r => r.value.Writable ∧ AllFormed r.rest) fun _ => True
  | [], _ => by
    rw [operand]
    trivial
  | t :: ts, hts => by
    rw [operand]
    split
    · refine (expression_writable ts hts.tail).bind fun inner hinner => ?_
      refine (expect_formed hinner.2).bind fun close hclose => ?_
      exact ⟨hinner.1, hclose.2.2⟩
    · split
      · refine (literal_writable hts.head).bind fun v hv => ?_
        exact ⟨hv, hts.tail⟩
      · split
        · next hname =>
          refine (arguments_writable t.span ts hts.tail).bind fun args hargs => ?_
          exact ⟨⟨hts.head.name hname, hargs.1⟩, hargs.2⟩
        · trivial
termination_by ts => 2 * ts.length

/-- So can the arguments of a call. -/
theorem arguments_writable (last : Span) : ∀ ts : List Token, AllFormed ts →
    Gives (arguments last ts) (fun r => Expr.WritableAll r.values ∧ AllFormed r.rest)
      fun _ => True
  | [], _ => by
    rw [arguments]
    trivial
  | t :: ts, hts => by
    rw [arguments]
    split
    · refine (expression_writable ts hts.tail).bind fun inner hinner => ?_
      have := inner.shorter
      refine (expect_formed hinner.2).bind fun close hclose => ?_
      have := close.shorter
      refine (arguments_writable _ close.rest hclose.2.2).bind fun more hmore => ?_
      exact ⟨⟨hinner.1, hmore.1⟩, hmore.2⟩
    · split
      · refine (literal_writable hts.head).bind fun v hv => ?_
        refine (arguments_writable _ ts hts.tail).bind fun more hmore => ?_
        exact ⟨⟨hv, hmore.1⟩, hmore.2⟩
      · split
        · next hname =>
          refine (arguments_writable _ ts hts.tail).bind fun more hmore => ?_
          exact ⟨⟨⟨hts.head.name hname, trivial⟩, hmore.1⟩, hmore.2⟩
        · exact ⟨trivial, hts⟩
termination_by ts => 2 * ts.length

end

/-! ## Lines -/

/-- Types leave formed tokens behind. -/
theorem types_formed : ∀ ts : List Token, AllFormed ts →
    Gives (types ts) (fun r => AllFormed r.rest) fun _ => True
  | [], _ => by
    rw [types]
    trivial
  | [t], _ => by
    rw [types]
    split <;> trivial
  | t :: a :: ts, hts => by
    rw [types]
    split
    · trivial
    · dsimp only
      split
      · exact (types_formed ts hts.tail.tail).bind fun more hmore => hmore
      · exact hts.tail

/-- Parameters from formed tokens can be written. -/
theorem parameters_writable : ∀ ts : List Token, AllFormed ts →
    Gives (parameters ts) (fun r => (∀ p ∈ r.value, p.Writable) ∧ AllFormed r.rest) fun _ => True
  | [], _ => by
    rw [parameters]
    trivial
  | t :: ts, hts => by
    rw [parameters]
    split
    · refine ⟨fun p hp => ?_, hts.tail⟩
      cases hp
    · split
      · next hname =>
        refine (parameters_writable ts hts.tail).bind fun more hmore => ?_
        exact ⟨List.forall_mem_cons.2 ⟨hts.head.name hname, hmore.1⟩, hmore.2⟩
      · split
        · refine (literal_writable hts.head).bind fun v hv => ?_
          refine (parameters_writable ts hts.tail).bind fun more hmore => ?_
          exact ⟨List.forall_mem_cons.2 ⟨hv, hmore.1⟩, hmore.2⟩
        · trivial

/-- A line from formed tokens can be written, if its name is a name. -/
theorem lineBody_writable {name : Token} (hname : IsName name.text) : ∀ ts : List Token,
    AllFormed ts →
    Gives (lineBody name ts) (fun r => r.value.Writable ∧ AllFormed r.rest) fun _ => True
  | [], _ => by
    rw [lineBody]
    trivial
  | t :: ts, hts => by
    rw [lineBody]
    split
    · refine (types_formed ts hts.tail).bind fun sig hsig => ?_
      exact ⟨hname, hsig⟩
    · refine (parameters_writable (t :: ts) hts).bind fun params hparams => ?_
      refine (expression_writable params.rest hparams.2).bind fun body hbody => ?_
      exact ⟨⟨hname, hparams.1, hbody.1⟩, hbody.2⟩

/-- A line from formed tokens can be written. -/
theorem line_writable (hts : AllFormed ts) :
    Gives (line ts) (fun r => r.value.Writable ∧ AllFormed r.rest) fun _ => True := by
  rw [line]
  refine (expect_formed hts).bind fun name hname => ?_
  have htext := hname.2.1.name hname.1
  refine (lineBody_writable htext name.rest hname.2.2).bind fun body hbody => ?_
  refine (expect_formed hbody.2).bind fun stop hstop => ?_
  exact ⟨hbody.1, hstop.2.2⟩

/-- Skipping a line leaves formed tokens behind. -/
theorem AllFormed.skipLine (h : AllFormed ts) : AllFormed (skipLine ts) := by
  induction ts with
  | nil => exact h
  | cons t ts ih =>
    unfold Grammar.skipLine
    split
    · exact h
    · split
      · exact h.tail
      · exact ih h.tail

/-- Every line that fits is one that can be written, whatever stands before and after it. -/
theorem lines_writable : ∀ ts : List Token, AllFormed ts →
    Gives (lines ts) (fun r => ∀ l ∈ r.lines, l.Writable) fun _ => True
  | [], _ => by
    rw [lines]
    trivial
  | t :: ts, hts => by
    rw [lines]
    split
    · intro l hl
      cases hl
    · next heof =>
      split
      · exact lines_writable ts hts.tail
      · have hline := line_writable hts
        split
        · next l hl =>
          obtain ⟨hvalue, hrest⟩ := hline.of_ok hl
          have hshorter : l.rest.length ≤ ts.length := Nat.le_of_lt_succ l.shorter
          refine gives_map.2 ((lines_writable l.rest hrest).imp fun r hr => ?_)
          exact List.forall_mem_cons.2 ⟨hvalue, hr⟩
        · have hshorter : (skipLine (t :: ts)).length ≤ ts.length :=
            Nat.le_of_lt_succ (skipLine_length_lt heof)
          exact gives_map.2 (lines_writable _ hts.skipLine)
        · trivial
termination_by ts => ts.length

end Grammar

namespace Program

/-! ## Programs -/

/-- The lines of a program that is read from a text can be written. -/
theorem parse_writable {text file : String} {p : Program} (h : parse text file = .ok p) :
    ∀ l ∈ p.lines, l.Writable := by
  have hlines := Grammar.lines_writable _ (scan_formed text file).1
  unfold parse ofTokens at h
  dsimp only at h
  split at h
  · split at h
    · next r hr =>
      split at h
      · cases h
        exact hlines.of_ok hr
      · cases h
    · cases h
  · cases h

/-- **Reading a text** without integers that are too long gives a program, or diagnostics of one
kind: for characters that belong to no token, or for lines that do not fit. -/
theorem parse_reports {text file : String} (hshort : ∀ t ∈ (scan text file).tokens, t.Short) :
    (∃ p, parse text file = .ok p) ∨ ∃ ds, parse text file = .error (.batch ds) ∧ ds ≠ [] ∧
      ((∀ d ∈ ds, d.code = "E100") ∨ ∀ d ∈ ds, d.code = "E200") := by
  obtain ⟨hformed, hend⟩ := scan_formed text file
  have hready := hend.ready fun t ht => ⟨(hformed t ht).regular, hshort t ht⟩
  unfold parse ofTokens
  dsimp only
  split
  · have hlines := Grammar.lines_sound _ hready
    split
    · next r hr =>
      split
      · exact .inl ⟨_, rfl⟩
      · next hfaults =>
        refine .inr ⟨_, rfl, by simpa using hfaults, .inr fun d hd => ?_⟩
        obtain ⟨f, -, rfl⟩ := List.mem_map.1 hd
        rfl
    · next a ha => exact (hlines.of_error ha).elim
  · next hfaults =>
    refine .inr ⟨_, rfl, by simpa using hfaults, .inl fun d hd => ?_⟩
    obtain ⟨f, -, rfl⟩ := List.mem_map.1 hd
    rfl

end Program

end Clausal
