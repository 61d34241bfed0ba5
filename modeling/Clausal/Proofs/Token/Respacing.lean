import Clausal.Proofs.Grammar.Formed
import Clausal.Proofs.Token.Pieces

/-!
# Respacing

The tokens of a text can be written down again with single blanks between them, and the new text has
the same tokens (`scan_respaced`). Two facts are behind this. Every token of a text is a lexeme of
its own (`readLexeme_isLexeme`), so the blank after it ends it, and the blank before it makes its
minus sign a sign, if it has one. And whether a line feed ends a line depends only on the tokens
before it: `Flow` says where the end of a line can stand in a list of words, a scan keeps to it
(`scanFrom_flow`), and words that keep to it are scanned as they are written
(`scanFrom_spelled`). The last end of a line is the exception. It may stand where no line can end,
inside of parentheses or after an operator, and the scanner puts it there again.
-/

namespace Clausal.Token

/-! ## Tokens of a text are lexemes -/

/-- A number that is read is a lexeme of its own, with or without a sign. -/
theorem isLexeme_readNumber {cs text : List Char} (h : startsWithDigit cs = true)
    (htext : text = (readNumber cs).2.1 ∨ text = '-' :: (readNumber cs).2.1) :
    (Word.mk (readNumber cs).1 (String.ofList text)).IsLexeme := by
  have hformed : Formed ⟨(readNumber cs).1, String.ofList text, default⟩ := formed_number h htext
  rcases readNumber_forms h with ⟨hkind, -⟩ | ⟨hkind, -⟩
  · rw [hkind] at hformed ⊢
    exact isLexeme_numeral (hformed.regular.1 rfl)
  · rw [hkind] at hformed ⊢
    exact isLexeme_fraction (hformed.fraction rfl)

/-- So is a symbol. -/
theorem isLexeme_symbol {cs text rest : List Char} {k : Kind}
    (h : readSymbol? cs = some (k, text, rest)) : (Word.mk k (String.ofList text)).IsLexeme := by
  have hall : ∀ s ∈ symbols, Word.mk s.1 (String.ofList s.2) ∈ vocabulary := by decide
  exact (written_of_mem_vocabulary (hall _ (mem_symbols_of_readSymbol? h))).lexeme

/-- What is cut off a text as a token is cut off as the same token before a blank. -/
theorem readLexeme_isLexeme {signed : Bool} {c : Char} {cs : List Char} {k : Kind}
    (h : (readLexeme signed c cs).1 = .token k) :
    (Word.mk k (String.ofList (readLexeme signed c cs).2.1)).IsLexeme := by
  revert h
  unfold readLexeme
  split
  · intro h
    cases h
  split
  · intro h
    cases h
  split
  · intro h
    cases h
  split
  · intro h
    cases h
  split
  · next hdigit =>
    intro h
    cases h
    have hstart : startsWithDigit (c :: cs) = true := hdigit
    exact isLexeme_readNumber hstart (.inl rfl)
  split
  · next hminus =>
    intro h
    cases h
    exact isLexeme_readNumber hminus.2.1 (.inr rfl)
  split
  · next hstart =>
    intro h
    cases h
    refine isLexeme_name hstart (fun d hd => ?_) String.toList_ofList
    exact List.all_eq_true.1 List.all_takeWhile d hd
  split
  · next hsymbol =>
    intro h
    cases h
    exact isLexeme_symbol hsymbol
  · intro h
    cases h

/-! ## Words in order -/

/-- The words that can follow where `depth` parentheses are open and `last` is the kind of the token
before. A line ends outside of parentheses, after a word that can end one; only the last end of a
line may stand anywhere. -/
inductive Flow : Nat → Option Kind → List Word → Prop
  | eof {depth : Nat} {last : Option Kind} : last = none ∨ last = some .newline →
      Flow depth last [⟨.eof, ""⟩]
  | stop {depth : Nat} {k : Kind} {text : String} : k ≠ .newline →
      Flow depth (some k) [⟨.newline, text⟩, ⟨.eof, ""⟩]
  | line {k : Kind} {text : String} {ws : List Word} : k.completesLine = true →
      Flow 0 (some .newline) ws → Flow 0 (some k) (⟨.newline, text⟩ :: ws)
  | word {depth : Nat} {last : Option Kind} {w : Word} {ws : List Word} : w.IsLexeme →
      w.kind ≠ .newline → w.kind ≠ .eof → Flow (depthAfter depth [w]) (some w.kind) ws →
      Flow depth last (w :: ws)

/-- The tokens at the end of a text keep to the flow of lines. -/
theorem endTokens_flow (file : String) (cur : Cursor) :
    Flow cur.depth cur.last ((endTokens file cur).map word) := by
  unfold endTokens
  cases hlast : cur.last with
  | none => exact .eof (.inl rfl)
  | some k =>
    dsimp only
    split
    · next hk => exact .eof (.inr (congrArg some hk))
    · next hk => exact .stop hk

/-- A line ends outside of parentheses, after a token that completes it. -/
theorem endsLine_iff {cur : Cursor} :
    cur.endsLine = true ↔ ∃ k, cur.last = some k ∧ cur.depth = 0 ∧ k.completesLine = true := by
  unfold Cursor.endsLine Kind.completesLine
  cases cur.last <;> simp [and_assoc]

/-- **The tokens of a scan** come in such an order. -/
theorem scanFrom_flow (file : String) (cur : Cursor) (cs : List Char) :
    Flow cur.depth cur.last ((scanFrom file cur cs).tokens.map word) := by
  fun_induction scanFrom file cur cs with
  | case1 cur => exact endTokens_flow file cur
  | case2 _ _ _ _ _ _ _ ih | case3 _ _ _ _ _ _ _ ih | case5 _ _ _ _ _ _ _ _ ih
  | case6 _ _ _ _ _ _ _ ih | case7 _ _ _ _ _ _ _ ih => exact ih
  | case4 cur c cs lexeme text next span hk hends ih =>
    obtain ⟨k, hlast, hdepth, hcompletes⟩ := endsLine_iff.1 hends
    rw [hlast, hdepth]
    refine .line hcompletes ?_
    rwa [show (next.after .newline).depth = 0 from hdepth] at ih
  | case8 cur c cs lexeme text next span k hk ih =>
    have hfits := readLexeme_fits cur.signed c cs
    rw [show (readLexeme cur.signed c cs).1 = .token k from hk] at hfits
    exact .word (readLexeme_isLexeme hk) hfits.1 hfits.2.1 ih

/-! ## Writing words -/

/-- How a word is written: the end of a line is a line feed. -/
def Word.written (w : Word) : String :=
  if w.kind = .newline then "\n" else w.text

/-- A word without what tells one end of a line from another. -/
def Word.shape (w : Word) : Word :=
  if w.kind = .newline then ⟨.newline, ""⟩ else w

/-- The words of a file with single blanks between them. The end of the file is not written. -/
def spelled (ws : List Word) : String :=
  " ".intercalate ((ws.filter (·.kind ≠ .eof)).map Word.written)

/-- The end of a line is written as a line feed. -/
theorem written_newline (text : String) : (Word.mk .newline text).written.toList = ['\n'] := by
  simp [Word.written]

theorem spelled_eof : (spelled [⟨.eof, ""⟩]).toList = [] := rfl

/-- The last word before the end of the file stands alone. -/
theorem spelled_last {w : Word} (hw : w.kind ≠ .eof) :
    (spelled [w, ⟨.eof, ""⟩]).toList = w.written.toList := by
  simp [spelled, hw]

/-- Two words are spelled with a blank between them. -/
theorem spelled_cons {w v : Word} (hw : w.kind ≠ .eof) (hv : v.kind ≠ .eof) (ws : List Word) :
    (spelled (w :: v :: ws)).toList = w.written.toList ++ ' ' :: (spelled (v :: ws)).toList := by
  simp [spelled, hw, hv, String.toList_intercalate]

/-- Words that follow in order are the end of the file, after the end of a line, or start with a
word that is written. -/
theorem Flow.cases_eof {depth : Nat} {last : Option Kind} {ws : List Word}
    (h : Flow depth last ws) :
    (ws = [⟨.eof, ""⟩] ∧ (last = none ∨ last = some .newline)) ∨
      ∃ v vs, ws = v :: vs ∧ v.kind ≠ .eof := by
  cases h with
  | eof hlast => exact .inl ⟨rfl, hlast⟩
  | stop | line => exact .inr ⟨_, _, rfl, by simp⟩
  | word _ _ hkind _ => exact .inr ⟨_, _, rfl, hkind⟩

/-- The words of a scan, without what tells one end of a line from another. -/
def Scan.shapes (s : Scan) : List Word :=
  s.tokens.map (Word.shape ∘ word)

@[simp] theorem shapes_withToken (t : Token) (s : Scan) :
    (s.withToken t).shapes = t.word.shape :: s.shapes := rfl

@[simp] theorem faults_withToken (t : Token) (s : Scan) : (s.withToken t).faults = s.faults := rfl

/-- Ends of lines have one shape. -/
theorem shape_newline {w : Word} (h : w.kind = .newline) : w.shape = ⟨.newline, ""⟩ := if_pos h

section Scanning

variable (file : String) (cur : Cursor)

/-- At the end of the text, after a line, there is only the end of the file. -/
theorem scanFrom_end (h : cur.last = none ∨ cur.last = some .newline) :
    (scanFrom file cur []).faults = [] ∧ (scanFrom file cur []).shapes = [⟨.eof, ""⟩] := by
  rw [scanFrom]
  rcases h with h | h <;> simp [Scan.shapes, endTokens, h, word, Word.shape]

/-- A line feed at the end of a text is the end of a line, whether a line can end there or not. -/
theorem scanFrom_last_lineFeed {k : Kind} (hlast : cur.last = some k) (hk : k ≠ .newline) :
    (scanFrom file cur ['\n']).faults = [] ∧
      (scanFrom file cur ['\n']).shapes = [⟨.newline, ""⟩, ⟨.eof, ""⟩] := by
  cases hends : cur.endsLine with
  | true =>
    obtain ⟨stop, hstop, hscan⟩ := scanFrom_lineFeed hends []
    rw [hscan, faults_withToken, shapes_withToken, shape_newline hstop]
    obtain ⟨hfaults, hshapes⟩ := scanFrom_end file ((cur.past ['\n']).after .newline) (.inr rfl)
    exact ⟨hfaults, by rw [hshapes]⟩
  | false =>
    have hscan : scanFrom file cur ['\n'] = scanFrom file (cur.past ['\n']) [] := by
      rw [scanFrom.eq_def file cur]
      simp [readLexeme, hends]
    rw [hscan, scanFrom]
    simp [Scan.shapes, endTokens, Cursor.past, hlast, hk, word, Word.shape]

/-- **Words in order are scanned as they are written**: the blanks make every word a token of its
own, and the line feeds stand where a line ends. -/
theorem scanFrom_spelled {depth : Nat} {last : Option Kind} {ws : List Word}
    (h : Flow depth last ws) (hdepth : cur.depth = depth) (hlast : cur.last = last)
    (hs : cur.signed = true) :
    (scanFrom file cur (spelled ws).toList).faults = [] ∧
      (scanFrom file cur (spelled ws).toList).shapes = ws.map Word.shape := by
  induction h generalizing cur with
  | eof hend =>
    rw [spelled_eof]
    exact scanFrom_end file cur (hlast ▸ hend)
  | stop hk =>
    rw [spelled_last (by simp), written_newline]
    exact scanFrom_last_lineFeed file cur hlast hk
  | @line k text ws hcompletes hws ih =>
    have hends : cur.endsLine = true := endsLine_iff.2 ⟨k, hlast, hdepth, hcompletes⟩
    rcases hws.cases_eof with ⟨rfl, -⟩ | ⟨v, vs, rfl, hv⟩
    · rw [spelled_last (by simp), written_newline]
      refine scanFrom_last_lineFeed file cur hlast ?_
      rintro rfl
      cases hcompletes
    · -- The blank after the line feed changes nothing: after the end of a line a minus sign is a
      -- sign in any case.
      obtain ⟨stop, hstop, hscan⟩ := scanFrom_lineFeed hends (' ' :: (spelled (v :: vs)).toList)
      obtain ⟨hfaults, hshapes⟩ := ih (((cur.past ['\n']).after .newline).past [' '])
        hdepth rfl (signed_past_space _ _)
      rw [spelled_cons (by simp) hv, written_newline, List.singleton_append, hscan, scanFrom_space,
        faults_withToken, shapes_withToken, hfaults, hshapes, shape_newline hstop]
      exact ⟨rfl, rfl⟩
  | @word depth last w ws hlexeme hnewline heof hws ih =>
    rcases hws.cases_eof with ⟨rfl, hlast⟩ | ⟨v, vs, rfl, hv⟩
    · rcases hlast with hlast | hlast
      · cases hlast
      · exact absurd (Option.some.inj hlast) hnewline
    · obtain ⟨t, ht, hscan⟩ := scanFrom_lexeme hlexeme hs (.inl rfl) (spelled (v :: vs)).toList
      obtain ⟨hfaults, hshapes⟩ := ih (((cur.past w.text.toList).after w.kind).past [' '])
        (by rw [← hdepth]; rfl) rfl (signed_past_space _ _)
      rw [spelled_cons heof hv, show w.written = w.text from if_neg hnewline, hscan,
        scanFrom_space, faults_withToken, shapes_withToken, hfaults, hshapes, ht]
      exact ⟨rfl, rfl⟩

end Scanning

/-- **Tokens survive respacing**: the text of the tokens of a source, with single blanks between
them, a line feed for the end of a line and nothing for the end of the file, has no bad characters
and the same tokens again. -/
theorem scan_respaced (text file file' : String) :
    (scan (spelled ((scan text file).tokens.map word)) file').faults = [] ∧
      (scan (spelled ((scan text file).tokens.map word)) file').shapes =
        (scan text file).shapes := by
  have h := scanFrom_spelled file' {} (scanFrom_flow file {} text.toList) rfl rfl rfl
  rw [List.map_map] at h
  exact h

-- The parenthesis stays open, and the last line feed is the end of a line all the same.
example : spelled ((scan "f(n-1 # less\n" "f").tokens.map word) = "f ( n - 1 \n" := by
  decide +kernel

end Clausal.Token
