import Clausal.Proofs.Token.Place
import Clausal.Proofs.Token.Step

/-!
# The pieces of a text

The scanner cuts a text into pieces that leave nothing out (`Cut`, `scanFrom_cut`): a piece is a
lexeme together with the number of characters before it. The tokens and the faults of a scan are
read off the pieces one by one, so what is true of them is a matter of counting characters:

* a token covers the positions of its own characters and no others (`Piece.Within.covers_iff`);
* the columns of a token's span, on its line, hold the text of the token (`Piece.Within.shows`);
* a comment is one piece, and no other piece reaches into it (`Cut.comment_of_inComment`).
-/

namespace Clausal.Token

open Position (ofIndex)

/-- Whether a token stands for characters of the text, rather than for the end of a line or of the
file. -/
def isSolid (t : Token) : Bool :=
  t.kind ≠ .newline && t.kind ≠ .eof

/-! ## Lexemes -/

/-- The character that has `i` characters before it stands after a hash sign, or is one, with no
line feed from the hash sign on. -/
def InComment (cs : List Char) (i : Nat) : Prop :=
  ∃ j ≤ i, cs[j]? = some '#' ∧ ∀ k, j ≤ k → k ≤ i → cs[k]? ≠ some '\n'

/-- The characters that no token has. -/
def gaps : List Char := [' ', '\r', '\t', '\n', '#']

/-- Whether a token can start at the front of a text: with a digit, the start of a name, an
operator or a parenthesis. -/
def startsToken : List Char → Bool
  | [] => false
  | c :: cs =>
    c.isDigit || isNameStart c || "+-*/=?:()".toList.contains c || (c = '!' && cs.head? = some '=')

/-- The character at the front of a text is not a gap and does not start a token. -/
def Unlexable (cs : List Char) : Prop :=
  (∀ c ∈ cs.head?, c ∉ gaps) ∧ startsToken cs = false

/-- Why a character outside comments and tokens is reported. -/
def ScanCause.ofChar (c : Char) : ScanCause :=
  if c = '\t' then .tab else .stray c

/-- What the characters of a lexeme are, and where it can stand: `cs` is the text that it is at the
front of. -/
def Lexeme.Fits (cs text : List Char) : Lexeme → Prop
  | .blank => text = [' '] ∨ text = ['\r']
  | .lineFeed => text = ['\n']
  | .tab => text = ['\t']
  | .comment => cs.head? = some '#' ∧ text = cs.takeWhile (· ≠ '\n')
  | .stray => text.length = 1 ∧ Unlexable cs
  | .token k => k ≠ .newline ∧ k ≠ .eof ∧ ∀ c ∈ text, c ∉ gaps

/-- A class that has no gap in it has none of its characters among the gaps. -/
theorem not_mem_gaps {p : Char → Bool} {c : Char} (h : p c = true) (hp : gaps.any p = false) :
    c ∉ gaps := by
  simpa [gaps] using ne_special h hp

/-- A number is written with digits and a point. -/
theorem readNumber_fits (cs : List Char) :
    ((readNumber cs).1 = .integer ∨ (readNumber cs).1 = .float) ∧
      ∀ c ∈ (readNumber cs).2.1, c ∉ gaps := by
  have hdigits : ∀ ds : List Char, ∀ c ∈ ds.takeWhile Char.isDigit, c ∉ gaps := by
    intro ds c hc
    exact not_mem_gaps (List.all_eq_true.1 List.all_takeWhile c hc) rfl
  unfold readNumber
  split
  · next d rest _ =>
    split
    · next hd =>
      refine ⟨.inr rfl, fun c hc => ?_⟩
      simp only [List.mem_append, List.mem_cons] at hc
      rcases hc with hc | rfl | rfl | hc
      · exact hdigits cs c hc
      · decide
      · exact not_mem_gaps hd rfl
      · exact hdigits rest c hc
    · exact ⟨.inl rfl, hdigits cs⟩
  · exact ⟨.inl rfl, hdigits cs⟩

/-- A symbol does not end a line or the file, and it has no gap in it. -/
theorem readSymbol?_fits {cs text rest : List Char} {k : Kind}
    (h : readSymbol? cs = some (k, text, rest)) :
    k ≠ .newline ∧ k ≠ .eof ∧ ∀ c ∈ text, c ∉ gaps := by
  have hsymbols : ∀ s ∈ symbols, s.1 ≠ .newline ∧ s.1 ≠ .eof ∧ ∀ c ∈ s.2, c ∉ gaps := by
    simp [symbols, gaps]
  exact hsymbols _ (mem_symbols_of_readSymbol? h)

/-- A word does not end a line or the file. -/
theorem ofWord_fits (word : String) :
    Kind.ofWord word ≠ .newline ∧ Kind.ofWord word ≠ .eof := by
  unfold Kind.ofWord
  split <;> decide

/-- A text without a symbol in front starts with none of their characters. -/
theorem not_symbol_of_readSymbol? {c : Char} {cs : List Char}
    (h : readSymbol? (c :: cs) = none) :
    "+-*/=?:()".toList.contains c = false ∧ (c = '!' && cs.head? = some '=') = false := by
  have hfront := not_front_of_readSymbol? h
  constructor
  · have hsingle : ∀ d ∈ "+-*/=?:()".toList, ∃ s ∈ symbols, s.2 = [d] := by simp [symbols]
    rw [← Bool.not_eq_true, List.contains_iff_mem]
    intro hc
    obtain ⟨s, hs, heq⟩ := hsingle c hc
    exact hfront s hs ⟨cs, by rw [heq]; rfl⟩
  · rw [← Bool.not_eq_true, Bool.and_eq_true, decide_eq_true_iff, decide_eq_true_iff]
    rintro ⟨rfl, hcs⟩
    obtain ⟨r, rfl⟩ := List.head?_eq_some_iff.1 hcs
    exact hfront (.notEqual, ['!', '=']) (by simp [symbols]) ⟨r, rfl⟩

/-- **What is cut off a text is a lexeme that fits.** -/
theorem readLexeme_fits (signed : Bool) (c : Char) (cs : List Char) :
    (readLexeme signed c cs).1.Fits (c :: cs) (readLexeme signed c cs).2.1 := by
  unfold readLexeme
  split
  · next h => exact h.imp (congrArg (· :: [])) (congrArg (· :: []))
  split
  · next h => exact congrArg (· :: []) h
  split
  · next h => exact congrArg (· :: []) h
  split
  · next h => simp [Lexeme.Fits, h]
  next hblank htab hfeed hhash =>
  split
  · obtain ⟨hkind, htext⟩ := readNumber_fits (c :: cs)
    exact ⟨by rcases hkind with h | h <;> simp [h], by rcases hkind with h | h <;> simp [h], htext⟩
  split
  · obtain ⟨hkind, htext⟩ := readNumber_fits cs
    exact ⟨by rcases hkind with h | h <;> simp [h], by rcases hkind with h | h <;> simp [h],
      List.forall_mem_cons.2 ⟨by decide, htext⟩⟩
  split
  · next hstart =>
    refine ⟨(ofWord_fits _).1, (ofWord_fits _).2, List.forall_mem_cons.2 ⟨?_, fun d hd => ?_⟩⟩
    · exact not_mem_gaps hstart rfl
    · exact not_mem_gaps (List.all_eq_true.1 List.all_takeWhile d hd) rfl
  next hdigit hminus hname =>
  split
  · next h => exact readSymbol?_fits h
  · next h =>
    obtain ⟨hsymbol, hbang⟩ := not_symbol_of_readSymbol? h
    refine ⟨rfl, ?_, ?_⟩
    · simp_all [gaps]
    · rw [startsToken, hsymbol, hbang]
      simp [hdigit, hname]

/-! ## Pieces -/

/-- A lexeme, with the number of characters before it. -/
structure Piece where
  start : Nat
  lexeme : Lexeme
  text : List Char

/-- The number of characters up to the end of a piece. -/
def Piece.stop (p : Piece) : Nat :=
  p.start + p.text.length

/-- The piece is a lexeme of the text, at the place where it says it is. -/
structure Piece.Within (cs : List Char) (p : Piece) : Prop where
  front : ∃ rest, cs.drop p.start = p.text ++ rest
  nonempty : p.text ≠ []
  fits : p.lexeme.Fits (cs.drop p.start) p.text

/-- Pieces are not empty. -/
theorem Piece.Within.start_lt_stop {cs : List Char} {p : Piece} (h : p.Within cs) :
    p.start < p.stop :=
  Nat.lt_add_of_pos_right (List.length_pos_iff.2 h.nonempty)

/-- A piece ends within the text. -/
theorem Piece.Within.stop_le {cs : List Char} {p : Piece} (h : p.Within cs) :
    p.stop ≤ cs.length := by
  obtain ⟨rest, hrest⟩ := h.front
  have hlen := congrArg List.length hrest
  have hpos := List.length_pos_iff.2 h.nonempty
  rw [List.length_drop, List.length_append] at hlen
  unfold Piece.stop
  omega

/-- A piece starts within the text. -/
theorem Piece.Within.start_le {cs : List Char} {p : Piece} (h : p.Within cs) :
    p.start ≤ cs.length :=
  Nat.le_of_lt (Nat.lt_of_lt_of_le h.start_lt_stop h.stop_le)

/-- Pieces that follow one another without a gap, from `i` characters on to the end of the text. -/
inductive Cut (cs : List Char) : Nat → List Piece → Prop where
  | nil : Cut cs cs.length []
  | cons {p : Piece} {ps : List Piece} : p.Within cs → Cut cs p.stop ps → Cut cs p.start (p :: ps)

/-- The token that a piece is scanned as. -/
def Piece.token? (file : String) (cs : List Char) (p : Piece) : Option Token :=
  match p.lexeme with
  | .token k =>
    some ⟨k, String.ofList p.text, .between file (ofIndex cs p.start) (ofIndex cs p.stop)⟩
  | _ => none

/-- The fault that a piece is reported with. -/
def Piece.fault? (file : String) (cs : List Char) (p : Piece) : Option ScanFault :=
  match p.lexeme with
  | .tab => some ⟨.tab, .single file (ofIndex cs p.start)⟩
  | .stray => p.text.head?.map fun c => ⟨.stray c, .single file (ofIndex cs p.start)⟩
  | _ => none

section Scanning

variable {file : String} {cs rest : List Char} {c : Char} {i : Nat} {signed : Bool}

/-- The lexeme that is cut off a text at `i`, as a piece. -/
def pieceAt (signed : Bool) (i : Nat) (c : Char) (rest : List Char) : Piece :=
  ⟨i, (readLexeme signed c rest).1, (readLexeme signed c rest).2.1⟩

/-- The piece at an index is within the text. -/
theorem pieceAt_within (h : cs.drop i = c :: rest) : (pieceAt signed i c rest).Within cs where
  front := ⟨(readLexeme signed c rest).2.2, by rw [← readLexeme_append signed c rest] at h; exact h⟩
  nonempty := readLexeme_ne_nil signed c rest
  fits := by
    have hfits := readLexeme_fits signed c rest
    rwa [← h] at hfits

/-- What is left after the lexeme at `i` is what follows its piece. -/
theorem drop_pieceAt_stop (h : cs.drop i = c :: rest) :
    cs.drop (pieceAt signed i c rest).stop = (readLexeme signed c rest).2.2 := by
  rw [← readLexeme_append signed c rest] at h
  show cs.drop (i + (readLexeme signed c rest).2.1.length) = _
  rw [← List.drop_drop, h, List.drop_left]

/-- The place behind a piece is that of its start, moved over its text. -/
theorem ofIndex_pieceAt_stop (h : cs.drop i = c :: rest) :
    ofIndex cs (pieceAt signed i c rest).stop =
      (ofIndex cs i).advance (readLexeme signed c rest).2.1 := by
  rw [← readLexeme_append signed c rest] at h
  exact Position.ofIndex_add h

/-- The tokens at the end of a text are not solid. -/
theorem endTokens_not_solid (file : String) (cur : Cursor) :
    (endTokens file cur).filter isSolid = [] := by
  unfold endTokens
  split
  · rfl
  · split <;> rfl

/-- A lexeme starts with the character at which it is read. -/
theorem head?_readLexeme (signed : Bool) (c : Char) (cs : List Char) :
    (readLexeme signed c cs).2.1.head? = some c := by
  have happ := readLexeme_append signed c cs
  obtain ⟨d, ds, hd⟩ := List.exists_cons_of_ne_nil (readLexeme_ne_nil signed c cs)
  rw [hd, List.cons_append, List.cons.injEq] at happ
  rw [hd, List.head?_cons, happ.1]

/-- One step of the scanner: the piece at hand gives its token or its fault, if it has one. -/
theorem stepAt_piece (file : String) {cur : Cursor} (h : cs.drop i = c :: rest)
    (hpos : cur.pos = ofIndex cs i) :
    (cur.stepAt file c rest).tokens.filter isSolid =
        ((pieceAt cur.signed i c rest).token? file cs).toList ∧
      (cur.stepAt file c rest).faults = ((pieceAt cur.signed i c rest).fault? file cs).toList ∧
      (cur.stepAt file c rest).next.pos = ofIndex cs (pieceAt cur.signed i c rest).stop := by
  have hfits := readLexeme_fits cur.signed c rest
  have hhead := head?_readLexeme cur.signed c rest
  have hstop : ofIndex cs (pieceAt cur.signed i c rest).stop =
      (cur.past (readLexeme cur.signed c rest).2.1).pos := by
    rw [ofIndex_pieceAt_stop h, ← hpos]
    rfl
  unfold Cursor.stepAt Piece.token? Piece.fault?
  rw [step_pos, hstop]
  dsimp only [pieceAt]
  rw [← hpos]
  cases hk : (readLexeme cur.signed c rest).1 with
  | blank | comment | tab => exact ⟨rfl, rfl, rfl⟩
  | stray =>
    rw [hhead]
    exact ⟨rfl, rfl, rfl⟩
  | lineFeed =>
    dsimp only [Cursor.step]
    split <;> exact ⟨rfl, rfl, rfl⟩
  | token k =>
    rw [hk] at hfits
    obtain ⟨hnewline, heof, -⟩ := hfits
    refine ⟨List.filter_eq_self.2 ?_, rfl, rfl⟩
    intro t ht
    rw [List.mem_singleton.1 ht]
    simp [isSolid, hnewline, heof]

/-- **The tokens and faults of a scan are those of the pieces of the text.** -/
theorem scanFrom_cut (cs : List Char) (file : String) (cur : Cursor) (i : Nat)
    (hi : i ≤ cs.length) (hpos : cur.pos = ofIndex cs i) :
    ∃ ps, Cut cs i ps ∧
      (scanFrom file cur (cs.drop i)).tokens.filter isSolid =
        ps.filterMap (Piece.token? file cs) ∧
      (scanFrom file cur (cs.drop i)).faults = ps.filterMap (Piece.fault? file cs) := by
  cases hdrop : cs.drop i with
  | nil =>
    have hend : i = cs.length := by
      have hlen := congrArg List.length hdrop
      rw [List.length_drop, List.length_nil] at hlen
      omega
    subst hend
    rw [scanFrom]
    exact ⟨[], .nil, endTokens_not_solid file cur, rfl⟩
  | cons c rest =>
    have hwithin : (pieceAt cur.signed i c rest).Within cs := pieceAt_within hdrop
    obtain ⟨htokens, hfaults, hnext⟩ := stepAt_piece file hdrop hpos
    have hstart : i < (pieceAt cur.signed i c rest).stop := hwithin.start_lt_stop
    have hstop := hwithin.stop_le
    obtain ⟨ps, hcut, htokens', hfaults'⟩ := scanFrom_cut cs file _ _ hstop hnext
    rw [drop_pieceAt_stop hdrop] at htokens' hfaults'
    refine ⟨pieceAt cur.signed i c rest :: ps, .cons hwithin hcut, ?_, ?_⟩
    · rw [scanFrom_cons, Scan.withStep, List.filter_append, htokens, htokens',
        List.filterMap_cons]
      cases (pieceAt cur.signed i c rest).token? file cs <;> rfl
    · rw [scanFrom_cons, Scan.withStep, hfaults, hfaults', List.filterMap_cons]
      cases (pieceAt cur.signed i c rest).fault? file cs <;> rfl
termination_by cs.length - i

end Scanning

/-! ## What the pieces of a text are -/

namespace Piece.Within

variable {file : String} {cs : List Char} {p : Piece} {k : Kind} {t : Token} {j : Nat}

/-- The characters of a piece are those of the text. -/
theorem getElem?_eq (h : p.Within cs) (hstart : p.start ≤ j) (hstop : j < p.stop) :
    cs[j]? = p.text[j - p.start]? := by
  obtain ⟨rest, hrest⟩ := h.front
  have hlt : j - p.start < p.text.length := by
    unfold Piece.stop at hstop
    omega
  have happ : (p.text ++ rest)[j - p.start]? = p.text[j - p.start]? :=
    List.getElem?_append_left hlt
  rw [← happ, ← hrest, List.getElem?_drop, Nat.add_sub_cancel' hstart]

/-- The characters from the start of a piece up to its end are those of its text. -/
theorem mem_text (h : p.Within cs) (hstart : p.start ≤ j) (hstop : j < p.stop) {c : Char}
    (hc : cs[j]? = some c) : c ∈ p.text :=
  List.mem_of_getElem? (h.getElem?_eq hstart hstop ▸ hc)

/-- A piece starts with the first character of its text. -/
theorem getElem?_start (h : p.Within cs) : cs[p.start]? = p.text.head? := by
  rw [h.getElem?_eq (Nat.le_refl _) h.start_lt_stop, Nat.sub_self, List.head?_eq_getElem?]

/-- A piece of one character is at the place of that character. -/
theorem eq_start (h : p.text.length = 1) (hstart : p.start ≤ j) (hstop : j < p.stop) :
    j = p.start := by
  unfold Piece.stop at hstop
  omega

/-- The token of a piece has its text and its place. -/
theorem eq_of_token? (ht : p.token? file cs = some t) :
    ∃ k, p.lexeme = .token k ∧
      t = ⟨k, String.ofList p.text, .between file (ofIndex cs p.start) (ofIndex cs p.stop)⟩ := by
  unfold Piece.token? at ht
  split at ht
  · next k hk => exact ⟨k, hk, (Option.some.inj ht).symm⟩
  · cases ht

/-- A token stays on one line, so its columns are counted from its start. -/
theorem ofIndex_token (h : p.Within cs) (hk : p.lexeme = .token k) {n : Nat}
    (hn : n ≤ p.text.length) :
    ofIndex cs (p.start + n) =
      ⟨(ofIndex cs p.start).line, (ofIndex cs p.start).col + n⟩ := by
  obtain ⟨rest, hrest⟩ := h.front
  have hfits := h.fits
  rw [hk] at hfits
  have hfeed : '\n' ∉ p.text.take n := by
    intro hmem
    exact hfits.2.2 '\n' (List.mem_of_mem_take hmem) (by decide)
  have hdrop : cs.drop p.start = p.text.take n ++ (p.text.drop n ++ rest) := by
    rw [hrest, ← List.append_assoc, List.take_append_drop]
  have hlength : (p.text.take n).length = n := List.length_take_of_le hn
  have hadd := Position.ofIndex_add hdrop
  rwa [hlength, Position.advance_of_not_mem hfeed, hlength] at hadd

/-- The span of a token, in terms of its first position. -/
theorem span_eq (h : p.Within cs) (ht : p.token? file cs = some t) :
    t.span = ⟨file, (ofIndex cs p.start).line, (ofIndex cs p.start).col,
      (ofIndex cs p.start).line, (ofIndex cs p.start).col + p.text.length - 1⟩ := by
  obtain ⟨k, hk, rfl⟩ := eq_of_token? ht
  have hpos := List.length_pos_iff.2 h.nonempty
  have hstop : ofIndex cs p.stop = _ := h.ofIndex_token hk (Nat.le_refl _)
  obtain ⟨_, _, _, hcol, -⟩ := Position.splitOn_drop_line h.start_le
  have hend : max 1 ((((ofIndex cs p.start).col + p.text.length : Nat) : Int) - 1) =
      (ofIndex cs p.start).col + p.text.length - 1 := by omega
  rw [hstop]
  unfold Span.between
  rw [hend]

/-- **A token covers the positions of its characters**, and no others. -/
theorem covers_iff (h : p.Within cs) (ht : p.token? file cs = some t) (hj : j < cs.length) :
    t.span.Covers (ofIndex cs j) ↔ p.start ≤ j ∧ j < p.stop := by
  obtain ⟨k, hk, -⟩ := eq_of_token? ht
  have hend := h.stop_le
  unfold Piece.stop at hend ⊢
  rw [h.span_eq ht]
  unfold Span.Covers
  dsimp only
  constructor
  · intro hcovers
    obtain ⟨n, hn⟩ : ∃ n, (ofIndex cs j).col = (ofIndex cs p.start).col + n :=
      ⟨_, (Nat.add_sub_cancel' (by omega)).symm⟩
    have hplace : ofIndex cs (p.start + n) = ofIndex cs j := by
      rw [h.ofIndex_token hk (by omega), ← hn]
      have hline : (ofIndex cs p.start).line = (ofIndex cs j).line := by omega
      rw [hline]
    have hindex := Position.ofIndex_inj (by omega) (Nat.le_of_lt hj) hplace
    omega
  · intro hwithin
    have hplace := h.ofIndex_token hk (show j - p.start ≤ p.text.length by omega)
    rw [Nat.add_sub_cancel' hwithin.1] at hplace
    rw [hplace]
    dsimp only
    omega

/-- **The columns of a token's span hold its text.** -/
theorem shows (h : p.Within cs) (ht : p.token? file cs = some t) : t.Shows cs := by
  obtain ⟨k, hk, htoken⟩ := eq_of_token? ht
  have hpos := List.length_pos_iff.2 h.nonempty
  have hspan := h.span_eq ht
  have htext : t.text.toList = p.text := by rw [htoken, String.toList_ofList]
  obtain ⟨head, first, rest, hcol, hline, hfirst, hdrop⟩ := Position.splitOn_drop_line h.start_le
  obtain ⟨after, hafter⟩ := h.front
  obtain ⟨first', rest', hfirst'⟩ :=
    List.exists_cons_of_ne_nil (Text.splitOn_ne_nil '\n' after)
  have hfits := h.fits
  rw [hk] at hfits
  have hfeed : '\n' ∉ p.text := fun hmem => hfits.2.2 '\n' hmem (by decide)
  rw [hafter, Position.splitOn_append hfeed hfirst', List.cons.injEq] at hfirst
  have hlineEq : (Text.splitOn '\n' cs)[(ofIndex cs p.start).line - 1]? =
      some (head ++ (p.text ++ first')) := by
    rw [← Nat.add_zero ((ofIndex cs p.start).line - 1), ← List.getElem?_drop, hdrop, hfirst.1]
    rfl
  constructor
  case excerpt =>
    have hindex : (((ofIndex cs p.start).line : Int) - 1).toNat =
        (ofIndex cs p.start).line - 1 := by omega
    have hskip : (((ofIndex cs p.start).col : Int) - 1).toNat = head.length := by omega
    have hwidth : ((ofIndex cs p.start).col + (p.text.length : Int) - 1 + 1 -
        (ofIndex cs p.start).col).toNat = p.text.length := by omega
    rw [hspan, htext]
    unfold Span.excerpt
    dsimp only
    rw [hindex, hlineEq, hskip, hwidth, Option.getD_some, List.drop_left, List.take_left]
  all_goals simp only [hspan, htext]
  all_goals omega

/-- A comment that is not at the end of the text is followed by a line feed. -/
theorem lineFeed_after_comment (h : p.Within cs) (hk : p.lexeme = .comment)
    (hstop : p.stop < cs.length) : cs[p.stop]? = some '\n' := by
  have hfits := h.fits
  rw [hk] at hfits
  have htext := hfits.2
  obtain ⟨rest, hrest⟩ := h.front
  have hcut := List.takeWhile_append_dropWhile (p := (· ≠ '\n')) (l := cs.drop p.start)
  rw [← htext, hrest] at hcut
  have hnext : cs[p.stop]? = rest.head? := by
    rw [← List.head?_drop, Piece.stop, ← List.drop_drop, hrest, List.drop_left]
  have hnot := List.head?_dropWhile_not (· ≠ '\n') (p.text ++ rest)
  rw [List.append_cancel_left hcut, ← hnext, List.getElem?_eq_getElem hstop] at hnot
  rw [List.getElem?_eq_getElem hstop]
  simpa using hnot

end Piece.Within

namespace Cut

variable {file : String} {cs : List Char} {ps : List Piece} {p q : Piece} {i j : Nat}

/-- The pieces of a cut lie within the text, from its index on. -/
theorem within (h : Cut cs i ps) (hp : p ∈ ps) : p.Within cs ∧ i ≤ p.start := by
  induction h with
  | nil => cases hp
  | cons hwithin _ ih =>
    rcases List.mem_cons.1 hp with rfl | hp
    · exact ⟨hwithin, Nat.le_refl _⟩
    · obtain ⟨hp, hle⟩ := ih hp
      exact ⟨hp, Nat.le_trans (Nat.le_of_lt hwithin.start_lt_stop) hle⟩

/-- Every piece ends before the next ones start. -/
theorem pairwise (h : Cut cs i ps) :
    ps.Pairwise fun p q => p.Within cs ∧ q.Within cs ∧ p.stop ≤ q.start := by
  induction h with
  | nil => exact .nil
  | cons hwithin hrest ih =>
    exact .cons (fun q hq => ⟨hwithin, (hrest.within hq).1, (hrest.within hq).2⟩) ih

/-- Every character is in a piece. -/
theorem exists_piece (h : Cut cs i ps) (hi : i ≤ j) (hj : j < cs.length) :
    ∃ p ∈ ps, p.start ≤ j ∧ j < p.stop := by
  induction h with
  | nil => omega
  | @cons p ps _ _ ih =>
    rcases Nat.lt_or_ge j p.stop with hlt | hge
    · exact ⟨p, List.mem_cons_self, hi, hlt⟩
    · obtain ⟨q, hq, hin⟩ := ih hge
      exact ⟨q, List.mem_cons_of_mem p hq, hin⟩

/-- No character is in two pieces. -/
theorem eq_of_mem (h : Cut cs i ps) (hp : p ∈ ps) (hq : q ∈ ps) (hpj : p.start ≤ j ∧ j < p.stop)
    (hqj : q.start ≤ j ∧ j < q.stop) : p = q := by
  induction h with
  | nil => cases hp
  | cons _ hrest ih =>
    rcases List.mem_cons.1 hp with rfl | hp' <;> rcases List.mem_cons.1 hq with rfl | hq'
    · rfl
    · have hle := (hrest.within hq').2
      omega
    · have hle := (hrest.within hp').2
      omega
    · exact ih hp' hq'

/-! ### Comments -/

/-- Every character of a comment piece is in a comment. -/
theorem inComment_of_comment (h : Cut cs i ps) (hp : p ∈ ps) (hk : p.lexeme = .comment)
    (hstart : p.start ≤ j) (hstop : j < p.stop) : InComment cs j := by
  have hwithin := (h.within hp).1
  have hfits := hwithin.fits
  rw [hk] at hfits
  obtain ⟨hhash, htext⟩ := hfits
  refine ⟨p.start, hstart, by rw [← hhash, List.head?_drop], fun k hk hkj hfeed => ?_⟩
  have hmem := hwithin.mem_text hk (Nat.lt_of_le_of_lt hkj hstop) hfeed
  rw [htext] at hmem
  simpa using List.all_eq_true.1 List.all_takeWhile _ hmem

/-- **A comment is one piece.** From its hash sign on, all characters before the next line feed
are in the piece that starts there. -/
theorem comment_of_inComment (h : Cut cs 0 ps) (hp : p ∈ ps) (hj : j < cs.length)
    (hpj : p.start ≤ j ∧ j < p.stop) (hcomment : InComment cs j) : p.lexeme = .comment := by
  obtain ⟨m, hm, hhash, hline⟩ := hcomment
  obtain ⟨q, hq, hqm⟩ := h.exists_piece (Nat.zero_le m) (Nat.lt_of_le_of_lt hm hj)
  have hwithin := (h.within hq).1
  have hfits := hwithin.fits
  have hmem := hwithin.mem_text hqm.1 hqm.2 hhash
  -- The hash sign is a character of the piece `q`, and only a comment has one.
  have hk : q.lexeme = .comment := by
    cases hk : q.lexeme with
    | comment => rfl
    | blank =>
      rw [hk] at hfits
      rcases hfits with htext | htext <;> simp [htext] at hmem
    | lineFeed | tab =>
      rw [hk] at hfits
      rw [show q.text = _ from hfits] at hmem
      simp at hmem
    | stray =>
      rw [hk] at hfits
      obtain ⟨hone, hgap, -⟩ := hfits
      obtain rfl := Piece.Within.eq_start hone hqm.1 hqm.2
      rw [List.head?_drop] at hgap
      exact absurd (by decide) (hgap '#' hhash)
    | token k =>
      rw [hk] at hfits
      exact absurd (by decide) (hfits.2.2 '#' hmem)
  -- No line feed stands between the hash sign and the character, so they are in one piece.
  have hqj : j < q.stop := by
    refine Nat.lt_of_not_le fun hle => ?_
    exact hline q.stop (Nat.le_of_lt hqm.2) hle
      (hwithin.lineFeed_after_comment hk (Nat.lt_of_le_of_lt hle hj))
  rw [h.eq_of_mem hp hq hpj ⟨Nat.le_trans hqm.1 hm, hqj⟩, hk]

end Cut

end Clausal.Token
