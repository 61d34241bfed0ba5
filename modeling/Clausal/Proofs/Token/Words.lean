import Clausal.Text.Numeral
import Clausal.Token.Scan
import Clausal.Ty

/-!
# Words

A word is a token without its place. The first part says what the texts of tokens look like
(`Regular`, `Short`). The second says which words survive being written into a text:

* `Word.IsLexeme`: before a blank or a line feed, the text of the word is cut off as one token of
  its kind. Names, numerals, fractions and symbols are lexemes.
* `scanFrom_words`: words written with single blanks between them are scanned as tokens with
  these kinds and texts. The blank in front of a word is what makes its minus sign a sign.
* `scanFrom_line`: a `Phrase`, which is words whose parentheses match and that do not end on a word
  that asks for more, is followed by a newline token where its line ends.
-/

namespace Clausal.Token

/-! ## The texts of tokens -/

/-- Whether a text is made of digits. -/
def isDigits (cs : List Char) : Bool :=
  !cs.isEmpty && cs.all Char.isDigit

/-- Whether a text is made of digits, with an optional minus sign. -/
def isNumeral : List Char → Bool
  | '-' :: cs => isDigits cs
  | cs => isDigits cs

/-- The text of a token is one that a token of its kind has in a text: an integer is written with
digits and an optional minus sign, a type with its name, a boolean with its keyword. -/
def Regular (t : Token) : Prop :=
  (t.kind = .integer → isNumeral t.text.toList = true) ∧
    (t.kind = .typeName → t.text ∈ ["int", "float", "bool"]) ∧
    (t.kind = .boolean → t.text ∈ ["true", "false"])

/-- An integer is not written with more digits than are ever converted. -/
def Short (t : Token) : Prop :=
  t.kind = .integer → t.text.toList.countP Char.isDigit ≤ Text.digitLimit

instance : DecidablePred Regular := fun _ => inferInstanceAs (Decidable (_ ∧ _ ∧ _))

instance : DecidablePred Short := fun _ => inferInstanceAs (Decidable (_ → _))

/-- Digits are one or more characters that are digits. -/
theorem isDigits_iff {cs : List Char} :
    isDigits cs = true ↔ cs ≠ [] ∧ ∀ c ∈ cs, c.isDigit = true := by
  simp [isDigits]

/-- What a numeral is read as. -/
theorem integer_of_isNumeral {cs : List Char} (h : isNumeral cs = true)
    (hlimit : cs.countP Char.isDigit ≤ Text.digitLimit) :
    Text.integer cs = .ok (Text.signedDecimal cs) := by
  unfold isNumeral at h
  split at h
  · next digits =>
    obtain ⟨hne, hdigits⟩ := isDigits_iff.1 h
    rw [List.countP_cons_of_neg (by decide), List.countP_eq_length.2 hdigits] at hlimit
    rw [Text.integer_minus_digits hne hdigits, if_neg (Nat.not_lt.2 hlimit)]
  · obtain ⟨hne, hdigits⟩ := isDigits_iff.1 h
    rw [List.countP_eq_length.2 hdigits] at hlimit
    rw [Text.integer_digits hne hdigits, if_neg (Nat.not_lt.2 hlimit)]

/-- The text of a regular type token is the name of a type. -/
theorem Regular.typeName {t : Token} (h : t.Regular) (hk : t.kind = .typeName) :
    ∃ ty : Ty, t.text = ty.name := by
  have htext := h.2.1 hk
  simp only [List.mem_cons, List.not_mem_nil, or_false] at htext
  rcases htext with htext | htext | htext
  · exact ⟨.int, htext⟩
  · exact ⟨.float, htext⟩
  · exact ⟨.bool, htext⟩

/-- Only numerals and keywords have a form. -/
theorem regular_short_of_kind {t : Token} (h : t.kind ∉ [.integer, .typeName, .boolean]) :
    t.Regular ∧ t.Short := by
  simp only [List.mem_cons, List.not_mem_nil, or_false, not_or] at h
  obtain ⟨hint, htype, hbool⟩ := h
  exact ⟨⟨fun hk => absurd hk hint, fun hk => absurd hk htype, fun hk => absurd hk hbool⟩,
    fun hk => absurd hk hint⟩

/-! ## Lexemes -/

/-- A token without its place. -/
structure Word where
  kind : Kind
  text : String
deriving DecidableEq, Repr

/-- The word of a token. -/
def word (t : Token) : Word :=
  ⟨t.kind, t.text⟩

/-- Before a blank or a line feed, where a minus sign is a sign, the text of the word is cut off
as a token of its kind. -/
def Word.IsLexeme (w : Word) : Prop :=
  ∃ c cs, w.text.toList = c :: cs ∧ ∀ sep rest, sep = ' ' ∨ sep = '\n' →
    readLexeme true c (cs ++ sep :: rest) = (.token w.kind, c :: cs, sep :: rest)

/-- The part of a text up to a separator that is not in the class. -/
theorem takeWhile_sep {p : Char → Bool} {cs : List Char} {sep : Char} (rest : List Char)
    (h : ∀ c ∈ cs, p c = true) (hsep : p sep = false) :
    (cs ++ sep :: rest).takeWhile p = cs ∧ (cs ++ sep :: rest).dropWhile p = sep :: rest := by
  rw [List.takeWhile_append_of_pos h, List.dropWhile_append_of_pos h]
  simp [hsep]

/-- A character of a class that the characters before numbers and names are not in. -/
theorem ne_special {p : Char → Bool} {c : Char} (h : p c = true)
    (hp : [' ', '\r', '\t', '\n', '#'].any p = false) :
    c ≠ ' ' ∧ c ≠ '\r' ∧ c ≠ '\t' ∧ c ≠ '\n' ∧ c ≠ '#' := by
  have hne : c ∉ [' ', '\r', '\t', '\n', '#'] := by
    intro hc
    rw [List.any_eq_true.2 ⟨c, hc, h⟩] at hp
    cases hp
  simpa using hne

/-- No digit starts a name. -/
theorem isDigit_of_isNameStart {c : Char} (h : isNameStart c = true) : c.isDigit = false := by
  cases hd : c.isDigit with
  | false => rfl
  | true =>
    obtain ⟨hlow, hhigh⟩ := Text.isDigit_bounds hd
    simp only [isNameStart, Bool.or_eq_true, decide_eq_true_eq] at h
    rcases h with h | rfl
    · have hbounds : (c.val ≥ 'a'.val && c.val ≤ 'z'.val) = true := h
      simp only [Bool.and_eq_true, decide_eq_true_eq, ge_iff_le, UInt32.le_iff_toNat_le] at hbounds
      have hval : c.toNat = c.val.toNat := rfl
      have ha : 'a'.val.toNat = 97 := rfl
      omega
    · cases hd

/-- A word that starts like a name and has the characters of one. -/
theorem isLexeme_name {c : Char} {cs : List Char} (hc : isNameStart c = true)
    (hcs : ∀ d ∈ cs, isNameChar d = true) {text : String} (htext : text.toList = c :: cs) :
    (Word.mk (Kind.ofWord text) text).IsLexeme := by
  refine ⟨c, cs, htext, fun sep rest hsep => ?_⟩
  obtain ⟨hspace, hreturn, htab, hfeed, hcomment⟩ := ne_special hc rfl
  have hminus : c ≠ '-' := by
    rintro rfl
    cases hc
  have hname : isNameChar sep = false := by rcases hsep with rfl | rfl <;> decide
  obtain ⟨htake, hdrop⟩ := takeWhile_sep rest hcs hname
  have hofList : String.ofList (c :: cs) = text := by rw [← htext, String.ofList_toList]
  simp [readLexeme, hspace, hreturn, htab, hfeed, hcomment, hminus, isDigit_of_isNameStart hc, hc,
    htake, hdrop, hofList]

/-- Digits are cut off before a separator. -/
theorem readNumber_digits {cs rest : List Char} {sep : Char} (h : ∀ c ∈ cs, c.isDigit = true)
    (hsep : sep = ' ' ∨ sep = '\n') :
    readNumber (cs ++ sep :: rest) = (.integer, cs, sep :: rest) := by
  have hdigit : sep.isDigit = false := by rcases hsep with rfl | rfl <;> decide
  obtain ⟨htake, hdrop⟩ := takeWhile_sep rest h hdigit
  unfold readNumber
  rw [htake, hdrop]
  rcases hsep with rfl | rfl <;> rfl

/-- Digits with a fraction are cut off before a separator. -/
theorem readNumber_fraction {cs ds rest : List Char} {sep : Char}
    (hcs : ∀ c ∈ cs, c.isDigit = true) (hds : ∀ c ∈ ds, c.isDigit = true) (hne : ds ≠ [])
    (hsep : sep = ' ' ∨ sep = '\n') :
    readNumber (cs ++ '.' :: ds ++ sep :: rest) = (.float, cs ++ '.' :: ds, sep :: rest) := by
  have hdigit : sep.isDigit = false := by rcases hsep with rfl | rfl <;> decide
  cases ds with
  | nil => exact absurd rfl hne
  | cons d ds =>
    obtain ⟨hd, hds'⟩ := List.forall_mem_cons.1 hds
    rw [List.append_assoc, List.cons_append, List.cons_append]
    obtain ⟨htake, hdrop⟩ := takeWhile_sep (d :: (ds ++ sep :: rest)) hcs
      (show '.'.isDigit = false by decide)
    obtain ⟨htake', hdrop'⟩ := takeWhile_sep rest hds' hdigit
    unfold readNumber
    rw [htake, hdrop]
    simp [hd, htake', hdrop']

/-- The lexeme at a digit is a number. -/
theorem readLexeme_digit {signed : Bool} {c : Char} (h : c.isDigit = true) (cs : List Char) :
    readLexeme signed c cs = (.token (readNumber (c :: cs)).1, (readNumber (c :: cs)).2) := by
  obtain ⟨hspace, hreturn, htab, hfeed, hcomment⟩ := ne_special h rfl
  simp [readLexeme, hspace, hreturn, htab, hfeed, hcomment, h]

/-- The lexeme at a minus sign before a digit is a number, where it is a sign. -/
theorem readLexeme_minus {c : Char} (h : c.isDigit = true) (cs : List Char) :
    readLexeme true '-' (c :: cs) = (.token (readNumber (c :: cs)).1,
      '-' :: (readNumber (c :: cs)).2.1, (readNumber (c :: cs)).2.2) := by
  have hstart : startsWithDigit (c :: cs) = true := h
  simp [readLexeme, hstart, show '-'.isDigit = false by decide]

/-- A text that is read as one number is a lexeme, and so it is after a minus sign. -/
theorem isLexeme_number {kind : Kind} {c : Char} {cs : List Char} (hc : c.isDigit = true)
    (hread : ∀ sep rest, sep = ' ' ∨ sep = '\n' →
      readNumber (c :: cs ++ sep :: rest) = (kind, c :: cs, sep :: rest))
    {text : String} (htext : text.toList = c :: cs ∨ text.toList = '-' :: c :: cs) :
    (Word.mk kind text).IsLexeme := by
  rcases htext with htext | htext
  · refine ⟨c, cs, htext, fun sep rest hsep => ?_⟩
    rw [readLexeme_digit hc, ← List.cons_append, hread sep rest hsep]
  · refine ⟨'-', c :: cs, htext, fun sep rest hsep => ?_⟩
    rw [List.cons_append, readLexeme_minus hc, ← List.cons_append, hread sep rest hsep]

/-- A numeral is scanned as it is written. -/
theorem isLexeme_numeral {text : String} (h : isNumeral text.toList = true) :
    (Word.mk .integer text).IsLexeme := by
  suffices key : ∀ digits, isDigits digits = true →
      text.toList = digits ∨ text.toList = '-' :: digits → (Word.mk .integer text).IsLexeme by
    unfold isNumeral at h
    split at h
    · next digits htext => exact key digits h (.inr htext)
    · exact key text.toList h (.inl rfl)
  intro digits hdigits htext
  obtain ⟨hne, hall⟩ := isDigits_iff.1 hdigits
  cases digits with
  | nil => exact absurd rfl hne
  | cons c cs =>
    exact isLexeme_number (hall c (by simp)) (fun sep rest hsep => readNumber_digits hall hsep)
      htext

/-- Digits, a point and digits, with an optional minus sign. -/
def IsFraction (text : String) : Prop :=
  ∃ whole fraction, isDigits whole = true ∧ isDigits fraction = true ∧
    (text.toList = whole ++ '.' :: fraction ∨ text.toList = '-' :: (whole ++ '.' :: fraction))

/-- So is a fraction. -/
theorem isLexeme_fraction {text : String} (h : IsFraction text) :
    (Word.mk .float text).IsLexeme := by
  obtain ⟨whole, fraction, hwhole, hfraction, htext⟩ := h
  obtain ⟨hne, hall⟩ := isDigits_iff.1 hwhole
  obtain ⟨hne', hall'⟩ := isDigits_iff.1 hfraction
  cases whole with
  | nil => exact absurd rfl hne
  | cons c cs =>
    exact isLexeme_number (hall c (by simp))
      (fun sep rest hsep => readNumber_fraction hall hall' hne' hsep) htext

/-! ## Lines of words -/

/-- A scan with more tokens in front. -/
def Scan.withTokens (ts : List Token) (s : Scan) : Scan :=
  { s with tokens := ts ++ s.tokens }

/-- Whether a word of this kind opens or closes a parenthesis. -/
def Kind.isParen : Kind → Bool
  | .lparen | .rparen => true
  | _ => false

/-- Whether a line can end on a word of this kind. -/
def Kind.completesLine (k : Kind) : Bool :=
  k ≠ .newline && !k.continuesLine

/-- How many parentheses are open after words, if `depth` were open before them. -/
def depthAfter (depth : Nat) (ws : List Word) : Nat :=
  ws.foldl (fun d w => match w.kind with
    | .lparen => d + 1
    | .rparen => d - 1
    | _ => d) depth

/-- Words with single blanks between them. -/
def spaced (ws : List Word) : String :=
  " ".intercalate (ws.map Word.text)

/-- Words are written with a blank between the first two. -/
theorem toList_spaced_cons_cons (w w' : Word) (ws : List Word) :
    (spaced (w :: w' :: ws)).toList = w.text.toList ++ ' ' :: (spaced (w' :: ws)).toList := by
  simp [spaced, String.toList_intercalate]

/-- A word that is scanned as it is written and has the form of its kind. -/
structure Word.Written (w : Word) : Prop where
  lexeme : w.IsLexeme
  regular : ∀ t : Token, t.word = w → t.Regular
  short : ∀ t : Token, t.word = w → t.Short

/-- Words that make up a line: they can be written, their parentheses match, and the last one does
not ask for more. -/
structure Phrase (ws : List Word) : Prop where
  written : ∀ w ∈ ws, w.Written
  balanced : ∀ depth, depthAfter depth ws = depth
  complete : ∃ w, ws.getLast? = some w ∧ w.kind.completesLine = true

/-- Parentheses are counted through words one after the other. -/
theorem depthAfter_append (depth : Nat) (ws vs : List Word) :
    depthAfter depth (ws ++ vs) = depthAfter (depthAfter depth ws) vs := by
  simp [depthAfter]

/-- A word that is no parenthesis does not count. -/
theorem depthAfter_cons {w : Word} (hw : w.kind.isParen = false) (depth : Nat) (ws : List Word) :
    depthAfter depth (w :: ws) = depthAfter depth ws := by
  obtain ⟨kind, text⟩ := w
  cases kind <;> simp_all [depthAfter, Kind.isParen]

namespace Phrase

variable {w : Word} {ws vs : List Word}

/-- Two phrases one after the other are a phrase. -/
theorem append (hws : Phrase ws) (hvs : Phrase vs) : Phrase (ws ++ vs) where
  written := by
    intro w hw
    rcases List.mem_append.1 hw with hw | hw
    · exact hws.written w hw
    · exact hvs.written w hw
  balanced := fun depth => by rw [depthAfter_append, hws.balanced, hvs.balanced]
  complete := by
    obtain ⟨w, hw, hkind⟩ := hvs.complete
    exact ⟨w, by rw [List.getLast?_append, hw, Option.some_or], hkind⟩

/-- A word that is no parenthesis can stand in front. -/
theorem cons (hw : w.Written) (hparen : w.kind.isParen = false) (hws : Phrase ws) :
    Phrase (w :: ws) where
  written := List.forall_mem_cons.2 ⟨hw, hws.written⟩
  balanced := fun depth => by rw [depthAfter_cons hparen, hws.balanced]
  complete := by
    obtain ⟨v, hv, hkind⟩ := hws.complete
    exact ⟨v, by rw [List.getLast?_cons, hv, Option.getD_some], hkind⟩

/-- One word that is no parenthesis and does not ask for more. -/
theorem singleton (hw : w.Written) (hparen : w.kind.isParen = false)
    (hcomplete : w.kind.completesLine = true) : Phrase [w] where
  written := by
    intro v hv
    rwa [List.mem_singleton.1 hv]
  balanced := fun depth => depthAfter_cons hparen depth []
  complete := ⟨w, rfl, hcomplete⟩

end Phrase

section Scanning

variable {file : String} {cur : Cursor}

/-- A word before a separator is scanned as one token. -/
theorem scanFrom_lexeme {w : Word} (hw : w.IsLexeme) (hs : cur.signed = true) {sep : Char}
    (hsep : sep = ' ' ∨ sep = '\n') (rest : List Char) :
    ∃ t : Token, t.word = w ∧ scanFrom file cur (w.text.toList ++ sep :: rest) =
      (scanFrom file ((cur.past w.text.toList).after w.kind) (sep :: rest)).withToken t := by
  obtain ⟨c, cs, htext, hread⟩ := hw
  have hofList : String.ofList (c :: cs) = w.text := by rw [← htext, String.ofList_toList]
  refine ⟨⟨w.kind, w.text, .between file cur.pos (cur.past (c :: cs)).pos⟩, rfl, ?_⟩
  rw [htext, List.cons_append, scanFrom, hs, hread sep rest hsep]
  dsimp only
  rw [hofList]

/-- A blank is skipped. -/
theorem scanFrom_space (rest : List Char) :
    scanFrom file cur (' ' :: rest) = scanFrom file (cur.past [' ']) rest := by
  rw [scanFrom]
  rfl

/-- A line feed where a line can end is the token that ends it. -/
theorem scanFrom_lineFeed (h : cur.endsLine = true) (rest : List Char) :
    ∃ stop : Token, stop.kind = .newline ∧ scanFrom file cur ('\n' :: rest) =
      (scanFrom file ((cur.past ['\n']).after .newline) rest).withToken stop := by
  refine ⟨⟨.newline, "\n", .between file cur.pos (cur.past ['\n']).pos⟩, rfl, ?_⟩
  rw [scanFrom]
  simp [readLexeme, h]

/-- After a word and a blank, a minus sign is a sign. -/
theorem signed_past_space (cur : Cursor) (k : Kind) : ((cur.after k).past [' ']).signed = true := by
  simp [Cursor.signed, Cursor.past, Cursor.after]

/-- Words with blanks between them are scanned as their tokens. -/
theorem scanFrom_words (w : Word) (ws : List Word) (hws : ∀ v ∈ w :: ws, v.IsLexeme)
    (hs : cur.signed = true) (rest : List Char) :
    ∃ (ts : List Token) (next : Cursor), ts.map word = w :: ws ∧
      next.depth = depthAfter cur.depth (w :: ws) ∧
      next.last = ((w :: ws).getLast?).map Word.kind ∧
      scanFrom file cur ((spaced (w :: ws)).toList ++ '\n' :: rest) =
        (scanFrom file next ('\n' :: rest)).withTokens ts := by
  induction ws generalizing w cur with
  | nil =>
    obtain ⟨t, ht, hscan⟩ := scanFrom_lexeme (hws w (by simp)) hs (.inr rfl) rest
    refine ⟨[t], (cur.past w.text.toList).after w.kind, by rw [List.map_singleton, ht], rfl, rfl,
      ?_⟩
    rw [spaced, List.map_singleton, String.intercalate_singleton, hscan]
    rfl
  | cons w' ws ih =>
    obtain ⟨t, ht, hscan⟩ := scanFrom_lexeme (hws w (by simp)) hs (.inl rfl)
      ((spaced (w' :: ws)).toList ++ '\n' :: rest)
    obtain ⟨ts, next, hts, hdepth, hlast, htail⟩ :=
      ih w' (fun v hv => hws v (List.mem_cons_of_mem w hv))
        (signed_past_space (cur.past w.text.toList) w.kind)
    refine ⟨t :: ts, next, by rw [List.map_cons, ht, hts], hdepth, ?_, ?_⟩
    · rw [hlast, List.getLast?_cons_cons]
    · rw [toList_spaced_cons_cons, List.append_assoc, List.cons_append, hscan, scanFrom_space,
        htail]
      rfl

/-- A line of words is scanned as its tokens and the end of a line. -/
theorem scanFrom_line (file : String) {ws : List Word} (h : Phrase ws) (hs : cur.signed = true)
    (hdepth : cur.depth = 0) (rest : List Char) :
    ∃ (ts : List Token) (stop : Token) (next : Cursor), ts.map word = ws ∧ stop.kind = .newline ∧
      next.depth = 0 ∧ next.last = some .newline ∧
      scanFrom file cur ((spaced ws).toList ++ '\n' :: rest) =
        (scanFrom file next rest).withTokens (ts ++ [stop]) := by
  obtain ⟨v, hlast, hcomplete⟩ := h.complete
  cases ws with
  | nil => cases hlast
  | cons w ws =>
    obtain ⟨ts, next, hts, hnext, hlast', hscan⟩ :=
      scanFrom_words w ws (fun v hv => (h.written v hv).lexeme) hs rest
    rw [hdepth, h.balanced] at hnext
    rw [hlast] at hlast'
    have hends : next.endsLine = true := by
      simpa [Cursor.endsLine, hlast', hnext, Kind.completesLine] using hcomplete
    obtain ⟨stop, hstop, hfeed⟩ := scanFrom_lineFeed hends rest
    refine ⟨ts, stop, (next.past ['\n']).after .newline, hts, hstop, hnext, rfl, ?_⟩
    rw [hscan, hfeed]
    simp [Scan.withTokens, Scan.withToken]

end Scanning

end Clausal.Token
