import Clausal.Diagnostic
import Clausal.Token

/-!
# Scanning

`Token.scan` turns a source text into tokens. The text is cut into lexemes: blanks, comments, line
feeds, tokens, and characters that belong to none of these, which are reported and left out. Two
decisions need more than the characters at hand, so a `Cursor` travels along:

* a minus sign before a digit is the sign of a literal unless it follows a value directly;
* a line feed ends the line only outside parentheses, after a token that can end one.

Scanning never stops early: the tokens around a bad character are all there.
-/

namespace Clausal.Token

/-- Whether a character can start an identifier. -/
def isNameStart (c : Char) : Bool :=
  c.isLower || c = '_'

/-- Whether a character can stand inside an identifier. -/
def isNameChar (c : Char) : Bool :=
  c.isAlphanum || c = '_'

/-- What a lexeme is. -/
inductive Lexeme where
  | blank
  | comment
  | lineFeed
  | tab
  | stray
  | token (kind : Kind)
deriving DecidableEq, Repr, Inhabited

/-! ## Cutting off one lexeme

Each reader returns the class of the lexeme at the front of a text, its characters, and the rest.
-/

/-- Digits, with a fraction if a point and a digit follow them. -/
def readNumber (cs : List Char) : Kind × List Char × List Char :=
  let whole := cs.takeWhile Char.isDigit
  match cs.dropWhile Char.isDigit with
  | '.' :: d :: rest =>
    if d.isDigit then
      (.float, whole ++ '.' :: d :: rest.takeWhile Char.isDigit, rest.dropWhile Char.isDigit)
    else (.integer, whole, '.' :: d :: rest)
  | rest => (.integer, whole, rest)

/-- An operator or a bracket, the longer one where two fit. -/
def readSymbol? : List Char → Option (Kind × List Char × List Char)
  | '=' :: '=' :: r => some (.equal, ['=', '='], r)
  | '!' :: '=' :: r => some (.notEqual, ['!', '='], r)
  | '-' :: '>' :: r => some (.arrow, ['-', '>'], r)
  | ':' :: ':' :: r => some (.doubleColon, [':', ':'], r)
  | '+' :: r => some (.plus, ['+'], r)
  | '-' :: r => some (.minus, ['-'], r)
  | '*' :: r => some (.star, ['*'], r)
  | '/' :: r => some (.slash, ['/'], r)
  | '=' :: r => some (.assign, ['='], r)
  | '?' :: r => some (.question, ['?'], r)
  | ':' :: r => some (.colon, [':'], r)
  | '(' :: r => some (.lparen, ['('], r)
  | ')' :: r => some (.rparen, [')'], r)
  | _ => none

/-- Whether the rest of a text starts with a digit. -/
def startsWithDigit : List Char → Bool
  | [] => false
  | c :: _ => c.isDigit

/-- The lexeme at the front of `c :: cs`; `signed` says whether a minus sign before a digit is
part of a literal here. -/
def readLexeme (signed : Bool) (c : Char) (cs : List Char) : Lexeme × List Char × List Char :=
  if c = ' ' ∨ c = '\r' then (.blank, [c], cs)
  else if c = '\t' then (.tab, [c], cs)
  else if c = '\n' then (.lineFeed, [c], cs)
  else if c = '#' then (.comment, c :: cs.takeWhile (· ≠ '\n'), cs.dropWhile (· ≠ '\n'))
  else if c.isDigit then
    let (k, text, rest) := readNumber (c :: cs)
    (.token k, text, rest)
  else if c = '-' ∧ startsWithDigit cs = true ∧ signed = true then
    let (k, text, rest) := readNumber cs
    (.token k, '-' :: text, rest)
  else if isNameStart c then
    let text := c :: cs.takeWhile isNameChar
    (.token (Kind.ofWord (String.ofList text)), text, cs.dropWhile isNameChar)
  else match readSymbol? (c :: cs) with
    | some (k, text, rest) => (.token k, text, rest)
    | none => (.stray, [c], cs)

/-- The characters of a number and the rest are the text it was read from. -/
theorem readNumber_append (cs : List Char) :
    (readNumber cs).2.1 ++ (readNumber cs).2.2 = cs := by
  have h := List.takeWhile_append_dropWhile (p := Char.isDigit) (l := cs)
  unfold readNumber
  split
  · rename_i d rest hd
    split
    · have hr := List.takeWhile_append_dropWhile (p := Char.isDigit) (l := rest)
      rw [hd] at h
      simpa [hr] using h
    · rw [hd] at h
      exact h
  · exact h

/-- The characters of a symbol and the rest are the text it was read from, and there are some. -/
theorem readSymbol?_append {cs : List Char} {k : Kind} {text rest : List Char}
    (h : readSymbol? cs = some (k, text, rest)) : text ++ rest = cs ∧ text ≠ [] := by
  unfold readSymbol? at h
  split at h <;> cases h <;> simp

/-- A number is not empty where a digit stands in front. -/
theorem readNumber_ne_nil {c : Char} {cs : List Char} (h : c.isDigit = true) :
    (readNumber (c :: cs)).2.1 ≠ [] := by
  unfold readNumber
  split
  · split <;> simp [h]
  · simp [h]

/-- A lexeme and the rest are the text it was read from. -/
theorem readLexeme_append (signed : Bool) (c : Char) (cs : List Char) :
    (readLexeme signed c cs).2.1 ++ (readLexeme signed c cs).2.2 = c :: cs := by
  unfold readLexeme
  split <;> try rfl
  split <;> try rfl
  split <;> try rfl
  split
  · simp [List.takeWhile_append_dropWhile]
  split
  · exact readNumber_append (c :: cs)
  split
  · rename_i h
    simp [readNumber_append cs, h.1]
  split
  · simp [List.takeWhile_append_dropWhile]
  split
  · rename_i h
    exact (readSymbol?_append h).1
  · rfl

/-- A lexeme has at least one character. -/
theorem readLexeme_ne_nil (signed : Bool) (c : Char) (cs : List Char) :
    (readLexeme signed c cs).2.1 ≠ [] := by
  unfold readLexeme
  split <;> try simp
  split <;> try simp
  split <;> try simp
  split <;> try simp
  split
  · rename_i h
    exact readNumber_ne_nil h
  split <;> try simp
  split <;> try simp
  split
  · rename_i h
    exact (readSymbol?_append h).2
  · simp

/-- Cutting off a lexeme makes a text shorter. -/
theorem readLexeme_length_lt (signed : Bool) (c : Char) (cs : List Char) :
    (readLexeme signed c cs).2.2.length < (c :: cs).length := by
  have happ := congrArg List.length (readLexeme_append signed c cs)
  have hne := List.length_pos_iff.mpr (readLexeme_ne_nil signed c cs)
  rw [List.length_append] at happ
  omega

/-! ## Faults of characters -/

/-- Why a character belongs to no token. -/
inductive ScanCause where
  | tab
  | stray (c : Char)
deriving DecidableEq, Repr, Inhabited

/-- The wording of a cause. -/
def ScanCause.message : ScanCause → String
  | .tab => "tabs are not allowed; use spaces"
  | .stray c => "unexpected character " ++ String.ofList (Text.quoted [c])

/-- A character that belongs to no token, and its place. -/
structure ScanFault where
  cause : ScanCause
  span : Span
deriving DecidableEq, Repr, Inhabited

/-- The diagnostic that reports a bad character. -/
def ScanFault.diagnostic (f : ScanFault) : Diagnostic :=
  .error "E100" f.cause.message f.span

/-! ## The scanner -/

/-- What the scanner remembers of the text before it. -/
structure Cursor where
  /-- Where the next character stands. -/
  pos : Position := {}
  /-- How many parentheses are open. -/
  depth : Nat := 0
  /-- The kind of the last token. -/
  last : Option Kind := none
  /-- Whether the last character was a space. -/
  spaced : Bool := false
deriving DecidableEq, Repr, Inhabited

namespace Cursor

/-- Whether a minus sign before a digit is a sign here: it is one at the start, after a token that
does not complete a value, and after a space. -/
def signed (cur : Cursor) : Bool :=
  match cur.last with
  | none => true
  | some k => !k.completesValue || cur.spaced

/-- Whether a line feed ends the line here. -/
def endsLine (cur : Cursor) : Bool :=
  match cur.last with
  | none => false
  | some k => cur.depth = 0 && k ≠ .newline && !k.continuesLine

/-- The cursor after some more characters. -/
def past (cur : Cursor) (text : List Char) : Cursor :=
  { cur with pos := cur.pos.advance text, spaced := text.getLast? = some ' ' }

/-- The cursor after a token. -/
def after (cur : Cursor) (k : Kind) : Cursor :=
  { cur with
    last := some k
    depth := match k with
      | .lparen => cur.depth + 1
      | .rparen => cur.depth - 1
      | _ => cur.depth }

end Cursor

/-- The result of scanning: the tokens, the bad characters, and the parentheses left open. -/
structure Scan where
  tokens : List Token := []
  faults : List ScanFault := []
  depth : Nat := 0
deriving DecidableEq, Repr, Inhabited

namespace Scan

/-- A scan with one more token in front. -/
def withToken (t : Token) (s : Scan) : Scan :=
  { s with tokens := t :: s.tokens }

/-- A scan with one more fault in front. -/
def withFault (f : ScanFault) (s : Scan) : Scan :=
  { s with faults := f :: s.faults }

end Scan

/-- The tokens at the end of a text: the end of the last line, if that is not marked yet, and the
end of the file. -/
def endTokens (file : String) (cur : Cursor) : List Token :=
  let here := Span.between file cur.pos cur.pos
  match cur.last with
  | none => [⟨.eof, "", here⟩]
  | some k => if k = .newline then [⟨.eof, "", here⟩] else [⟨.newline, "", here⟩, ⟨.eof, "", here⟩]

/-- Scans the text that follows a cursor. -/
def scanFrom (file : String) (cur : Cursor) : List Char → Scan
  | [] => { tokens := endTokens file cur, depth := cur.depth }
  | c :: cs =>
    let lexeme := readLexeme cur.signed c cs
    let text := lexeme.2.1
    let next := cur.past text
    let span := Span.between file cur.pos next.pos
    match lexeme.1 with
    | .blank | .comment => scanFrom file next lexeme.2.2
    | .lineFeed =>
      if cur.endsLine then
        (scanFrom file (next.after .newline) lexeme.2.2).withToken ⟨.newline, "\n", span⟩
      else scanFrom file next lexeme.2.2
    | .tab =>
      (scanFrom file next lexeme.2.2).withFault ⟨.tab, .single file cur.pos⟩
    | .stray =>
      (scanFrom file next lexeme.2.2).withFault ⟨.stray c, .single file cur.pos⟩
    | .token k =>
      (scanFrom file (next.after k) lexeme.2.2).withToken ⟨k, String.ofList text, span⟩
termination_by cs => cs.length
decreasing_by all_goals exact readLexeme_length_lt cur.signed c cs

/-- Scans a whole source text. -/
def scan (text file : String) : Scan :=
  scanFrom file {} text.toList

end Clausal.Token
