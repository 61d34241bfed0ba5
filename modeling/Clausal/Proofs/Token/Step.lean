import Clausal.Proofs.Token.Words

/-!
# Steps of the scanner

The scanner takes a text lexeme by lexeme. `Cursor.step` is what it does with one of them, and
`scanFrom_cons` says that a scan is such a step and a scan of what is left. The facts below are
proved once for a step and carried to a scan by `scan_induction`:

* `scanFrom_below`: a text that stands further down is scanned as the same tokens, further down;
* `scanFrom_append`: no lexeme reaches over a line feed, so what stands before a line feed is
  scanned as if the text ended there, up to the tokens that mark the end.

`readSymbol?_eq` gives the reader of symbols as a search in a table, from which its other properties
follow.
-/

namespace Clausal

/-! ## Places further down -/

/-- The position `n` lines further down. -/
def Position.down (n : Nat) (p : Position) : Position :=
  ⟨p.line + n, p.col⟩

/-- The span `n` lines further down. -/
def Span.down (n : Nat) (s : Span) : Span :=
  { s with startLine := s.startLine + n, endLine := s.endLine + n }

/-- A step over a character is the same some lines further down. -/
theorem Position.step_down (n : Nat) (p : Position) (c : Char) :
    (p.down n).step c = (p.step c).down n := by
  unfold step down
  split
  · exact congrArg (Position.mk · 1) (Nat.add_right_comm p.line n 1)
  · rfl

/-- So is a step over a text. -/
theorem Position.advance_down (n : Nat) (p : Position) (cs : List Char) :
    (p.down n).advance cs = (p.advance cs).down n := by
  induction cs generalizing p with
  | nil => rfl
  | cons c cs ih => rw [advance_cons, advance_cons, step_down, ih]

/-- The start of a text, after some characters and a line feed. -/
theorem Position.advance_lineFeed (cs : List Char) :
    (({} : Position).advance cs).step '\n' = ({} : Position).down (cs.count '\n' + 1) := by
  suffices key : ∀ p : Position, (p.advance cs).step '\n' = ⟨p.line + cs.count '\n' + 1, 1⟩ by
    rw [key, down, Nat.add_assoc]
  induction cs with
  | nil => exact fun p => rfl
  | cons c cs ih =>
    intro p
    rw [advance_cons, ih, step, List.count_cons]
    by_cases hc : c = '\n'
    · have hsum : p.line + 1 + cs.count '\n' = p.line + (cs.count '\n' + 1) := by omega
      simp [hc, hsum]
    · simp [hc]

namespace Span

theorem upTo_down (n : Nat) (a b : Span) : (a.upTo b).down n = (a.down n).upTo (b.down n) := rfl

/-- A span between positions further down is the span further down. -/
theorem between_down (file : String) (n : Nat) (p q : Position) :
    between file (p.down n) (q.down n) = (between file p q).down n := by
  simp [between, down, Position.down]

/-- So is a span of one character. -/
theorem single_down (file : String) (n : Nat) (p : Position) :
    single file (p.down n) = (single file p).down n := by
  simp [single, down, Position.down]

end Span

/-- The token `n` lines further down. -/
def Token.down (n : Nat) (t : Token) : Token :=
  { t with span := t.span.down n }

namespace Token

/-- The fault `n` lines further down. -/
def ScanFault.down (n : Nat) (f : ScanFault) : ScanFault :=
  { f with span := f.span.down n }

/-! ## One step -/

/-- What one lexeme gives: tokens, faults, and the cursor after it. -/
structure Step where
  tokens : List Token := []
  faults : List ScanFault := []
  next : Cursor

/-- What the scanner does with a lexeme that starts with `c`. -/
def Cursor.step (file : String) (cur : Cursor) (c : Char) (lexeme : Lexeme) (text : List Char) :
    Step :=
  let next := cur.past text
  let span := Span.between file cur.pos next.pos
  match lexeme with
  | .blank | .comment => { next }
  | .lineFeed =>
    if cur.endsLine then { tokens := [⟨.newline, "\n", span⟩], next := next.after .newline }
    else { next }
  | .tab => { faults := [⟨.tab, .single file cur.pos⟩], next }
  | .stray => { faults := [⟨.stray c, .single file cur.pos⟩], next }
  | .token k => { tokens := [⟨k, String.ofList text, span⟩], next := next.after k }

/-- A scan with what a step gives in front. -/
def Scan.withStep (s : Step) (r : Scan) : Scan :=
  { r with tokens := s.tokens ++ r.tokens, faults := s.faults ++ r.faults }

section Steps

variable {file : String} {cur : Cursor} {c : Char} {lexeme : Lexeme} {text : List Char}

/-- The step at the front of a text. -/
def Cursor.stepAt (file : String) (cur : Cursor) (c : Char) (cs : List Char) : Step :=
  cur.step file c (readLexeme cur.signed c cs).1 (readLexeme cur.signed c cs).2.1

/-- **A scan is a step and a scan of what is left.** -/
theorem scanFrom_cons (file : String) (cur : Cursor) (c : Char) (cs : List Char) :
    scanFrom file cur (c :: cs) =
      (scanFrom file (cur.stepAt file c cs).next (readLexeme cur.signed c cs).2.2).withStep
        (cur.stepAt file c cs) := by
  rw [scanFrom, Cursor.stepAt]
  cases hk : (readLexeme cur.signed c cs).1 with
  | lineFeed =>
    dsimp only [Cursor.step]
    split <;> rfl
  | blank | comment | tab | stray | token k => rfl

/-- What holds at the end of a text and is carried back over every step holds of every text. -/
theorem scan_induction (file : String) {motive : Cursor → List Char → Prop}
    (nil : ∀ cur, motive cur [])
    (cons : ∀ cur c cs, motive (cur.stepAt file c cs).next (readLexeme cur.signed c cs).2.2 →
      motive cur (c :: cs)) (cur : Cursor) : ∀ cs, motive cur cs
  | [] => nil cur
  | c :: cs => cons cur c cs (scan_induction file nil cons _ _)
termination_by cs => cs.length
decreasing_by exact readLexeme_length_lt cur.signed c cs

/-- A step goes over its text. -/
theorem step_pos : (cur.step file c lexeme text).next.pos = cur.pos.advance text := by
  cases lexeme with
  | lineFeed =>
    dsimp only [Cursor.step]
    split <;> rfl
  | blank | comment | tab | stray | token k => rfl

/-- A step counts the parentheses among its tokens. -/
theorem step_depth :
    (cur.step file c lexeme text).next.depth =
      depthAfter cur.depth ((cur.step file c lexeme text).tokens.map word) := by
  cases lexeme with
  | lineFeed =>
    dsimp only [Cursor.step]
    split <;> rfl
  | blank | comment | tab | stray | token k => rfl

/-- A step remembers its last token, or the one before it if it has none. -/
theorem step_last :
    (cur.step file c lexeme text).next.last =
      ((cur.step file c lexeme text).tokens.getLast?.map Token.kind).or cur.last := by
  cases lexeme with
  | lineFeed =>
    dsimp only [Cursor.step]
    split <;> rfl
  | blank | comment | tab | stray | token k => rfl

end Steps

/-! ## Texts further down -/

/-- The second cursor stands `n` lines below the first, and has read nothing more that matters: at
the start of a text it makes no difference whether a line has ended before. -/
structure Cursor.Below (n : Nat) (cur cur' : Cursor) : Prop where
  pos : cur'.pos = cur.pos.down n
  depth : cur'.depth = cur.depth
  spaced : cur'.spaced = cur.spaced
  last : cur'.last = cur.last ∨ cur.last = none ∧ cur'.last = some .newline

/-- The scan of a text `n` lines further down. -/
def Scan.down (n : Nat) (s : Scan) : Scan :=
  { s with tokens := s.tokens.map (Token.down n), faults := s.faults.map (ScanFault.down n) }

namespace Cursor.Below

variable {file : String} {n : Nat} {cur cur' : Cursor}

/-- Further down, a minus sign is a sign in the same places. -/
theorem signed (h : Below n cur cur') : cur'.signed = cur.signed := by
  unfold Cursor.signed
  rcases h.last with hlast | ⟨hnone, hnewline⟩
  · rw [hlast, h.spaced]
  · rw [hnone, hnewline]
    rfl

/-- Further down, a line ends in the same places. -/
theorem endsLine (h : Below n cur cur') : cur'.endsLine = cur.endsLine := by
  unfold Cursor.endsLine
  rcases h.last with hlast | ⟨hnone, hnewline⟩
  · rw [hlast, h.depth]
  · rw [hnone, hnewline]
    simp

/-- Two cursors go over a text in parallel. -/
theorem past (h : Below n cur cur') (text : List Char) :
    Below n (cur.past text) (cur'.past text) where
  pos := by
    show cur'.pos.advance text = (cur.pos.advance text).down n
    rw [h.pos, Position.advance_down]
  depth := h.depth
  spaced := rfl
  last := h.last

/-- Two cursors remember a token in parallel. -/
theorem after (h : Below n cur cur') (k : Kind) : Below n (cur.after k) (cur'.after k) where
  pos := h.pos
  depth := by
    unfold Cursor.after
    rw [h.depth]
  spaced := h.spaced
  last := .inl rfl

/-- One step further down. -/
theorem step (file : String) (h : Below n cur cur') (c : Char) (lexeme : Lexeme)
    (text : List Char) :
    (cur'.step file c lexeme text).tokens =
        (cur.step file c lexeme text).tokens.map (Token.down n) ∧
      (cur'.step file c lexeme text).faults =
        (cur.step file c lexeme text).faults.map (ScanFault.down n) ∧
      Below n (cur.step file c lexeme text).next (cur'.step file c lexeme text).next := by
  have hspan : Span.between file cur'.pos (cur'.past text).pos =
      (Span.between file cur.pos (cur.past text).pos).down n := by
    rw [h.pos, (h.past text).pos, Span.between_down]
  have hsingle : Span.single file cur'.pos = (Span.single file cur.pos).down n := by
    rw [h.pos, Span.single_down]
  cases lexeme with
  | blank | comment => exact ⟨rfl, rfl, h.past text⟩
  | lineFeed =>
    dsimp only [Cursor.step]
    rw [h.endsLine, hspan]
    split
    · exact ⟨rfl, rfl, (h.past text).after .newline⟩
    · exact ⟨rfl, rfl, h.past text⟩
  | tab | stray =>
    dsimp only [Cursor.step]
    rw [hsingle]
    exact ⟨rfl, rfl, h.past text⟩
  | token k =>
    dsimp only [Cursor.step]
    rw [hspan]
    exact ⟨rfl, rfl, (h.past text).after k⟩

/-- The tokens at the end of the text are the same, further down. -/
theorem endTokens (h : Below n cur cur') :
    endTokens file cur' = (endTokens file cur).map (Token.down n) := by
  unfold Token.endTokens
  rw [h.pos, Span.between_down]
  rcases h.last with hlast | ⟨hnone, hnewline⟩
  · rw [hlast]
    cases cur.last with
    | none => rfl
    | some k =>
      dsimp only
      split <;> rfl
  · rw [hnone, hnewline]
    rfl

end Cursor.Below

/-- **A text further down** is scanned as the same tokens, further down. -/
theorem scanFrom_below (file : String) {n : Nat} (cur : Cursor) (cs : List Char) :
    ∀ cur', Cursor.Below n cur cur' → scanFrom file cur' cs = (scanFrom file cur cs).down n := by
  refine scan_induction file (motive := fun cur cs => ∀ cur', Cursor.Below n cur cur' →
    scanFrom file cur' cs = (scanFrom file cur cs).down n) ?_ ?_ cur cs
  · intro cur cur' h
    rw [scanFrom, scanFrom, h.endTokens, h.depth]
    rfl
  · intro cur c cs ih cur' h
    obtain ⟨htokens, hfaults, hnext⟩ := h.step file c (readLexeme cur.signed c cs).1
      (readLexeme cur.signed c cs).2.1
    rw [scanFrom_cons, scanFrom_cons, Cursor.stepAt, Cursor.stepAt, h.signed, ih _ hnext]
    simp [Scan.withStep, Scan.down, htokens, hfaults, Cursor.stepAt]

/-! ## Symbols -/

/-- The symbols, a longer one before those it starts with. -/
def symbols : List (Kind × List Char) :=
  [(.equal, ['=', '=']), (.notEqual, ['!', '=']), (.arrow, ['-', '>']), (.doubleColon, [':', ':']),
    (.plus, ['+']), (.minus, ['-']), (.star, ['*']), (.slash, ['/']), (.assign, ['=']),
    (.question, ['?']), (.colon, [':']), (.lparen, ['(']), (.rparen, [')'])]

/-- The symbol at the front of a text is the first one of the table that the text starts with. -/
theorem readSymbol?_eq (cs : List Char) : readSymbol? cs =
    (symbols.find? fun s => s.2.isPrefixOf cs).map fun s => (s.1, s.2, cs.drop s.2.length) := by
  have hother : ∀ {d : Char} {r : List Char}, (∀ r', r = d :: r' → False) →
      [d].isPrefixOf r = false := by
    intro d r h
    cases r with
    | nil => rfl
    | cons d' r =>
      have hne : d ≠ d' := by
        rintro rfl
        exact h r rfl
      simp [List.isPrefixOf, hne]
  unfold readSymbol?
  split
  -- Where a symbol starts a longer one, the longer one does not fit.
  case h_6 r h => simp [symbols, List.find?, List.isPrefixOf, hother h]
  case h_9 r h => simp [symbols, List.find?, List.isPrefixOf, hother h]
  case h_11 r h => simp [symbols, List.find?, List.isPrefixOf, hother h]
  case h_14 =>
    have hnone : ∀ s ∈ symbols, ∀ r, cs = s.2 ++ r → False := by
      simp only [symbols, List.forall_mem_cons, List.cons_append, List.nil_append,
        List.not_mem_nil, false_implies, implies_true, and_true]
      and_intros <;> assumption
    rw [List.find?_eq_none.2, Option.map_none]
    intro s hs hfront
    obtain ⟨r, hr⟩ := List.isPrefixOf_iff_prefix.1 hfront
    exact hnone s hs r hr.symm
  all_goals rfl

/-- A symbol that is found is in the table, and the text starts with it. -/
theorem exists_of_find?_symbols {cs : List Char} {s : Kind × List Char}
    (h : (symbols.find? fun s => s.2.isPrefixOf cs) = some s) :
    s ∈ symbols ∧ ∃ r, s.2 ++ r = cs := by
  have hfront := List.find?_some h
  exact ⟨List.mem_of_find?_eq_some h, List.isPrefixOf_iff_prefix.1 hfront⟩

/-- A symbol that is read is one of the table. -/
theorem mem_symbols_of_readSymbol? {cs text rest : List Char} {k : Kind}
    (h : readSymbol? cs = some (k, text, rest)) : (k, text) ∈ symbols := by
  rw [readSymbol?_eq] at h
  obtain ⟨s, hs, heq⟩ := Option.map_eq_some_iff.1 h
  cases heq
  exact (exists_of_find?_symbols hs).1

/-- Where no symbol is read, none is in front. -/
theorem not_front_of_readSymbol? {cs : List Char} (h : readSymbol? cs = none) :
    ∀ s ∈ symbols, ¬ s.2 <+: cs := by
  rw [readSymbol?_eq, Option.map_eq_none_iff, List.find?_eq_none] at h
  intro s hs hfront
  exact h s hs (List.isPrefixOf_iff_prefix.2 hfront)

/-- A text goes on behind what stands in front of it, if that does not hold the next character. -/
theorem isPrefixOf_append_cons {x : Char} {front : List Char} (h : x ∉ front) (cs ds : List Char) :
    front.isPrefixOf (cs ++ x :: ds) = front.isPrefixOf cs := by
  induction front generalizing cs with
  | nil => simp [List.isPrefixOf]
  | cons c front ih =>
    rw [List.mem_cons, not_or] at h
    cases cs with
    | nil => simp [List.isPrefixOf, Ne.symm h.1]
    | cons d cs => simp [List.isPrefixOf, ih h.2]

/-! ## Texts before a line feed -/

section LineFeed

variable (ds : List Char)

/-- What stops at a line feed does not look behind it. -/
theorem takeWhile_lineFeed {p : Char → Bool} (hp : p '\n' = false) (cs : List Char) :
    (cs ++ '\n' :: ds).takeWhile p = cs.takeWhile p ∧
      (cs ++ '\n' :: ds).dropWhile p = cs.dropWhile p ++ '\n' :: ds := by
  induction cs with
  | nil => simp [hp]
  | cons c cs ih =>
    cases hc : p c with
    | true => simp [hc, ih]
    | false => simp [hc]

/-- A number does not go beyond a line feed. -/
theorem readNumber_lineFeed (cs : List Char) :
    readNumber (cs ++ '\n' :: ds) =
      ((readNumber cs).1, (readNumber cs).2.1, (readNumber cs).2.2 ++ '\n' :: ds) := by
  have hdigits : ∀ cs : List Char, _ := takeWhile_lineFeed ds (show '\n'.isDigit = false by decide)
  unfold readNumber
  rw [(hdigits cs).1, (hdigits cs).2]
  -- What follows the digits decides whether they are a fraction; a line feed is neither a point
  -- nor a digit.
  rcases cs.dropWhile Char.isDigit with _ | ⟨c, _ | ⟨d, rest⟩⟩
  · rfl
  · by_cases hc : c = '.'
    · subst hc
      rfl
    · simp [hc]
  · by_cases hc : c = '.'
    · subst hc
      by_cases hd : d.isDigit = true
      · simp [hd, (hdigits rest).1, (hdigits rest).2]
      · simp [hd]
    · simp [hc]

/-- A symbol does not go beyond a line feed. -/
theorem readSymbol?_lineFeed (cs : List Char) :
    readSymbol? (cs ++ '\n' :: ds) =
      (readSymbol? cs).map fun r => (r.1, r.2.1, r.2.2 ++ '\n' :: ds) := by
  have hlines : ∀ s ∈ symbols, '\n' ∉ s.2 := by simp [symbols]
  have hfind : (symbols.find? fun s => s.2.isPrefixOf (cs ++ '\n' :: ds)) =
      symbols.find? fun s => s.2.isPrefixOf cs := by
    rw [← List.head?_filter, ← List.head?_filter,
      List.filter_congr fun s hs => isPrefixOf_append_cons (hlines s hs) cs ds]
  rw [readSymbol?_eq, readSymbol?_eq, hfind]
  cases hs : symbols.find? fun s => s.2.isPrefixOf cs with
  | none => rfl
  | some s =>
    obtain ⟨-, r, rfl⟩ := exists_of_find?_symbols hs
    simp

/-- Whether a digit comes first does not depend on what is behind a line feed. -/
theorem startsWithDigit_lineFeed (cs : List Char) :
    startsWithDigit (cs ++ '\n' :: ds) = startsWithDigit cs := by
  cases cs with
  | nil => rfl
  | cons c cs => rfl

/-- **No lexeme reaches over a line feed.** -/
theorem readLexeme_lineFeed (signed : Bool) (c : Char) (cs : List Char) :
    readLexeme signed c (cs ++ '\n' :: ds) =
      ((readLexeme signed c cs).1, (readLexeme signed c cs).2.1,
        (readLexeme signed c cs).2.2 ++ '\n' :: ds) := by
  have hnumber := readNumber_lineFeed ds (c :: cs)
  have hsymbol := readSymbol?_lineFeed ds (c :: cs)
  have hcomment := takeWhile_lineFeed ds (p := (· ≠ '\n')) (by decide) cs
  have hname := takeWhile_lineFeed ds (p := isNameChar) (by decide) cs
  rw [List.cons_append] at hnumber hsymbol
  let more : Lexeme × List Char × List Char → Lexeme × List Char × List Char :=
    fun r => (r.1, r.2.1, r.2.2 ++ '\n' :: ds)
  show _ = more (readLexeme signed c cs)
  -- The choices are the same on both sides, so that the readers can be compared one by one.
  unfold readLexeme
  rw [startsWithDigit_lineFeed, readNumber_lineFeed, hnumber, hsymbol, hcomment.1, hcomment.2,
    hname.1, hname.2]
  simp only [apply_ite more]
  cases readSymbol? (c :: cs) <;> rfl

end LineFeed

/-- One step after another. -/
def Step.andThen (s t : Step) : Step :=
  ⟨s.tokens ++ t.tokens, s.faults ++ t.faults, t.next⟩

/-- Two steps in front of a scan are one. -/
theorem Scan.withStep_withStep (s t : Step) (r : Scan) :
    (r.withStep t).withStep s = r.withStep (s.andThen t) := by
  simp [Scan.withStep, Step.andThen]

/-- The steps over a text from a cursor: where they lead, and what they remember of their tokens. -/
structure Step.Over (cur : Cursor) (cs : List Char) (s : Step) : Prop where
  pos : s.next.pos = cur.pos.advance cs
  depth : s.next.depth = depthAfter cur.depth (s.tokens.map word)
  last : s.next.last = (s.tokens.getLast?.map Token.kind).or cur.last

/-- A step goes over the lexeme at its place. -/
theorem stepAt_over (file : String) (cur : Cursor) (c : Char) (cs : List Char) :
    (cur.stepAt file c cs).Over cur (readLexeme cur.signed c cs).2.1 :=
  ⟨step_pos, step_depth, step_last⟩

/-- One step after the other goes over both texts. -/
theorem Step.Over.andThen {cur : Cursor} {cs ds : List Char} {s t : Step} (hs : s.Over cur cs)
    (ht : t.Over s.next ds) : (s.andThen t).Over cur (cs ++ ds) where
  pos := by
    show t.next.pos = _
    rw [ht.pos, hs.pos, Position.advance_append]
  depth := by
    show t.next.depth = _
    rw [ht.depth, hs.depth, Step.andThen, List.map_append, depthAfter_append]
  last := by
    show t.next.last = _
    rw [ht.last, hs.last, Step.andThen, List.getLast?_append]
    cases t.tokens.getLast? <;> rfl

/-- **What stands before a line feed** is scanned in the same steps as if the text ended there. -/
theorem scanFrom_append (file : String) (cur : Cursor) (cs : List Char) :
    ∃ made : Step, made.Over cur cs ∧
      scanFrom file cur cs = (scanFrom file made.next []).withStep made ∧
      ∀ ds, scanFrom file cur (cs ++ '\n' :: ds) =
        (scanFrom file made.next ('\n' :: ds)).withStep made := by
  refine scan_induction file (motive := fun cur cs => ∃ made : Step, made.Over cur cs ∧
    scanFrom file cur cs = (scanFrom file made.next []).withStep made ∧
    ∀ ds, scanFrom file cur (cs ++ '\n' :: ds) =
      (scanFrom file made.next ('\n' :: ds)).withStep made) ?_ ?_ cur cs
  · exact fun cur => ⟨{ next := cur }, ⟨rfl, rfl, rfl⟩, rfl, fun ds => rfl⟩
  · intro cur c cs ih
    obtain ⟨made, hover, hend, hfeed⟩ := ih
    refine ⟨(cur.stepAt file c cs).andThen made, ?_, ?_, fun ds => ?_⟩
    · have happ := (stepAt_over file cur c cs).andThen hover
      rwa [readLexeme_append] at happ
    · rw [scanFrom_cons, hend, Scan.withStep_withStep]
      rfl
    · have hstep : cur.stepAt file c (cs ++ '\n' :: ds) = cur.stepAt file c cs := by
        rw [Cursor.stepAt, readLexeme_lineFeed]
        rfl
      rw [List.cons_append, scanFrom_cons, hstep, readLexeme_lineFeed, hfeed,
        Scan.withStep_withStep]
      rfl

end Token

end Clausal
