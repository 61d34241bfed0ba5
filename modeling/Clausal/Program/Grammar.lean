import Clausal.Program
import Clausal.Text.Numeral
import Clausal.Token.Scan

/-!
# The grammar of programs

A program is read from its tokens line by line.

* A line is `name :: type -> … -> type` or `name parameter … = expression`.
* An expression is an operand, or two operands with an operator between them, or a test with two
  branches, `operand ? operand : operand`. Nothing binds tighter than anything else: deeper nesting
  takes parentheses.
* An operand is a parenthesised expression, a literal, or a call; the arguments of a call are
  parenthesised expressions, literals and bare names.

A line that does not fit gives one fault, and reading goes on with the next line. Every reader
returns fewer tokens than it was given, which is why reading ends.
-/

namespace Clausal

namespace Grammar

/-! ## Faults -/

/-- What the grammar asks for at a place. -/
inductive Wanted where
  | functionName
  | endOfLine
  | type
  | parameter
  | expression
  | closing
  | colon
deriving DecidableEq, Repr, Inhabited

/-- The words for what is asked for. -/
def Wanted.text : Wanted → String
  | .functionName => "a function name"
  | .endOfLine => "end of line"
  | .type => "a type (int, float or bool)"
  | .parameter => "a parameter name or literal"
  | .expression => "an expression"
  | .closing => "')'"
  | .colon => "':' in conditional"

/-- Why a line does not fit the grammar. -/
inductive SyntaxCause where
  | expected (what : Wanted) (found : Token)
  | outOfRange (text : String)
deriving DecidableEq, Repr, Inhabited

/-- The wording of a cause. -/
def SyntaxCause.message : SyntaxCause → String
  | .expected what found => "expected " ++ what.text ++ ", got " ++ found.describe
  | .outOfRange text => "integer literal " ++ text ++ " does not fit in 32 bits"

/-- A line that does not fit, and the place that shows it. -/
structure SyntaxFault where
  cause : SyntaxCause
  span : Span
deriving DecidableEq, Repr, Inhabited

/-- The diagnostic that reports a line that does not fit. -/
def SyntaxFault.diagnostic (f : SyntaxFault) : Diagnostic :=
  .error "E200" f.cause.message f.span

/-- Why reading cannot go on at all. -/
inductive Abort where
  /-- An integer literal has more digits than are ever converted. -/
  | tooLong (digits : Nat)
  /-- The text of an integer literal is not a whole number. -/
  | notANumber (text : String)
  /-- The text of a type token is not the name of a type. -/
  | unknownType (text : String)
  /-- The tokens are over before the end of the file. -/
  | cutOff
deriving DecidableEq, Repr, Inhabited

/-- Why a line was not read. -/
inductive Halt where
  | fault (f : SyntaxFault)
  | abort (a : Abort)
deriving DecidableEq, Repr, Inhabited

/-- The fault of finding something else than what is asked for. -/
def unexpected (what : Wanted) (t : Token) : Halt :=
  .fault ⟨.expected what t, t.span⟩

/-! ## Readers -/

/-- Something read from the front of a list of tokens, and the tokens after it. -/
structure Parsed (α : Type) (ts : List Token) where
  value : α
  rest : List Token
  shorter : rest.length < ts.length

/-- The arguments of a call: their values, the place of the last token read, and the tokens after
them. -/
structure Arguments (ts : List Token) where
  values : List Expr
  last : Span
  rest : List Token
  notLonger : rest.length ≤ ts.length

section Steps

variable {α β γ : Type} {ts after : List Token}

/-- A token leaves the tokens behind it. -/
theorem Parsed.token_shorter (t : Token) (ts : List Token) : ts.length < (t :: ts).length :=
  Nat.lt_succ_self _

theorem Parsed.shorter_cons (r : Parsed α ts) (t : Token) : r.rest.length < (t :: ts).length :=
  Nat.lt_succ_of_lt r.shorter

theorem Parsed.shorter_then (r : Parsed α ts) (s : Parsed β r.rest) : s.rest.length < ts.length :=
  Nat.lt_trans s.shorter r.shorter

theorem Parsed.notLonger_then (r : Parsed α ts) (args : Arguments r.rest) :
    args.rest.length ≤ ts.length :=
  Nat.le_trans args.notLonger (Nat.le_of_lt r.shorter)

theorem Arguments.shorter_cons (args : Arguments ts) (t : Token) :
    args.rest.length < (t :: ts).length :=
  Nat.lt_succ_of_le args.notLonger

/-- What is left behind one more token. -/
theorem Parsed.after_shorter {t : Token} {r : Parsed α ts} (h : r.rest = t :: after) :
    after.length + 1 < ts.length := by
  have hrest := r.shorter
  rwa [h, List.length_cons] at hrest

/-- What is left behind a token and one thing more. -/
theorem Parsed.shorter_of_after (hlt : after.length + 1 < ts.length) (r : Parsed α after) :
    r.rest.length < ts.length := by
  have hrest := r.shorter
  omega

/-- What is left behind a token and two things more. -/
theorem Parsed.shorter_of_colon (hlt : after.length + 1 < ts.length) {yes : Parsed α after}
    (colon : Parsed β yes.rest) : colon.rest.length < ts.length :=
  Nat.lt_trans colon.shorter (yes.shorter_of_after hlt)

/-- What is left behind a token and three things more. -/
theorem Parsed.shorter_of_branches (hlt : after.length + 1 < ts.length) {yes : Parsed α after}
    {colon : Parsed β yes.rest} (no : Parsed γ colon.rest) : no.rest.length < ts.length :=
  Nat.lt_trans no.shorter (Parsed.shorter_of_colon hlt colon)

/-- A value from one token. -/
def Parsed.token (b : β) (t : Token) (ts : List Token) : Parsed β (t :: ts) :=
  ⟨b, ts, token_shorter t ts⟩

/-- A value from a token and what was read after it. -/
def Parsed.cons (b : β) (t : Token) (r : Parsed α ts) : Parsed β (t :: ts) :=
  ⟨b, r.rest, r.shorter_cons t⟩

/-- A value from what was read, and then read after it. -/
def Parsed.andThen (r : Parsed α ts) (c : γ) (s : Parsed β r.rest) : Parsed γ ts :=
  ⟨c, s.rest, r.shorter_then s⟩

/-- No arguments. -/
def Arguments.none (last : Span) (ts : List Token) : Arguments ts :=
  ⟨[], last, ts, Nat.le_refl _⟩

/-- One more argument in front. -/
def Arguments.cons (r : Parsed Expr ts) (args : Arguments r.rest) : Arguments ts :=
  ⟨r.value :: args.values, args.last, args.rest, r.notLonger_then args⟩

/-- The call of a name with its arguments. -/
def Arguments.call (t : Token) (args : Arguments ts) : Parsed Expr (t :: ts) :=
  ⟨.call t.text args.values (t.span.upTo args.last), args.rest, args.shorter_cons t⟩

end Steps

/-- Reads one token of a kind. -/
def expect (kind : Token.Kind) (what : Wanted) : (ts : List Token) → Except Halt (Parsed Token ts)
  | [] => .error (.abort .cutOff)
  | t :: ts =>
    if t.kind = kind then .ok ⟨t, ts, Nat.lt_succ_self _⟩ else .error (unexpected what t)

/-- Whether a number fits in 32 bits. -/
def inRange (n : Int) : Bool :=
  -2147483648 ≤ n && n ≤ 2147483647

/-- The value of a literal token. -/
def literal (t : Token) : Except Halt Literal :=
  match t.kind with
  | .integer =>
    match Text.integer t.text.toList with
    | .ok n => if inRange n then .ok (.int n) else .error (.fault ⟨.outOfRange t.text, t.span⟩)
    | .error (.tooLong digits) => .error (.abort (.tooLong digits))
    | .error .malformed => .error (.abort (.notANumber t.text))
  | .float => .ok (.float t.text)
  | _ => .ok (.bool (t.text = "true"))

/-- The operator that a kind of token stands for. -/
def operator? : Token.Kind → Option Op
  | .plus => some .add
  | .minus => some .sub
  | .star => some .mul
  | .slash => some .div
  | .equal => some .eq
  | .notEqual => some .ne
  | _ => none

mutual

/-- Reads an expression. -/
def expression (ts : List Token) : Except Halt (Parsed Expr ts) := do
  let left ← operand ts
  match h : left.rest with
  | [] => .error (.abort .cutOff)
  | t :: after =>
    have hlt : after.length + 1 < ts.length := by simpa [h] using left.shorter
    match operator? t.kind with
    | some op =>
      let right ← operand after
      return ⟨.binary left.value op right.value (left.value.span.upTo right.value.span), right.rest,
        by have := right.shorter; omega⟩
    | none =>
      if t.kind = .question then
        let yes ← operand after
        let colon ← expect .colon .colon yes.rest
        have hcolon : colon.rest.length < ts.length := by
          have := yes.shorter; have := colon.shorter; omega
        let no ← operand colon.rest
        return ⟨.cond left.value yes.value no.value (left.value.span.upTo no.value.span), no.rest,
          by have := no.shorter; omega⟩
      else
        return ⟨left.value, t :: after, by simpa using hlt⟩
termination_by 2 * ts.length + 1

/-- Reads an operand. -/
def operand (ts : List Token) : Except Halt (Parsed Expr ts) :=
  match ts with
  | [] => .error (.abort .cutOff)
  | t :: ts =>
    if t.kind = .lparen then do
      let inner ← expression ts
      let close ← expect .rparen .closing inner.rest
      return ⟨inner.value, close.rest, by
        have := inner.shorter; have := close.shorter; simp only [List.length_cons]; omega⟩
    else if t.kind.isLiteral then do
      let value ← literal t
      return ⟨.lit value t.span, ts, Nat.lt_succ_self _⟩
    else if t.kind = .identifier then do
      let args ← arguments t.span ts
      return ⟨.call t.text args.values (t.span.upTo args.last), args.rest,
        Nat.lt_succ_of_le args.notLonger⟩
    else .error (unexpected .expression t)
termination_by 2 * ts.length

/-- Reads the arguments of a call; `last` is the place of the token before them. -/
def arguments (last : Span) (ts : List Token) : Except Halt (Arguments ts) :=
  match ts with
  | [] => .error (.abort .cutOff)
  | t :: ts =>
    if t.kind = .lparen then do
      let inner ← expression ts
      let close ← expect .rparen .closing inner.rest
      have hclose : close.rest.length < ts.length := by
        have := inner.shorter; have := close.shorter; omega
      let more ← arguments close.value.span close.rest
      return ⟨inner.value :: more.values, more.last, more.rest, by
        have := more.notLonger; simp only [List.length_cons]; omega⟩
    else if t.kind.isLiteral then do
      let value ← literal t
      let more ← arguments t.span ts
      return ⟨.lit value t.span :: more.values, more.last, more.rest,
        Nat.le_succ_of_le more.notLonger⟩
    else if t.kind = .identifier then do
      let more ← arguments t.span ts
      return ⟨.call t.text [] t.span :: more.values, more.last, more.rest,
        Nat.le_succ_of_le more.notLonger⟩
    else return ⟨[], last, t :: ts, Nat.le_refl _⟩
termination_by 2 * ts.length

end

/-- The type that a token names. -/
def typeNamed (t : Token) : Except Halt Ty :=
  if t.kind = .typeName then
    match Ty.ofName? t.text with
    | some ty => .ok ty
    | none => .error (.abort (.unknownType t.text))
  else .error (unexpected .type t)

/-- Reads the types of a signature; the place of the last one comes with it. -/
def types (ts : List Token) : Except Halt (Parsed (Signature × Span) ts) :=
  match ts with
  | [] => .error (.abort .cutOff)
  | t :: ts =>
    match typeNamed t with
    | .error h => .error h
    | .ok ty =>
      match ts with
      | [] => .error (.abort .cutOff)
      | a :: ts =>
        if a.kind = .arrow then do
          let more ← types ts
          return ⟨(⟨ty :: more.value.1.params, more.value.1.result⟩, more.value.2), more.rest,
            by have := more.shorter; simp only [List.length_cons]; omega⟩
        else return ⟨(⟨[], ty⟩, t.span), a :: ts, Nat.lt_succ_self _⟩

/-- Reads parameters up to the `=` sign, and the sign. -/
def parameters (ts : List Token) : Except Halt (Parsed (List Pattern) ts) :=
  match ts with
  | [] => .error (.abort .cutOff)
  | t :: ts =>
    if t.kind = .assign then .ok ⟨[], ts, Nat.lt_succ_self _⟩
    else if t.kind = .identifier then do
      let more ← parameters ts
      return ⟨.name t.text t.span :: more.value, more.rest, Nat.lt_succ_of_lt more.shorter⟩
    else if t.kind.isLiteral then do
      let value ← literal t
      let more ← parameters ts
      return ⟨.lit value t.span :: more.value, more.rest, Nat.lt_succ_of_lt more.shorter⟩
    else .error (unexpected .parameter t)

/-- Reads what follows the name of a line. -/
def lineBody (name : Token) (ts : List Token) : Except Halt (Parsed Line ts) :=
  match ts with
  | [] => .error (.abort .cutOff)
  | t :: ts =>
    if t.kind = .doubleColon then do
      let sig ← types ts
      return ⟨.decl ⟨name.text, sig.value.1, name.span.upTo sig.value.2⟩, sig.rest,
        Nat.lt_succ_of_lt sig.shorter⟩
    else do
      let params ← parameters (t :: ts)
      let body ← expression params.rest
      return ⟨.clause ⟨name.text, params.value, body.value, name.span.upTo body.value.span⟩,
        body.rest, by have := params.shorter; have := body.shorter; omega⟩

/-- Reads one line and the token that ends it. -/
def line (ts : List Token) : Except Halt (Parsed Line ts) := do
  let name ← expect .identifier .functionName ts
  let body ← lineBody name.value name.rest
  let stop ← expect .newline .endOfLine body.rest
  return ⟨body.value, stop.rest, by
    have := name.shorter; have := body.shorter; have := stop.shorter; omega⟩

/-! ## Whole programs -/

/-- The tokens after the current line; the end of the file stays. -/
def skipLine : List Token → List Token
  | [] => []
  | t :: ts =>
    if t.kind = .eof then t :: ts else if t.kind = .newline then ts else skipLine ts

theorem skipLine_length_le (ts : List Token) : (skipLine ts).length ≤ ts.length := by
  induction ts with
  | nil => exact Nat.le_refl _
  | cons t ts ih =>
    unfold skipLine
    split
    · exact Nat.le_refl _
    · split
      · exact Nat.le_succ _
      · exact Nat.le_succ_of_le ih

theorem skipLine_length_lt {t : Token} {ts : List Token} (h : ¬ t.kind = .eof) :
    (skipLine (t :: ts)).length < (t :: ts).length := by
  unfold skipLine
  rw [if_neg h]
  split
  · exact Nat.lt_succ_self _
  · exact Nat.lt_succ_of_le (skipLine_length_le ts)

/-- The lines that fit and the faults of those that do not, each in source order. -/
structure Reading where
  lines : List Line := []
  faults : List SyntaxFault := []
deriving Repr, Inhabited

namespace Reading

/-- A reading with one more line in front. -/
def withLine (l : Line) (r : Reading) : Reading :=
  { r with lines := l :: r.lines }

/-- A reading with one more fault in front. -/
def withFault (f : SyntaxFault) (r : Reading) : Reading :=
  { r with faults := f :: r.faults }

end Reading

/-- Reads all lines up to the end of the file. -/
def lines (ts : List Token) : Except Abort Reading :=
  match ts with
  | [] => .error .cutOff
  | t :: ts =>
    if heof : t.kind = .eof then .ok {}
    else if t.kind = .newline then lines ts
    else match line (t :: ts) with
      | .ok l => (lines l.rest).map (·.withLine l.value)
      | .error (.fault f) =>
        have : (skipLine (t :: ts)).length < (t :: ts).length := skipLine_length_lt heof
        (lines (skipLine (t :: ts))).map (·.withFault f)
      | .error (.abort a) => .error a
termination_by ts.length
decreasing_by
  · exact Nat.lt_succ_self _
  · exact l.shorter
  · assumption

end Grammar

/-- Why a text is not a program. -/
inductive SyntaxError where
  /-- Bad characters, or lines that do not fit; there is at least one diagnostic. -/
  | batch (diagnostics : List Diagnostic)
  /-- Reading stopped before the end of the file. -/
  | aborted (a : Grammar.Abort)
deriving DecidableEq, Repr, Inhabited

namespace Program

/-- The program that a list of tokens makes up. -/
def ofTokens (file : String) (ts : List Token) : Except SyntaxError Program :=
  match Grammar.lines ts with
  | .ok r =>
    if r.faults.isEmpty then .ok ⟨r.lines, file⟩
    else .error (.batch (r.faults.map (·.diagnostic)))
  | .error a => .error (.aborted a)

/-- The program that a source text makes up. -/
def parse (text file : String) : Except SyntaxError Program :=
  let scan := Token.scan text file
  if scan.faults.isEmpty then ofTokens file scan.tokens
  else .error (.batch (scan.faults.map (·.diagnostic)))

end Program

end Clausal
