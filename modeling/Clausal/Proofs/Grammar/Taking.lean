import Clausal.Proofs.Grammar.Local

/-!
# The tokens that reading takes

A reader that fails does not say how far it came. Here are the readers once more, with an account of
the tokens that they take one by one; the account is kept when a reader stops (`Taking`). After a
fault, reading goes on from the token where the reader stands, and takes the rest of the line
(`Run.ofTokens`).
-/

namespace Clausal.Grammar

open Token

/-! ## Accounts -/

/-- What comes of reading, and the tokens that were taken, in order. -/
structure Taking (α : Type) where
  taken : List Token
  result : Except Halt α

namespace Taking

variable {α β : Type}

instance : Monad Taking where
  pure a := ⟨[], .ok a⟩
  bind x f :=
    match x.result with
    | .ok a => ⟨x.taken ++ (f a).taken, (f a).result⟩
    | .error e => ⟨x.taken, .error e⟩

/-- Stops without taking a token. -/
def stop (e : Halt) : Taking α :=
  ⟨[], .error e⟩

/-- Takes a token. -/
def take (t : Token) : Taking PUnit :=
  ⟨[t], .ok ⟨⟩⟩

/-- Takes a literal token, and then converts it. -/
def value (t : Token) : Taking Literal :=
  ⟨[t], literal t⟩

/-- Takes a token that stands for a type, and then looks it up. -/
def type (t : Token) : Taking Ty :=
  ⟨if t.kind = .typeName then [t] else [], typeNamed t⟩

/-! ## Readers -/

/-- Takes one token of a kind. -/
def expect (kind : Kind) (what : Wanted) : (ts : List Token) → Taking (Parsed Token ts)
  | [] => stop (.abort .cutOff)
  | t :: ts =>
    if t.kind = kind then ⟨[t], .ok (.token t t ts)⟩ else stop (unexpected what t)

mutual

/-- Reads an expression. -/
def expression (ts : List Token) : Taking (Parsed Expr ts) := do
  let left ← operand ts
  match h : left.rest with
  | [] => stop (.abort .cutOff)
  | t :: after =>
    have hlt : after.length + 1 < ts.length := Parsed.after_shorter h
    match operator? t.kind with
    | some op =>
      take t
      let right ← operand after
      return ⟨.binary left.value op right.value (left.value.span.upTo right.value.span),
        right.rest, Parsed.shorter_of_after hlt right⟩
    | none =>
      if t.kind = .question then
        take t
        let yes ← operand after
        let colon ← expect .colon .colon yes.rest
        have : colon.rest.length < ts.length := Parsed.shorter_of_colon hlt colon
        let no ← operand colon.rest
        return ⟨.cond left.value yes.value no.value (left.value.span.upTo no.value.span), no.rest,
          Parsed.shorter_of_branches hlt no⟩
      else
        return ⟨left.value, t :: after, hlt⟩
termination_by 2 * ts.length + 1

/-- Reads an operand. -/
def operand (ts : List Token) : Taking (Parsed Expr ts) :=
  match ts with
  | [] => stop (.abort .cutOff)
  | t :: ts =>
    if t.kind = .lparen then do
      take t
      let inner ← expression ts
      let close ← expect .rparen .closing inner.rest
      return .cons inner.value t (inner.andThen inner.value close)
    else if t.kind.isLiteral then do
      let v ← value t
      return .token (.lit v t.span) t ts
    else if t.kind = .identifier then do
      take t
      let args ← arguments t.span ts
      return args.call t
    else stop (unexpected .expression t)
termination_by 2 * ts.length

/-- Reads the arguments of a call. -/
def arguments (last : Span) (ts : List Token) : Taking (Arguments ts) :=
  match ts with
  | [] => stop (.abort .cutOff)
  | t :: ts =>
    if t.kind = .lparen then do
      take t
      let inner ← expression ts
      let close ← expect .rparen .closing inner.rest
      have : close.rest.length < ts.length := inner.shorter_then close
      let more ← arguments close.value.span close.rest
      return .cons (.cons inner.value t (inner.andThen inner.value close)) more
    else if t.kind.isLiteral then do
      let v ← value t
      let more ← arguments t.span ts
      return .cons (.token (.lit v t.span) t ts) more
    else if t.kind = .identifier then do
      take t
      let more ← arguments t.span ts
      return .cons (.token (.call t.text [] t.span) t ts) more
    else return .none last (t :: ts)
termination_by 2 * ts.length

end

/-- Reads the types of a signature. -/
def types : (ts : List Token) → Taking (Parsed (Signature × Span) ts)
  | [] => stop (.abort .cutOff)
  | [t] => do
    let _ ← type t
    stop (.abort .cutOff)
  | t :: a :: ts => do
    let ty ← type t
    if a.kind = .arrow then
      take a
      let more ← types ts
      return .cons (⟨ty :: more.value.1.params, more.value.1.result⟩, more.value.2) t
        (.cons more.value a more)
    else return .token (⟨[], ty⟩, t.span) t (a :: ts)

/-- Reads parameters up to the `=` sign, and the sign. -/
def parameters (ts : List Token) : Taking (Parsed (List Pattern) ts) :=
  match ts with
  | [] => stop (.abort .cutOff)
  | t :: ts =>
    if t.kind = .assign then do
      take t
      return .token [] t ts
    else if t.kind = .identifier then do
      take t
      let more ← parameters ts
      return .cons (.name t.text t.span :: more.value) t more
    else if t.kind.isLiteral then do
      let v ← value t
      let more ← parameters ts
      return .cons (.lit v t.span :: more.value) t more
    else stop (unexpected .parameter t)

/-- Reads what follows the name of a line. -/
def lineBody (name : Token) (ts : List Token) : Taking (Parsed Line ts) :=
  match ts with
  | [] => stop (.abort .cutOff)
  | t :: ts =>
    if t.kind = .doubleColon then do
      take t
      let sig ← types ts
      return .cons (.decl ⟨name.text, sig.value.1, name.span.upTo sig.value.2⟩) t sig
    else do
      let params ← parameters (t :: ts)
      let body ← expression params.rest
      return params.andThen
        (.clause ⟨name.text, params.value, body.value, name.span.upTo body.value.span⟩) body

/-- Reads one line and the token that ends it. -/
def line (ts : List Token) : Taking (Parsed Line ts) := do
  let name ← expect .identifier .functionName ts
  let body ← lineBody name.value name.rest
  let stop ← expect .newline .endOfLine body.rest
  return name.andThen body.value (body.andThen body.value stop)

/-! ## Whole programs -/

/-- The tokens that are skipped up to the next line. -/
def skipped : List Token → List Token
  | [] => []
  | t :: ts =>
    if t.kind = .eof then [] else if t.kind = .newline then [t] else t :: skipped ts

end Taking

/-- What comes of reading a whole program, and the tokens that were taken, in order. -/
structure Run where
  taken : List Token
  result : Except Abort Reading

namespace Run

/-- A run that takes some more tokens first, and changes what comes of it. -/
def after (taken : List Token) (f : Reading → Reading) (r : Run) : Run :=
  ⟨taken ++ r.taken, r.result.map f⟩

/-- Skipping a line from any of its tokens makes the list shorter. -/
theorem skipLine_drop_length_lt {t : Token} {ts : List Token} (h : ¬ t.kind = .eof) (n : Nat) :
    (skipLine ((t :: ts).drop n)).length < (t :: ts).length := by
  cases n with
  | zero => exact skipLine_length_lt h
  | succ n =>
    have hskip := skipLine_length_le (ts.drop n)
    rw [List.length_drop] at hskip
    exact Nat.lt_succ_of_le (Nat.le_trans hskip (Nat.sub_le _ _))

/-- Reads all lines up to the end of the file. -/
def ofTokens (ts : List Token) : Run :=
  match ts with
  | [] => ⟨[], .error .cutOff⟩
  | t :: ts =>
    if heof : t.kind = .eof then ⟨[], .ok {}⟩
    else if t.kind = .newline then (ofTokens ts).after [t] id
    else
      let read := Taking.line (t :: ts)
      match read.result with
      | .ok l => (ofTokens l.rest).after read.taken (·.withLine l.value)
      | .error (.fault f) =>
        -- The reader stands where it met the fault, and the rest of the line is skipped from there.
        let left := (t :: ts).drop read.taken.length
        have : (skipLine left).length < (t :: ts).length := skipLine_drop_length_lt heof _
        (ofTokens (skipLine left)).after (read.taken ++ Taking.skipped left) (·.withFault f)
      | .error (.abort a) => ⟨read.taken, .error a⟩
termination_by ts.length
decreasing_by
  · exact Nat.lt_succ_self _
  · exact l.shorter
  · assumption

end Run

end Clausal.Grammar
