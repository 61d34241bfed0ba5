import Clausal.Compile

/-!
# Compilation on a bounded stack

Reading follows parentheses into one another, and checking follows expressions and calls. Each of
these takes frames of the stack on which a compilation runs, and a stack has room for so many only.
Here are the readers and the check once more, with the frames that they take: a compilation that
runs out of frames is given up, and returns nothing.

* A parenthesis inside an expression takes three frames, one for itself, one for the expression in
  it and one for the first operand of that; inside the arguments of a call it takes one more for the
  call.
* A literal takes one frame of the check, and any other expression two. The arguments of a call are
  one frame further down, and so are the clauses of a function. A call of a function takes one frame
  and each of its clauses another one.

Frames are counted where calls nest. A step that returns without going further down, such as a look
at the next token, stands above the frames that are counted and has no frame of its own here. Code
generation walks down expressions that have been checked, in fewer frames than that took, and is
not counted either.
-/

namespace Clausal

/-- A computation on a stack that has room for so many frames; nothing if it takes more. -/
abbrev Stack := ReaderT Nat Option

/-- A computation that is so many frames further down. -/
def Stack.push {α : Type} (frames : Nat) (x : Stack α) : Stack α := fun room =>
  if frames ≤ room then x (room - frames) else none

namespace Bounded

/-! ## Readers -/

section Readers

open Grammar

/-- A reader on a stack. -/
abbrev ReadM := ExceptT Grammar.Halt Stack

namespace ReadM

variable {α : Type}

/-- A reader that takes no frames. -/
def plain (r : Except Grammar.Halt α) : ReadM α :=
  ExceptT.mk (pure r)

/-- A reader that is so many frames further down. -/
def push (frames : Nat) (x : ReadM α) : ReadM α :=
  ExceptT.mk (Stack.push frames x.run)

end ReadM

open ReadM

mutual

/-- Reads an expression. -/
def expression (ts : List Token) : ReadM (Parsed Expr ts) := push 1 do
  let left ← operand ts
  match h : left.rest with
  | [] => throw (.abort .cutOff)
  | t :: after =>
    have hlt : after.length + 1 < ts.length := Parsed.after_shorter h
    match operator? t.kind with
    | some op =>
      let right ← operand after
      return ⟨.binary left.value op right.value (left.value.span.upTo right.value.span),
        right.rest, Parsed.shorter_of_after hlt right⟩
    | none =>
      if t.kind = .question then
        let yes ← operand after
        let colon ← plain (expect .colon .colon yes.rest)
        have : colon.rest.length < ts.length := Parsed.shorter_of_colon hlt colon
        let no ← operand colon.rest
        return ⟨.cond left.value yes.value no.value (left.value.span.upTo no.value.span), no.rest,
          Parsed.shorter_of_branches hlt no⟩
      else
        return ⟨left.value, t :: after, hlt⟩
termination_by 2 * ts.length + 1

/-- Reads an operand. -/
def operand (ts : List Token) : ReadM (Parsed Expr ts) :=
  match ts with
  | [] => push 1 (throw (.abort .cutOff))
  | t :: ts => push 1 <|
    if t.kind = .lparen then do
      let inner ← push 1 (expression ts)
      let close ← plain (expect .rparen .closing inner.rest)
      return .cons inner.value t (inner.andThen inner.value close)
    else if t.kind.isLiteral then do
      let value ← plain (literal t)
      return .token (.lit value t.span) t ts
    else if t.kind = .identifier then do
      let args ← push 1 (arguments t.span ts)
      return args.call t
    else throw (unexpected .expression t)
termination_by 2 * ts.length

/-- Reads the arguments of a call; `last` is the place of the token before them. -/
def arguments (last : Span) (ts : List Token) : ReadM (Arguments ts) :=
  match ts with
  | [] => throw (.abort .cutOff)
  | t :: ts =>
    if t.kind = .lparen then do
      let inner ← push 1 (expression ts)
      let close ← plain (expect .rparen .closing inner.rest)
      have : close.rest.length < ts.length := inner.shorter_then close
      let more ← arguments close.value.span close.rest
      return .cons (.cons inner.value t (inner.andThen inner.value close)) more
    else if t.kind.isLiteral then do
      let value ← plain (literal t)
      let more ← arguments t.span ts
      return .cons (.token (.lit value t.span) t ts) more
    else if t.kind = .identifier then do
      let more ← arguments t.span ts
      return .cons (.token (.call t.text [] t.span) t ts) more
    else return .none last (t :: ts)
termination_by 2 * ts.length

end

/-- Reads what follows the name of a line; only a clause goes further down. -/
def lineBody (name : Token) (ts : List Token) : ReadM (Parsed Line ts) :=
  match ts with
  | [] => throw (.abort .cutOff)
  | t :: ts =>
    if t.kind = .doubleColon then plain (Grammar.lineBody name (t :: ts))
    else push 1 do
      let params ← plain (parameters (t :: ts))
      let body ← expression params.rest
      return params.andThen
        (.clause ⟨name.text, params.value, body.value, name.span.upTo body.value.span⟩) body

/-- Reads one line and the token that ends it. -/
def line (ts : List Token) : ReadM (Parsed Line ts) := push 1 do
  let name ← plain (expect .identifier .functionName ts)
  let body ← lineBody name.value name.rest
  let stop ← plain (expect .newline .endOfLine body.rest)
  return name.andThen body.value (body.andThen body.value stop)

/-- Reads all lines up to the end of the file. -/
def lines (ts : List Token) : Stack (Except Abort Reading) :=
  match ts with
  | [] => pure (.error .cutOff)
  | t :: ts =>
    if heof : t.kind = .eof then pure (.ok {})
    else if t.kind = .newline then lines ts
    else do
      match ← (line (t :: ts)).run with
      | .ok l =>
        let rest ← lines l.rest
        return rest.map (·.withLine l.value)
      | .error (.fault f) =>
        have : (skipLine (t :: ts)).length < (t :: ts).length := skipLine_length_lt heof
        let rest ← lines (skipLine (t :: ts))
        return rest.map (·.withFault f)
      | .error (.abort a) => return .error a
termination_by ts.length
decreasing_by
  · exact Nat.lt_succ_self _
  · exact l.shorter
  · assumption

/-- The program that a source text makes up. -/
def parse (text file : String) : Stack (Except SyntaxError Program) := Stack.push 2 do
  let scan := Token.scan text file
  if scan.faults.isEmpty then
    match ← lines scan.tokens with
    | .ok r =>
      if r.faults.isEmpty then return .ok ⟨r.lines, file⟩
      else return .error (.batch (r.faults.map (·.diagnostic)))
    | .error a => return .error (.aborted a)
  else return .error (.batch (scan.faults.map (·.diagnostic)))

end Readers

/-! ## Checking -/

section Checks

open Check (State)

/-- A step of a check on a stack. -/
abbrev CheckM := ExceptT Stop (StateT State Stack)

namespace CheckM

variable {α : Type}

/-- A step that takes no frames. -/
def plain (m : Check.CheckM α) : CheckM α := fun s =>
  pure (m.run.run s)

/-- A step that is so many frames further down. -/
def push (frames : Nat) (m : CheckM α) : CheckM α := fun s =>
  Stack.push frames (m.run.run s)

/-- Runs a step while a function is among the active ones. -/
def withActive (name : String) (m : CheckM α) : CheckM α := fun s => do
  let (result, after) ← m.run.run { s with active := name :: s.active }
  return (result, { after with active := after.active.tail })

end CheckM

open CheckM

/-- How a call of a function is checked on a stack. -/
abbrev OnCall := String → List Ty → Option Span → CheckM Ty

mutual

/-- The type of an expression, given the types of the parameters in scope. -/
def inferExpr (onCall : OnCall) (locals : Assoc Ty) : Expr → CheckM Ty
  | .lit value _ => push 1 (pure value.ty)
  | .call name args span => push 2 do
    let types ← push 1 (inferArgs onCall locals args)
    match locals.value? name with
    | some ty =>
      if types.isEmpty then pure ty
      else plain (Check.fail (.badArity name 0 types.length) span)
    | none =>
      if (← get).functions.has name then onCall name types span
      else plain (Check.fail (.notFound name) span)
  | .binary left op right span => push 2 do
    let leftType ← inferExpr onCall locals left
    let rightType ← inferExpr onCall locals right
    plain (Check.operatorType op leftType rightType span)
  | .cond test yes no _ => push 2 do
    let testType ← inferExpr onCall locals test
    if testType ≠ .bool then
      plain (Check.fail (.typeMismatch .bool testType) test.span)
    else
      let yesType ← inferExpr onCall locals yes
      let noType ← inferExpr onCall locals no
      if yesType ≠ noType then
        plain (Check.fail (.typeMismatch yesType noType) no.span)
      else pure yesType

/-- The types of the arguments of a call, from left to right. -/
def inferArgs (onCall : OnCall) (locals : Assoc Ty) : List Expr → CheckM (List Ty)
  | [] => pure []
  | e :: es => do
    let ty ← inferExpr onCall locals e
    let types ← inferArgs onCall locals es
    pure (ty :: types)

end

/-- Checks one clause against the types of its arguments and returns the type of its body. -/
def checkClause (onCall : OnCall) (c : Clause) (args : List Ty) : CheckM Ty := push 1 do
  plain (Check.record (.checking c))
  if c.params.length ≠ args.length then
    plain (Check.fail (.badArity c.name c.params.length args.length) c.span)
  else match Check.literalMismatch? c.params args with
    | some fault => throw (.fault fault)
    | none => inferExpr onCall (Assoc.ofPairs (Pattern.bindings c.params args)) c.body

/-- Checks several clauses in order; each is returned with the type of its body. -/
def checkClauses (onCall : OnCall) (args : List Ty) : List Clause → CheckM (List (Clause × Ty))
  | [] => pure []
  | c :: cs => do
    let ty ← checkClause onCall c args
    let rest ← checkClauses onCall args cs
    pure ((c, ty) :: rest)

/-- Checks a call of a function; only one that is not known goes further down. -/
def checkCall (depth : Nat) (name : String) (args : List Ty) (span : Option Span) : CheckM Ty :=
  match depth with
  | 0 => plain (Check.fail (.untyped name) span)
  | depth + 1 => push 1 do
    let s ← get
    let known := s.signatures.lookup name
    if name ∈ s.validated then
      match known with
      | some sig => plain (Check.knownResult name sig args span)
      | none => throw (.noSignature name)
    else if name ∈ s.active then
      match known with
      | some sig => plain (Check.knownResult name sig args span)
      | none => plain (Check.fail (.untyped name) span)
    else
      plain (known.forM fun sig => Check.checkArguments name sig args span)
      let clauses := (s.functions.value? name).getD []
      let results ← withActive name
        (push 1 (checkClauses (fun n a p => checkCall depth n a p) args clauses))
      plain (Check.settle name known args span results)

/-- Checks a call of a function from outside. -/
def call (name : String) (args : List Ty) (span : Option Span) : CheckM Ty := do
  checkCall ((← get).functions.length + 1) name args span

/-- Checks the entry point, which takes no arguments and returns an integer. -/
def checkEntryPoint : CheckM Ty := push 1 do
  let s ← get
  match s.functions.value? Check.entryPoint with
  | none => plain (Check.fail (.notFound Check.entryPoint) none)
  | some clauses =>
    if s.builtins.has Check.entryPoint then
      plain (Check.fail (.notFound Check.entryPoint) none)
    else
      let span ← plain (Check.entrySpan s clauses)
      let ty ← call Check.entryPoint [] span
      if ty ≠ .int then plain (Check.fail (.typeMismatch .int ty) span) else pure ty

/-- Checks a declared function unless that is done, on arguments of the types of its signature. -/
def checkDeclared (d : Decl) : CheckM Unit := do
  let s ← get
  if d.name ∈ s.validated then pure ()
  else match s.signatures.lookup d.name with
    | some sig => discard (call d.name sig.params d.span)
    | none => throw (.noSignature d.name)

/-- Checks a whole program and returns the signatures of its functions. -/
def validate (p : Program) : CheckM SignatureTable := push 1 do
  plain Check.registerBuiltins
  plain (Check.registerProgram p)
  let ty ← checkEntryPoint
  plain (Check.record (.entryReturns ty))
  (← get).declared.forM fun q => checkDeclared q.2
  plain Check.reportUnused
  return (← get).signatures

end Checks

/-! ## Compilation -/

open Compile (Failure Output)

/-- Checks a program and makes its module; the journal tells what happened up to the end. -/
def program (p : Program) : Stack (Except Failure Output × Journal) := Stack.push 1 do
  match ← (validate p).run.run Compile.initial with
  | (.error stop, s) => return (.error (.stopped stop), s.journal)
  | (.ok table, s) =>
    match (Compile.emit p table).run.run [] with
    | (.error stop, j) => return (.error (.stopped stop), s.journal ++ j)
    | (.ok code, j) => return (.ok ⟨p, code, table, (s.journal ++ j).warnings⟩, s.journal ++ j)

/-- Compiles a source text on a stack. -/
def source (text file : String) : Stack (Except Failure Output × Journal) := Stack.push 1 do
  let begun := [Event.started file text.length]
  match ← parse text file with
  | .error e => return (.error (.unreadable e), begun)
  | .ok p =>
    let read := begun ++ [.parsed p.lines.length]
    match ← program p with
    | (.error e, j) => return (.error e, read ++ j)
    | (.ok out, j) => return (.ok out, read ++ j ++ [.assembled out.code])

end Bounded

end Clausal
