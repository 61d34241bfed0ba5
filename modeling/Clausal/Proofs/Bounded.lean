import Clausal.Bounded
import Clausal.Proofs.Grammar.Printing
import Clausal.Proofs.Outcome

/-!
# Running out of stack

`source_needs`: for every source text there is a number of frames from which on a compilation on a
stack gives what a compilation without one gives; with fewer frames it gives nothing, however many
fewer. So a stack never changes what comes of a compilation, it only ends it.

The number is not bounded by anything but the text. `source_nested`: a text in which `n` parentheses
are nested around a number makes a program, and a stack of less than `3 * n` frames is too small to
compile it.
-/

namespace Clausal

open Token

variable {α β : Type}

/-! ## Frames that are needed -/

namespace Stack

/-- With some number of frames or more the computation gives `b`, and with fewer nothing. -/
def Needs (x : Stack β) (b : β) : Prop :=
  ∃ frames, ∀ room, x room = if frames ≤ room then some b else none

/-- A value needs no frames. -/
theorem needs_pure (b : β) : Needs (pure b) b :=
  ⟨0, fun room => by rw [if_pos room.zero_le]; rfl⟩

/-- A computation further down needs so many frames more. -/
theorem Needs.push {x : Stack β} {b : β} (h : Needs x b) (frames : Nat) :
    Needs (push frames x) b := by
  obtain ⟨need, hneed⟩ := h
  refine ⟨frames + need, fun room => ?_⟩
  unfold Stack.push
  rw [hneed]
  by_cases hroom : frames + need ≤ room
  · rw [if_pos hroom, if_pos (by omega), if_pos (by omega)]
  · rw [if_neg hroom]
    split
    · rw [if_neg (by omega)]
    · rfl

/-- One computation after the other needs as many frames as the one that needs more. -/
theorem Needs.bind {x : Stack α} {a : α} {f : α → Stack β} {b : β} (h : Needs x a)
    (hf : Needs (f a) b) : Needs (x >>= f) b := by
  obtain ⟨first, hfirst⟩ := h
  obtain ⟨second, hsecond⟩ := hf
  refine ⟨max first second, fun room => ?_⟩
  show (x room >>= fun a => f a room) = _
  rw [hfirst]
  by_cases hroom : first ≤ room
  · rw [if_pos hroom]
    refine (hsecond room).trans ?_
    simp only [Nat.max_le, hroom, true_and]
  · rw [if_neg hroom, if_neg fun h => hroom (Nat.le_trans (Nat.le_max_left _ _) h)]
    rfl

/-- A computation that gives nothing, and what would have come after it. -/
theorem bind_eq_none {x : Stack α} {f : α → Stack β} {room : Nat} (h : x room = none) :
    (x >>= f) room = none := by
  show (x room >>= _) = none
  rw [h]
  rfl

/-- A computation further down gives nothing if there is no room, or if it gives nothing there. -/
theorem push_eq_none {x : Stack β} {frames room : Nat}
    (h : frames ≤ room → x (room - frames) = none) : push frames x room = none := by
  unfold push
  split
  · next hroom => exact h hroom
  · rfl

end Stack

namespace Bounded

open Stack

/-! ## Readers -/

section Readers

open Grammar

namespace ReadM

/-- On a stack, the reader gives `r` from some number of frames on. -/
def Needs (x : ReadM α) (r : Except Grammar.Halt α) : Prop :=
  Stack.Needs x.run r

theorem needs_plain (r : Except Grammar.Halt α) : Needs (plain r) r :=
  needs_pure r

theorem needs_throw (e : Grammar.Halt) : Needs (throw e : ReadM α) (.error e) :=
  needs_pure _

theorem needs_return (a : α) : Needs (pure a) (.ok a) :=
  needs_pure _

/-- A reader further down needs so many frames more. -/
theorem Needs.push {x : ReadM α} {r : Except Grammar.Halt α} (h : Needs x r) (frames : Nat) :
    Needs (push frames x) r :=
  Stack.Needs.push h frames

/-- One reader after the other. -/
theorem Needs.bind {x : ReadM α} {r : Except Grammar.Halt α} {f : α → ReadM β}
    {g : α → Except Grammar.Halt β} (h : Needs x r) (hf : ∀ a, Needs (f a) (g a)) :
    Needs (x >>= f) (r >>= g) := by
  unfold Needs
  rw [ExceptT.run_bind]
  cases r with
  | error e => exact Stack.Needs.bind h (needs_pure _)
  | ok a => exact Stack.Needs.bind h (hf a)

/-- A reader that takes no frames, and what comes after it. -/
theorem plain_ok_bind (a : α) (f : α → ReadM β) : plain (.ok a) >>= f = f a :=
  rfl

/-- A reader that gives nothing, and what would have come after it. -/
theorem bind_eq_none {x : ReadM α} {f : α → ReadM β} {room : Nat} (h : x.run room = none) :
    (x >>= f).run room = none := by
  rw [ExceptT.run_bind]
  exact Stack.bind_eq_none h

/-- A reader whose value is made into another one. -/
theorem Needs.map {x : ReadM α} {r : Except Grammar.Halt α} (h : Needs x r) (f : α → β) :
    Needs (x >>= fun a => pure (f a)) (r >>= fun a => pure (f a)) :=
  h.bind fun a => needs_return (f a)

end ReadM

open ReadM

-- The recursion is that of the readers: it goes down in the tokens that are left.
mutual

/-- Reading an expression on a stack is to read it, from some number of frames on. -/
theorem expression_needs (ts : List Token) : (expression ts).Needs (Grammar.expression ts) := by
  rw [expression, Grammar.expression]
  refine ReadM.Needs.push ((operand_needs ts).bind fun left => ?_) 1
  obtain ⟨value, rest, shorter⟩ := left
  cases rest with
  | nil => exact needs_throw _
  | cons t after =>
    have hshorter : after.length + 1 < ts.length := shorter
    dsimp only
    cases operator? t.kind with
    | some op => exact (operand_needs after).map _
    | none =>
      dsimp only
      split
      · refine (operand_needs after).bind fun yes => ?_
        have := yes.shorter
        refine (needs_plain _).bind fun colon => ?_
        have := colon.shorter
        exact (operand_needs colon.rest).map _
      · exact needs_return _
termination_by 2 * ts.length + 1

/-- The same of an operand. -/
theorem operand_needs : ∀ ts : List Token, (operand ts).Needs (Grammar.operand ts)
  | [] => by
    rw [operand, Grammar.operand]
    exact (needs_throw _).push 1
  | t :: ts => by
    rw [operand, Grammar.operand]
    refine ReadM.Needs.push ?_ 1
    split
    · refine ((expression_needs ts).push 1).bind fun inner => ?_
      exact (needs_plain _).map _
    · split
      · exact (needs_plain _).map _
      · split
        · exact ((arguments_needs t.span ts).push 1).map _
        · exact needs_throw _
termination_by ts => 2 * ts.length

/-- The same of the arguments of a call. -/
theorem arguments_needs (last : Span) : ∀ ts : List Token,
    (arguments last ts).Needs (Grammar.arguments last ts)
  | [] => by
    rw [arguments, Grammar.arguments]
    exact needs_throw _
  | t :: ts => by
    rw [arguments, Grammar.arguments]
    split
    · refine ((expression_needs ts).push 1).bind fun inner => ?_
      have := inner.shorter
      refine (needs_plain _).bind fun close => ?_
      have := close.shorter
      exact (arguments_needs close.value.span close.rest).map _
    · split
      · refine (needs_plain _).bind fun value => ?_
        exact (arguments_needs t.span ts).map _
      · split
        · exact (arguments_needs t.span ts).map _
        · exact needs_return _
termination_by ts => 2 * ts.length

end

/-- The same of what follows the name of a line. -/
theorem lineBody_needs (name : Token) (ts : List Token) :
    (lineBody name ts).Needs (Grammar.lineBody name ts) := by
  cases ts with
  | nil => exact needs_throw _
  | cons t ts =>
    rw [lineBody]
    split
    · exact needs_plain _
    · next hsign =>
      rw [Grammar.lineBody, if_neg hsign]
      refine ReadM.Needs.push ((needs_plain _).bind fun params => ?_) 1
      exact (expression_needs params.rest).map _

/-- The same of one line. -/
theorem line_needs (ts : List Token) : (line ts).Needs (Grammar.line ts) := by
  refine ReadM.Needs.push ((needs_plain _).bind fun name => ?_) 1
  refine (lineBody_needs name.value name.rest).bind fun body => ?_
  exact (needs_plain _).map _

/-- Reading lines needs as many frames as the line that needs most of those that are read. -/
theorem lines_needs : ∀ ts : List Token, Stack.Needs (lines ts) (Grammar.lines ts)
  | [] => by
    rw [lines, Grammar.lines]
    exact needs_pure _
  | t :: ts => by
    rw [lines, Grammar.lines]
    split
    · exact needs_pure _
    · next heof =>
      split
      · exact lines_needs ts
      · refine Stack.Needs.bind (line_needs (t :: ts)) ?_
        rcases Grammar.line (t :: ts) with (f | a) | l
        · have hshorter : (skipLine (t :: ts)).length < (t :: ts).length := skipLine_length_lt heof
          exact (lines_needs (skipLine (t :: ts))).bind (needs_pure _)
        · exact needs_pure _
        · have hshorter := l.shorter
          exact (lines_needs l.rest).bind (needs_pure _)
termination_by ts => ts.length
decreasing_by
  · exact hshorter
  · exact hshorter
  · exact Nat.lt_succ_self _

/-- Reading a text on a stack is to read it, from some number of frames on. -/
theorem parse_needs (text file : String) :
    Stack.Needs (parse text file) (Program.parse text file) := by
  refine Stack.Needs.push ?_ 2
  unfold Program.parse
  dsimp only
  split
  · unfold Program.ofTokens
    refine (lines_needs (scan text file).tokens).bind ?_
    cases Grammar.lines (scan text file).tokens with
    | error a => exact needs_pure _
    | ok r =>
      dsimp only
      split <;> exact needs_pure _
  · exact needs_pure _

end Readers

/-! ## Checking -/

section Checks

open Check (State)

namespace CheckM

variable {m : CheckM α} {m' : Check.CheckM α} {f : α → CheckM β} {f' : α → Check.CheckM β}

/-- On a stack, the step does in every state what the other one does, from some number of frames
on. -/
def Needs (m : CheckM α) (m' : Check.CheckM α) : Prop :=
  ∀ s, Stack.Needs (m.run.run s) (m'.run.run s)

theorem needs_plain (m : Check.CheckM α) : Needs (plain m) m :=
  fun _ => needs_pure _

theorem needs_return (a : α) : Needs (pure a) (pure a) :=
  fun _ => needs_pure _

theorem needs_throw (e : Stop) : Needs (throw e : CheckM α) (throw e) :=
  fun _ => needs_pure _

theorem needs_get : Needs get get :=
  fun _ => needs_pure _

/-- A step further down needs so many frames more. -/
theorem Needs.push (h : Needs m m') (frames : Nat) : Needs (push frames m) m' :=
  fun s => (h s).push frames

/-- One step after the other. -/
theorem Needs.bind (h : Needs m m') (hf : ∀ a, Needs (f a) (f' a)) :
    Needs (m >>= f) (m' >>= f') := by
  intro s
  rw [run_bind, ExceptT.run_bind, StateT.run_bind]
  refine (h s).bind ?_
  rcases m'.run.run s with ⟨e | a, t⟩
  · exact needs_pure _
  · exact hf a t

/-- Making a function active takes no frames. -/
theorem Needs.withActive (h : Needs m m') (name : String) :
    Needs (withActive name m) (Check.withActive name m') :=
  fun s => (h { s with active := name :: s.active }).bind (needs_pure _)

/-- Dropping the value of a step takes no frames. -/
theorem Needs.discard (h : Needs m m') : Needs (Functor.discard m) (Functor.discard m') := by
  simp only [Functor.discard, map_const, Function.comp_apply, ← bind_pure_comp]
  exact h.bind fun _ => needs_return _

end CheckM

open CheckM

/-- Every call is checked on a stack as it is without one. -/
def OnCall.Needs (onCall : OnCall) (onCall' : Check.OnCall) : Prop :=
  ∀ f args span, (onCall f args span).Needs (onCall' f args span)

variable {onCall : OnCall} {onCall' : Check.OnCall}

mutual

/-- Typing an expression on a stack is to type it, from some number of frames on, if that holds of
the calls in it. -/
theorem inferExpr_needs (hcall : onCall.Needs onCall') (locals : Assoc Ty) :
    ∀ e : Expr, (inferExpr onCall locals e).Needs (Check.inferExpr onCall' locals e)
  | .lit value _ => by
    rw [inferExpr, Check.inferExpr]
    exact (needs_return _).push 1
  | .call name args span => by
    rw [inferExpr, Check.inferExpr]
    refine CheckM.Needs.push (((inferArgs_needs hcall locals args).push 1).bind fun types => ?_) 2
    cases locals.value? name with
    | some ty =>
      dsimp only
      split
      · exact needs_return _
      · exact needs_plain _
    | none =>
      refine needs_get.bind fun s => ?_
      split
      · exact hcall name types span
      · exact needs_plain _
  | .binary left op right span => by
    rw [inferExpr, Check.inferExpr]
    refine CheckM.Needs.push ((inferExpr_needs hcall locals left).bind fun leftType => ?_) 2
    exact (inferExpr_needs hcall locals right).bind fun rightType => needs_plain _
  | .cond test yes no _ => by
    rw [inferExpr, Check.inferExpr]
    refine CheckM.Needs.push ((inferExpr_needs hcall locals test).bind fun testType => ?_) 2
    split
    · exact needs_plain _
    refine (inferExpr_needs hcall locals yes).bind fun yesType => ?_
    refine (inferExpr_needs hcall locals no).bind fun noType => ?_
    split
    · exact needs_plain _
    · exact needs_return _

/-- The same of the arguments of a call. -/
theorem inferArgs_needs (hcall : onCall.Needs onCall') (locals : Assoc Ty) :
    ∀ es : List Expr, (inferArgs onCall locals es).Needs (Check.inferArgs onCall' locals es)
  | [] => by
    rw [inferArgs, Check.inferArgs]
    exact needs_return _
  | e :: es => by
    rw [inferArgs, Check.inferArgs]
    refine (inferExpr_needs hcall locals e).bind fun ty => ?_
    exact (inferArgs_needs hcall locals es).bind fun types => needs_return _

end

/-- The same of a clause. -/
theorem checkClause_needs (hcall : onCall.Needs onCall') (c : Clause) (args : List Ty) :
    (checkClause onCall c args).Needs (Check.checkClause onCall' c args) := by
  unfold checkClause Check.checkClause
  refine CheckM.Needs.push ((needs_plain _).bind fun _ => ?_) 1
  split
  · exact needs_plain _
  · cases Check.literalMismatch? c.params args with
    | some fault => exact needs_throw _
    | none => exact inferExpr_needs hcall _ c.body

/-- The same of several clauses. -/
theorem checkClauses_needs (hcall : onCall.Needs onCall') (args : List Ty) (cs : List Clause) :
    (checkClauses onCall args cs).Needs (Check.checkClauses onCall' args cs) := by
  induction cs with
  | nil => exact needs_return _
  | cons c cs ih =>
    refine (checkClause_needs hcall c args).bind fun ty => ?_
    exact ih.bind fun rest => needs_return _

/-- Checking a call on a stack is to check it, from some number of frames on, at any depth. -/
theorem checkCall_needs (depth : Nat) (name : String) (args : List Ty) (span : Option Span) :
    (checkCall depth name args span).Needs (Check.checkCall depth name args span) := by
  induction depth generalizing name args span with
  | zero => exact needs_plain _
  | succ depth ih =>
    unfold checkCall Check.checkCall
    refine CheckM.Needs.push (needs_get.bind fun s => ?_) 1
    dsimp only
    split
    · cases s.signatures.lookup name with
      | some sig => exact needs_plain _
      | none => exact needs_throw _
    split
    · cases s.signatures.lookup name with
      | some sig => exact needs_plain _
      | none => exact needs_plain _
    · refine (needs_plain _).bind fun _ => ?_
      have hclauses := (checkClauses_needs ih args ((s.functions.value? name).getD [])).push 1
      exact (hclauses.withActive name).bind fun results => needs_plain _

/-- The same of a call from outside. -/
theorem call_needs (name : String) (args : List Ty) (span : Option Span) :
    (call name args span).Needs (Check.call name args span) :=
  needs_get.bind fun _ => checkCall_needs _ name args span

/-- The same of the entry point. -/
theorem checkEntryPoint_needs : checkEntryPoint.Needs Check.checkEntryPoint := by
  unfold checkEntryPoint Check.checkEntryPoint
  refine CheckM.Needs.push (needs_get.bind fun s => ?_) 1
  cases s.functions.value? Check.entryPoint with
  | none => exact needs_plain _
  | some clauses =>
    dsimp only
    split
    · exact needs_plain _
    · refine (needs_plain _).bind fun span => ?_
      refine (call_needs Check.entryPoint [] span).bind fun ty => ?_
      split
      · exact needs_plain _
      · exact needs_return _

/-- The same of a declared function. -/
theorem checkDeclared_needs (d : Decl) : (checkDeclared d).Needs (Check.checkDeclared d) := by
  unfold checkDeclared Check.checkDeclared
  refine needs_get.bind fun s => ?_
  split
  · exact needs_return _
  · cases s.signatures.lookup d.name with
    | some sig => exact (call_needs d.name sig.params d.span).discard
    | none => exact needs_throw _

/-- The same of all declared functions, one after the other. -/
theorem checkAllDeclared_needs (ds : Assoc Decl) :
    CheckM.Needs (ds.forM fun q => checkDeclared q.2)
      (ds.forM fun q => Check.checkDeclared q.2) := by
  induction ds with
  | nil => exact needs_return _
  | cons q ds ih => exact (checkDeclared_needs q.2).bind fun _ => ih

/-- Checking a program on a stack is to check it, from some number of frames on. -/
theorem validate_needs (p : Program) : (validate p).Needs (Check.validate p) := by
  unfold validate Check.validate
  refine CheckM.Needs.push ((needs_plain _).bind fun _ => ?_) 1
  refine (needs_plain _).bind fun _ => ?_
  refine checkEntryPoint_needs.bind fun ty => ?_
  refine (needs_plain _).bind fun _ => needs_get.bind fun s => ?_
  refine (checkAllDeclared_needs s.declared).bind fun _ => ?_
  exact (needs_plain _).bind fun _ => needs_get.bind fun t => needs_return _

end Checks

/-! ## Compilation -/

/-- Making the module takes no frames beyond those of the check. -/
theorem program_needs (p : Program) : Stack.Needs (program p) (Compile.program p) := by
  unfold Compile.program
  refine Stack.Needs.push ((validate_needs p Compile.initial).bind ?_) 1
  rcases (Check.validate p).run.run Compile.initial with ⟨stop | table, s⟩
  · exact needs_pure _
  · dsimp only
    rcases (Compile.emit p table).run.run [] with ⟨stop | code, j⟩ <;> exact needs_pure _

/-- **A stack only ends a compilation.** From some number of frames on it gives what it gives
without a stack, and with fewer frames nothing. -/
theorem source_needs (text file : String) :
    Stack.Needs (source text file) (Compile.source text file) := by
  unfold Compile.source
  dsimp only
  refine Stack.Needs.push ((parse_needs text file).bind ?_) 1
  cases Program.parse text file with
  | error e => exact needs_pure _
  | ok p =>
    dsimp only
    refine (program_needs p).bind ?_
    rcases Compile.program p with ⟨e | out, j⟩ <;> exact needs_pure _

/-! ## Parentheses that nest -/

/-- The words of a number in so many parentheses. -/
def nestedWords : Nat → List Word
  | 0 => [Literal.word (.int 1)]
  | n + 1 => enclose true (nestedWords n)

/-- The words of a program whose entry point is a number in so many parentheses. -/
def nestedLine (n : Nat) : List Word :=
  ⟨.identifier, Check.entryPoint⟩ :: ⟨.assign, "="⟩ :: nestedWords n

/-- The text of that program. -/
def nested (n : Nat) : String :=
  spaced (nestedLine n) ++ "\n"

/-- The parentheses match, so the words make up a line. -/
theorem phrase_nestedLine (n : Nat) : Phrase (nestedLine n) := by
  have hwords : Phrase (nestedWords n) := by
    induction n with
    | zero => exact Literal.phrase ⟨by decide, by decide⟩
    | succ n ih => exact ih.enclose true
  refine (hwords.cons_of_mem (w := ⟨.assign, "="⟩) (by decide) rfl).cons ?_ rfl
  exact written_name ⟨⟨_, _, rfl, rfl, rfl⟩, by decide⟩

section Nested

open Grammar Clausal.Derivation

variable {n room : Nat} {ts : List Token}

/-- Tokens of a number in parentheses derive the number. -/
theorem exists_nested (h : ts.map word = nestedWords n) :
    ∃ d : Expression, d.tokens = ts ∧ d.tree = .lit (.int 1) .nowhere := by
  induction n generalizing ts with
  | zero =>
    obtain ⟨t, rfl, ht⟩ := List.map_eq_singleton_iff.1 h
    obtain ⟨l, rfl, hl⟩ := exists_literalLeaf (v := .int 1) ⟨by decide, by decide⟩ ht
    exact ⟨.operand (.literal l), by rw [Expression.tokens, Operand.tokens],
      by rw [Expression.tree, Operand.tree, hl]⟩
  | succ n ih =>
    obtain ⟨opening, inner, closing, rfl, hinner⟩ := map_word_enclose h
    obtain ⟨d, rfl, htree⟩ := ih hinner
    exact ⟨.operand (.paren opening d closing), by rw [Expression.tokens, Operand.tokens],
      by rw [Expression.tree, Operand.tree, htree]⟩

/-- A number in `n` parentheses is not read with less than `3 * n` frames. -/
theorem expression_nested (h : ts.map word = nestedWords n) (hroom : room < 3 * n)
    (rest : List Token) : (expression (ts ++ rest)).run room = none := by
  induction n generalizing ts room rest with
  | zero => omega
  | succ n ih =>
    obtain ⟨opening, inner, closing, rfl, hinner⟩ := map_word_enclose h
    rw [List.cons_append, List.append_assoc, expression]
    refine push_eq_none fun hfirst => ReadM.bind_eq_none ?_
    rw [operand, if_pos opening.2]
    refine push_eq_none fun hsecond => ReadM.bind_eq_none ?_
    exact push_eq_none fun hthird => ih hinner (by omega) _

/-- The tokens of the text: those of its words, the end of the line and that of the file. -/
theorem scan_nested (n : Nat) (file : String) :
    ∃ (name : Leaf .identifier) (sign : Leaf .assign) (ts : List Token) (stop : Leaf .newline)
      (eof : Leaf .eof), name.1.text = Check.entryPoint ∧ ts.map word = nestedWords n ∧
      (∀ t ∈ name.1 :: sign.1 :: (ts ++ [stop.1, eof.1]), t.Readable) ∧
      scan (nested n) file = { tokens := name.1 :: sign.1 :: (ts ++ [stop.1, eof.1]) } := by
  have hphrase := phrase_nestedLine n
  have hsigned : (Cursor.signed {}) = true := rfl
  obtain ⟨all, stop, next, hall, hstop, hdepth, hlast, hscan⟩ :=
    scanFrom_line file hphrase hsigned rfl []
  have hend : scanFrom file next [] =
      { tokens := [⟨.eof, "", .between file next.pos next.pos⟩] } := by
    rw [scanFrom, hdepth, endTokens, hlast]
    rfl
  have hreadable := hphrase.readable hall
  obtain ⟨name, more, rfl, hname, hmore⟩ := List.map_eq_cons_iff.1 hall
  obtain ⟨sign, ts, rfl, hsign, hts⟩ := List.map_eq_cons_iff.1 hmore
  refine ⟨⟨name, congrArg Word.kind hname⟩, ⟨sign, congrArg Word.kind hsign⟩, ts, ⟨stop, hstop⟩,
    ⟨⟨.eof, "", .between file next.pos next.pos⟩, rfl⟩, congrArg Word.text hname, hts, ?_, ?_⟩
  · simp only [← List.cons_append, List.forall_mem_append]
    refine ⟨hreadable, List.forall_mem_cons.2 ⟨?_, List.forall_mem_singleton.2 ?_⟩⟩
    · exact readable_of_kind (by rw [hstop]; decide)
    · exact readable_of_kind (show Kind.eof ∉ _ by decide)
  · rw [scan, nested, String.toList_append]
    refine hscan.trans ?_
    rw [hend]
    simp [Scan.withTokens]

/-- A program of one clause that gives a number compiles. -/
theorem program_number {p : Program}
    (h : p.lines.map Line.bare =
      [.clause ⟨Check.entryPoint, [], .lit (.int 1) .nowhere, .nowhere⟩]) :
    ∃ out, (Compile.program p).1 = .ok out := by
  obtain ⟨lines, file⟩ := p
  obtain ⟨l, rfl, hl⟩ := List.map_eq_singleton_iff.1 h
  cases l with
  | decl d => cases hl
  | clause c =>
    obtain ⟨name, params, body, span⟩ := c
    injection hl with hl
    injection hl with hname hparams hbody
    cases hname
    cases List.map_eq_nil_iff.1 hparams
    cases body with
    | lit v at' =>
      rw [Expr.bare] at hbody
      injection hbody with hv
      cases hv
      exact ⟨_, rfl⟩
    | call | binary | cond =>
      rw [Expr.bare] at hbody
      cases hbody

/-- A number in parentheses makes a program that compiles, however many they are. -/
theorem compile_nested (n : Nat) (file : String) :
    (∀ t ∈ (scan (nested n) file).tokens, t.Short) ∧
      ∃ out, (Compile.source (nested n) file).1 = .ok out := by
  obtain ⟨name, sign, ts, stop, eof, hname, hts, hreadable, hscan⟩ := scan_nested n file
  obtain ⟨d, rfl, htree⟩ := exists_nested hts
  refine ⟨by rw [hscan]; exact fun t ht => (hreadable t ht).short, ?_⟩
  let tree : Derivation := ⟨[.line (.clause name [] sign d) stop], eof⟩
  have htokens : tree.tokens = name.1 :: sign.1 :: (d.tokens ++ [stop.1, eof.1]) := by
    simp [tree, Derivation.tokens, Item.tokens, LineTree.tokens]
  obtain ⟨p, hp, hbare⟩ := Program.ofTokens_complete file tree (htokens ▸ hreadable)
  have hparse : Program.parse (nested n) file = .ok p := by
    rw [Program.parse, hscan]
    exact htokens ▸ hp
  have hlines : p.lines.map Line.bare =
      [.clause ⟨Check.entryPoint, [], .lit (.int 1) .nowhere, .nowhere⟩] := by
    rw [hbare, ← hname, ← htree]
    rfl
  obtain ⟨out, hout⟩ := program_number hlines
  refine ⟨out, ?_⟩
  rw [Compile.source, hparse]
  dsimp only
  rcases hrun : Compile.program p with ⟨e | out', j⟩
  · rw [hrun] at hout
    cases hout
  · rw [hrun] at hout
    exact hout

/-- **Nesting takes stack.** A stack of less than `3 * n` frames is too small to compile a number in
`n` parentheses. -/
theorem source_nested (n : Nat) (file : String) (hroom : room < 3 * n) :
    source (nested n) file room = none := by
  obtain ⟨name, sign, ts, stop, eof, -, hts, -, hscan⟩ := scan_nested n file
  have hline : ∀ room, room < 3 * n →
      (line (name.1 :: sign.1 :: (ts ++ [stop.1, eof.1]))).run room = none := by
    intro room hroom
    rw [line, expect, if_pos name.2, ReadM.plain_ok_bind]
    refine push_eq_none fun _ => ReadM.bind_eq_none ?_
    rw [lineBody, if_neg (by rw [sign.2]; decide), parameters, if_pos sign.2,
      ReadM.plain_ok_bind]
    refine push_eq_none fun _ => ReadM.bind_eq_none ?_
    exact expression_nested hts (by omega) _
  have hlines : ∀ room, room < 3 * n →
      lines (name.1 :: sign.1 :: (ts ++ [stop.1, eof.1])) room = none := by
    intro room hroom
    rw [lines, dif_neg (by rw [name.2]; decide), if_neg (by rw [name.2]; decide)]
    exact Stack.bind_eq_none (hline room hroom)
  rw [source]
  refine push_eq_none fun _ => Stack.bind_eq_none ?_
  rw [parse, hscan]
  exact push_eq_none fun _ => Stack.bind_eq_none (hlines _ (by omega))

end Nested

end Bounded

end Clausal
