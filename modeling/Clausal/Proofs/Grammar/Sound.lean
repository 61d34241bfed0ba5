import Clausal.Proofs.Grammar.Derivation
import Clausal.Proofs.Outcome
import Clausal.Proofs.Token.Words

/-!
# Soundness of reading

The readers of `Grammar` against the trees of `Derivation`, on tokens that have the form of their
kind (`Token.Readable`) and end in their only end-of-file token (`Token.Ready`). A reader that
returns has read the tokens of a tree, and its value is that tree, places aside. A reader that stops
has found a fault: it never runs out of tokens. The induction is the recursion of the readers.

`lines_sound`: reading a program never aborts, and where it meets no fault it has read a derivation.
-/

namespace Clausal

/-! ## Places taken off -/

mutual

/-- An expression without its places. -/
def Expr.bare : Expr → Expr
  | .lit v _ => .lit v .nowhere
  | .call f args _ => .call f (bareAll args) .nowhere
  | .binary l op r _ => .binary l.bare op r.bare .nowhere
  | .cond t y n _ => .cond t.bare y.bare n.bare .nowhere

/-- Expressions without their places. -/
def Expr.bareAll : List Expr → List Expr
  | [] => []
  | e :: es => e.bare :: bareAll es

end

/-- A parameter without its place. -/
def Pattern.bare : Pattern → Pattern
  | .name x _ => .name x .nowhere
  | .lit v _ => .lit v .nowhere

/-- A line without its places. -/
def Line.bare : Line → Line
  | .decl d => .decl ⟨d.name, d.signature, .nowhere⟩
  | .clause c => .clause ⟨c.name, c.params.map Pattern.bare, c.body.bare, .nowhere⟩

/-! ## Readable tokens -/

namespace Token

variable {t : Token}

/-- A token that a reader can make something of. -/
structure Readable (t : Token) : Prop where
  regular : t.Regular
  short : t.Short

/-- Readable tokens up to the only end of the file. -/
inductive Ready : List Token → Prop
  | eof {t : Token} : t.kind = .eof → Ready [t]
  | cons {t : Token} {ts : List Token} : t.kind ≠ .eof → t.Readable → Ready ts → Ready (t :: ts)

/-- Tokens after the first one are ready too, unless that one is the end of the file. -/
theorem Ready.tail {ts : List Token} (h : Ready (t :: ts)) (ht : t.kind ≠ .eof) : Ready ts := by
  cases h with
  | eof heof => exact absurd heof ht
  | cons _ _ hts => exact hts

/-- A ready token can be read, unless it is the end of the file. -/
theorem Ready.head {ts : List Token} (h : Ready (t :: ts)) (ht : t.kind ≠ .eof) : t.Readable := by
  cases h with
  | eof heof => exact absurd heof ht
  | cons _ hread _ => exact hread

/-- The tokens never run out before the end of the file. -/
theorem not_ready_nil : ¬ Ready [] := by
  intro h
  cases h

/-- The tokens after a line are still readable up to the end of the file. -/
theorem Ready.skipLine {ts : List Token} (h : Ready ts) : Ready (Grammar.skipLine ts) := by
  induction h with
  | eof ht => simpa [Grammar.skipLine, ht] using Ready.eof ht
  | @cons t ts ht hread hts ih =>
    unfold Grammar.skipLine
    rw [if_neg ht]
    split
    · exact hts
    · exact ih

/-- Tokens that end in their only end-of-file token. -/
def EndInEof (ts : List Token) : Prop :=
  ∃ body eof, ts = body ++ [eof] ∧ eof.kind = .eof ∧ ∀ t ∈ body, t.kind ≠ .eof

/-- Readable tokens that end in their only end of the file are ready. -/
theorem EndInEof.ready {ts : List Token} (hend : EndInEof ts) (h : ∀ t ∈ ts, t.Readable) :
    Ready ts := by
  obtain ⟨body, eof, rfl, heof, hbody⟩ := hend
  induction body with
  | nil => exact .eof heof
  | cons t body ih =>
    refine .cons (hbody t (by simp)) (h t (by simp)) (ih ?_ ?_)
    · exact fun t' ht' => h t' (by simp_all)
    · exact fun t' ht' => hbody t' (by simp [ht'])

end Token

namespace Grammar

open Token Clausal.Derivation

/-! ## Leaves -/

/-- The line does not fit; reading goes on with the next one. -/
def Halt.IsFault (h : Halt) : Prop :=
  ∃ f, h = .fault f

theorem isFault_unexpected (what : Wanted) (t : Token) : (unexpected what t).IsFault :=
  ⟨_, rfl⟩

/-- The test for 32 bits is the test for these bounds. -/
theorem inRange_iff {n : Int} : inRange n = true ↔ -2147483648 ≤ n ∧ n ≤ 2147483647 := by
  simp [inRange]

/-- A literal token that is read denotes the literal; one that is not is a fault. -/
theorem literal_sound {t : Token} (ht : t.Readable) (hk : t.kind.isLiteral = true) :
    Gives (literal t) (Denotes t) Halt.IsFault := by
  unfold literal
  split
  · next hint =>
    rw [integer_of_isNumeral (ht.regular.1 hint) (ht.short hint)]
    show Gives (if _ then _ else _) _ _
    split
    · next hrange =>
      obtain ⟨hlow, hhigh⟩ := inRange_iff.1 hrange
      exact .int hint rfl hlow hhigh
    · exact ⟨_, rfl⟩
  · next hfloat => exact .float hfloat
  · next hint hfloat =>
    have hbool : t.kind = .boolean := by
      revert hk hint hfloat
      cases t.kind <;> simp [Kind.isLiteral]
    have htext := ht.regular.2.2 hbool
    simp only [List.mem_cons, List.not_mem_nil, or_false] at htext
    refine .bool hbool ?_
    rcases htext with htext | htext <;> rw [htext] <;> rfl

/-- Each operator has one kind of token. -/
theorem operator?_eq_some_iff {k : Kind} {op : Op} : operator? k = some op ↔ k = op.kind := by
  cases k <;> cases op <;> simp [operator?, Op.kind]

/-- A token that is asked for is taken from the front. -/
theorem expect_sound (kind : Kind) (what : Wanted) {ts : List Token} (hts : Ready ts)
    (hkind : kind ≠ .eof) :
    Gives (expect kind what ts)
      (fun r => r.value.kind = kind ∧ ts = r.value :: r.rest ∧ Ready r.rest) Halt.IsFault := by
  cases ts with
  | nil => exact absurd hts not_ready_nil
  | cons t ts =>
    rw [expect]
    split
    · next ht => exact ⟨ht, rfl, hts.tail (ht ▸ hkind)⟩
    · exact isFault_unexpected what t

/-! ## Soundness of expressions -/

/-- What was read from the front of `ts` is the tree of an expression. -/
def IsExpression (ts : List Token) (value : Expr) (rest : List Token) : Prop :=
  ∃ e : Expression, ts = e.tokens ++ rest ∧ value.bare = e.tree

/-- What was read from the front of `ts` is the tree of an operand. -/
def IsOperand (ts : List Token) (value : Expr) (rest : List Token) : Prop :=
  ∃ u : Operand, ts = u.tokens ++ rest ∧ value.bare = u.tree

/-- What was read from the front of `ts` are the trees of arguments. -/
def IsArguments (ts : List Token) (values : List Expr) (rest : List Token) : Prop :=
  ∃ args : List Argument, ts = argumentTokens args ++ rest ∧
    Expr.bareAll values = argumentTrees args

section Rules

variable {ts after after' rest : List Token} {t c : Token} {x y z : Expr} {xs : List Expr}
  {v : Literal} (s : Span)

/-- An operand is an expression. -/
theorem IsOperand.isExpression (h : IsOperand ts x rest) : IsExpression ts x rest := by
  obtain ⟨u, rfl, hx⟩ := h
  exact ⟨.operand u, by rw [Expression.tokens], by rw [Expression.tree, hx]⟩

/-- Two operands with an operator between them are an expression. -/
theorem IsOperand.binary {op : Op} (hl : IsOperand ts x (t :: after)) (ht : t.kind = op.kind)
    (hr : IsOperand after y rest) : IsExpression ts (.binary x op y s) rest := by
  obtain ⟨l, rfl, hx⟩ := hl
  obtain ⟨r, rfl, hy⟩ := hr
  refine ⟨.binary l op ⟨t, ht⟩ r, ?_, ?_⟩
  · simp only [Expression.tokens, List.append_assoc, List.cons_append]
  · rw [Expr.bare, Expression.tree, hx, hy]

/-- A test with two branches is an expression. -/
theorem IsOperand.cond (ht : IsOperand ts x (t :: after)) (hquestion : t.kind = .question)
    (hy : IsOperand after y (c :: after')) (hcolon : c.kind = .colon)
    (hn : IsOperand after' z rest) : IsExpression ts (.cond x y z s) rest := by
  obtain ⟨test, rfl, hx⟩ := ht
  obtain ⟨yes, rfl, hy⟩ := hy
  obtain ⟨no, rfl, hz⟩ := hn
  refine ⟨.cond test ⟨t, hquestion⟩ yes ⟨c, hcolon⟩ no, ?_, ?_⟩
  · simp only [Expression.tokens, List.append_assoc, List.cons_append]
  · rw [Expr.bare, Expression.tree, hx, hy, hz]

/-- An expression in parentheses is an operand. -/
theorem IsExpression.paren (h : IsExpression ts x (c :: rest)) (ht : t.kind = .lparen)
    (hc : c.kind = .rparen) : IsOperand (t :: ts) x rest := by
  obtain ⟨e, rfl, hx⟩ := h
  refine ⟨.paren ⟨t, ht⟩ e ⟨c, hc⟩, ?_, ?_⟩
  · simp only [Operand.tokens, List.append_assoc, List.cons_append, List.nil_append]
  · rw [Operand.tree, hx]

/-- A literal is an operand. -/
theorem isOperand_literal (h : Denotes t v) : IsOperand (t :: ts) (.lit v s) ts :=
  ⟨.literal ⟨t, v, h⟩, by rw [Operand.tokens]; rfl, by rw [Expr.bare, Operand.tree]⟩

/-- A name with arguments is an operand. -/
theorem IsArguments.call (ht : t.kind = .identifier) (h : IsArguments ts xs rest) :
    IsOperand (t :: ts) (.call t.text xs s) rest := by
  obtain ⟨args, rfl, hxs⟩ := h
  refine ⟨.call ⟨t, ht⟩ args, ?_, ?_⟩
  · rw [Operand.tokens, List.cons_append]
  · rw [Expr.bare, Operand.tree, hxs]

theorem isArguments_nil : IsArguments ts [] ts :=
  ⟨[], by rw [argumentTokens, List.nil_append], by rw [Expr.bareAll, argumentTrees]⟩

/-- An expression in parentheses can be the first argument. -/
theorem IsArguments.paren (ht : t.kind = .lparen) (h : IsExpression ts x (c :: after))
    (hc : c.kind = .rparen) (hmore : IsArguments after xs rest) :
    IsArguments (t :: ts) (x :: xs) rest := by
  obtain ⟨e, rfl, hx⟩ := h
  obtain ⟨args, rfl, hxs⟩ := hmore
  refine ⟨.paren ⟨t, ht⟩ e ⟨c, hc⟩ :: args, ?_, ?_⟩
  · simp only [argumentTokens, Argument.tokens, List.append_assoc, List.cons_append,
      List.nil_append]
  · rw [Expr.bareAll, argumentTrees, Argument.tree, hx, hxs]

/-- A literal can be the first argument. -/
theorem IsArguments.literal (h : Denotes t v) (hmore : IsArguments ts xs rest) :
    IsArguments (t :: ts) (.lit v s :: xs) rest := by
  obtain ⟨args, rfl, hxs⟩ := hmore
  refine ⟨.literal ⟨t, v, h⟩ :: args, ?_, ?_⟩
  · simp only [argumentTokens, Argument.tokens, List.cons_append, List.nil_append]
  · rw [Expr.bareAll, argumentTrees, Argument.tree, Expr.bare, hxs]

/-- A bare name can be the first argument. -/
theorem IsArguments.name (ht : t.kind = .identifier) (hmore : IsArguments ts xs rest) :
    IsArguments (t :: ts) (.call t.text [] s :: xs) rest := by
  obtain ⟨args, rfl, hxs⟩ := hmore
  refine ⟨.name ⟨t, ht⟩ :: args, ?_, ?_⟩
  · simp only [argumentTokens, Argument.tokens, List.cons_append, List.nil_append]
  · rw [Expr.bareAll, argumentTrees, Argument.tree, Expr.bare, Expr.bareAll, hxs]

end Rules

/-- The end of the file is no literal. -/
theorem ne_eof_of_isLiteral {k : Kind} (h : k.isLiteral = true) : k ≠ .eof := by
  rintro rfl
  cases h

/-- The end of the file is no operator. -/
theorem op_kind_ne_eof (op : Op) : op.kind ≠ .eof := by
  cases op <;> decide

/-- An expression goes on after its first operand as the next token says. -/
theorem expression_gives {ts : List Token} {Q : Expr → List Token → Prop} {E : Halt → Prop}
    (h : Gives (operand ts) (fun left => ∃ t after, left.rest = t :: after ∧
      (∀ op : Op, t.kind = op.kind → Gives (operand after) (fun right =>
        Q (.binary left.value op right.value (left.value.span.upTo right.value.span))
          right.rest) E) ∧
      (t.kind = .question → Gives (operand after) (fun yes =>
        Gives (expect .colon .colon yes.rest) (fun colon => Gives (operand colon.rest) (fun no =>
          Q (.cond left.value yes.value no.value (left.value.span.upTo no.value.span)) no.rest) E)
          E) E) ∧
      ((∀ op : Op, t.kind ≠ op.kind) → t.kind ≠ .question → Q left.value left.rest)) E) :
    Gives (expression ts) (fun r => Q r.value r.rest) E := by
  rw [expression]
  refine h.bind fun left hleft => ?_
  obtain ⟨t, after, hrest, hop, hquestion, hend⟩ := hleft
  split
  · next hnil => rw [hrest] at hnil; cases hnil
  · next t' after' hcons =>
    rw [hrest] at hcons
    cases hcons
    dsimp only
    split
    · next op hsome =>
      exact (hop op (operator?_eq_some_iff.1 hsome)).bind fun right hright => hright
    · next hnone =>
      split
      · next hq =>
        refine (hquestion hq).bind fun yes hyes => hyes.bind fun colon hcolon => ?_
        exact hcolon.bind fun no hno => hno
      · next hq =>
        rw [hrest] at hend
        refine hend (fun op hkind => ?_) hq
        rw [operator?_eq_some_iff.2 hkind] at hnone
        cases hnone

-- The recursion is that of the readers: it goes down in the tokens that are left.
mutual

/-- An expression that is read has a derivation from the tokens before those that are left. -/
theorem expression_sound (ts : List Token) (hts : Ready ts) :
    Gives (expression ts) (fun r => IsExpression ts r.value r.rest ∧ Ready r.rest)
      Halt.IsFault := by
  refine expression_gives (Q := fun x rest => IsExpression ts x rest ∧ Ready rest)
    ((operand_sound ts hts).imp fun left hleft => ?_)
  obtain ⟨hleft, hrest⟩ := hleft
  cases hcons : left.rest with
  | nil => exact absurd (hcons ▸ hrest) not_ready_nil
  | cons t after =>
    have hshorter : after.length + 1 < ts.length := by simpa [hcons] using left.shorter
    rw [hcons] at hleft hrest
    refine ⟨t, after, rfl, fun op ht => ?_, fun hquestion => ?_, fun _ _ => ?_⟩
    · have hafter := hrest.tail (ht ▸ op_kind_ne_eof op)
      refine (operand_sound after hafter).imp fun right hright => ?_
      exact ⟨hleft.binary _ ht hright.1, hright.2⟩
    · have hafter := hrest.tail (by rw [hquestion]; decide)
      refine (operand_sound after hafter).imp fun yes hyes => ?_
      obtain ⟨hyes, hrest'⟩ := hyes
      have := yes.shorter
      refine (expect_sound .colon .colon hrest' (by decide)).imp fun colon hcolon => ?_
      obtain ⟨hkind, hcons', hready⟩ := hcolon
      have := colon.shorter
      refine (operand_sound colon.rest hready).imp fun no hno => ?_
      rw [hcons'] at hyes
      exact ⟨hleft.cond _ hquestion hyes hkind hno.1, hno.2⟩
    · exact ⟨hleft.isExpression, hrest⟩
termination_by 2 * ts.length + 1

/-- So has an operand. -/
theorem operand_sound : ∀ ts : List Token, Ready ts →
    Gives (operand ts) (fun r => IsOperand ts r.value r.rest ∧ Ready r.rest) Halt.IsFault
  | [], hts => absurd hts not_ready_nil
  | t :: ts, hts => by
    rw [operand]
    split
    · next hopen =>
      have htail := hts.tail (by rw [hopen]; decide)
      refine (expression_sound ts htail).bind fun inner hinner => ?_
      obtain ⟨hinner, hrest⟩ := hinner
      refine (expect_sound .rparen .closing hrest (by decide)).bind fun close hclose => ?_
      obtain ⟨hkind, hcons, hready⟩ := hclose
      rw [hcons] at hinner
      exact ⟨hinner.paren hopen hkind, hready⟩
    · split
      · next hliteral =>
        have heof := ne_eof_of_isLiteral hliteral
        refine (literal_sound (hts.head heof) hliteral).bind fun v hv => ?_
        exact ⟨isOperand_literal _ hv, hts.tail heof⟩
      · split
        · next hname =>
          have htail := hts.tail (by rw [hname]; decide)
          refine (arguments_sound t.span ts htail).bind fun args hargs => ?_
          obtain ⟨hargs, hrest⟩ := hargs
          exact ⟨hargs.call _ hname, hrest⟩
        · exact isFault_unexpected _ t
termination_by ts => 2 * ts.length

/-- So have the arguments of a call. -/
theorem arguments_sound (last : Span) : ∀ ts : List Token, Ready ts →
    Gives (arguments last ts) (fun r => IsArguments ts r.values r.rest ∧ Ready r.rest)
      Halt.IsFault
  | [], hts => absurd hts not_ready_nil
  | t :: ts, hts => by
    rw [arguments]
    split
    · next hopen =>
      have htail := hts.tail (by rw [hopen]; decide)
      refine (expression_sound ts htail).bind fun inner hinner => ?_
      obtain ⟨hinner, hrest⟩ := hinner
      have := inner.shorter
      refine (expect_sound .rparen .closing hrest (by decide)).bind fun close hclose => ?_
      obtain ⟨hkind, hcons, hready⟩ := hclose
      have := close.shorter
      refine (arguments_sound _ close.rest hready).bind fun more hmore => ?_
      obtain ⟨hmore, hrest'⟩ := hmore
      rw [hcons] at hinner
      exact ⟨.paren hopen hinner hkind hmore, hrest'⟩
    · split
      · next hliteral =>
        have heof := ne_eof_of_isLiteral hliteral
        refine (literal_sound (hts.head heof) hliteral).bind fun v hv => ?_
        refine (arguments_sound _ ts (hts.tail heof)).bind fun more hmore => ?_
        obtain ⟨hmore, hrest⟩ := hmore
        exact ⟨hmore.literal _ hv, hrest⟩
      · split
        · next hname =>
          have htail := hts.tail (by rw [hname]; decide)
          refine (arguments_sound _ ts htail).bind fun more hmore => ?_
          obtain ⟨hmore, hrest⟩ := hmore
          exact ⟨hmore.name _ hname, hrest⟩
        · exact ⟨isArguments_nil, hts⟩
termination_by ts => 2 * ts.length

end

/-! ## Soundness of lines -/

/-- A type that is read is the one that the token names. -/
theorem typeNamed_sound {t : Token} {ts : List Token} (hts : Ready (t :: ts)) :
    Gives (typeNamed t) (fun ty => ∃ l : TypeLeaf, l.token = t ∧ l.ty = ty) Halt.IsFault := by
  unfold typeNamed
  split
  · next hk =>
    obtain ⟨ty, hty⟩ := (hts.head (by rw [hk]; decide)).regular.typeName hk
    rw [hty, Ty.ofName?_name]
    exact ⟨⟨t, ty, hk, hty⟩, rfl, rfl⟩
  · exact isFault_unexpected _ t

/-- Types that are read have a derivation. -/
theorem types_sound : ∀ ts : List Token, Ready ts →
    Gives (types ts)
      (fun r => (∃ s : Types, ts = s.tokens ++ r.rest ∧ r.value.1 = s.signature) ∧ Ready r.rest)
      Halt.IsFault
  | [], hts => absurd hts not_ready_nil
  | [t], hts => by
    rw [types]
    have ht := typeNamed_sound hts
    cases hty : typeNamed t with
    | error h => exact ht.of_error hty
    | ok ty =>
      obtain ⟨l, rfl, -⟩ := ht.of_ok hty
      exact absurd (hts.tail (by rw [l.kind]; decide)) not_ready_nil
  | t :: a :: ts, hts => by
    rw [types]
    have ht := typeNamed_sound hts
    cases hty : typeNamed t with
    | error h => exact ht.of_error hty
    | ok ty =>
      obtain ⟨l, rfl, rfl⟩ := ht.of_ok hty
      have htail := hts.tail (by rw [l.kind]; decide)
      dsimp only
      split
      · next harrow =>
        refine (types_sound ts (htail.tail (by rw [harrow]; decide))).bind fun more hmore => ?_
        obtain ⟨⟨s, hs, hsig⟩, hrest⟩ := hmore
        refine ⟨⟨.arrow l ⟨a, harrow⟩ s, ?_, ?_⟩, hrest⟩
        · show l.token :: a :: ts = l.token :: a :: (s.tokens ++ more.rest)
          rw [← hs]
        · rw [Types.signature, ← hsig]
      · exact ⟨⟨.last l, rfl, rfl⟩, htail⟩

/-- Parameters that are read, with the sign after them, have a derivation. -/
theorem parameters_sound : ∀ ts : List Token, Ready ts →
    Gives (parameters ts)
      (fun r => (∃ (ps : List Parameter) (sign : Leaf .assign),
        ts = ps.map Parameter.token ++ sign.1 :: r.rest ∧
          r.value.map Pattern.bare = ps.map Parameter.pattern) ∧ Ready r.rest)
      Halt.IsFault
  | [], hts => absurd hts not_ready_nil
  | t :: ts, hts => by
    rw [parameters]
    split
    · next hassign => exact ⟨⟨[], ⟨t, hassign⟩, rfl, rfl⟩, hts.tail (by rw [hassign]; decide)⟩
    · split
      · next hname =>
        have htail := hts.tail (by rw [hname]; decide)
        refine (parameters_sound ts htail).bind fun more hmore => ?_
        obtain ⟨⟨ps, sign, htokens, hvalues⟩, hrest⟩ := hmore
        refine ⟨⟨.name ⟨t, hname⟩ :: ps, sign, congrArg (t :: ·) htokens, ?_⟩, hrest⟩
        exact congrArg (Pattern.name t.text .nowhere :: ·) hvalues
      · split
        · next hliteral =>
          have heof := ne_eof_of_isLiteral hliteral
          refine (literal_sound (hts.head heof) hliteral).bind fun v hv => ?_
          refine (parameters_sound ts (hts.tail heof)).bind fun more hmore => ?_
          obtain ⟨⟨ps, sign, htokens, hvalues⟩, hrest⟩ := hmore
          refine ⟨⟨.literal ⟨t, v, hv⟩ :: ps, sign, congrArg (t :: ·) htokens, ?_⟩, hrest⟩
          exact congrArg (Pattern.lit v .nowhere :: ·) hvalues
        · exact isFault_unexpected _ t

/-- What is read after the name of a line has a derivation with it. -/
theorem lineBody_sound (name : Leaf .identifier) : ∀ ts : List Token, Ready ts →
    Gives (lineBody name.1 ts)
      (fun r => (∃ l : LineTree, name.1 :: ts = l.tokens ++ r.rest ∧ r.value.bare = l.line) ∧
        Ready r.rest)
      Halt.IsFault
  | [], hts => absurd hts not_ready_nil
  | t :: ts, hts => by
    rw [lineBody]
    split
    · next hcolons =>
      refine (types_sound ts (hts.tail (by rw [hcolons]; decide))).bind fun sig hsig => ?_
      obtain ⟨⟨s, htokens, hvalue⟩, hrest⟩ := hsig
      refine ⟨⟨.signature name ⟨t, hcolons⟩ s, ?_, ?_⟩, hrest⟩
      · rw [LineTree.signature_tokens_append]
        exact congrArg (fun ts => name.1 :: t :: ts) htokens
      · rw [Line.bare, LineTree.line, hvalue]
    · refine (parameters_sound (t :: ts) hts).bind fun params hparams => ?_
      obtain ⟨⟨ps, sign, htokens, hvalues⟩, hrest⟩ := hparams
      refine (expression_sound params.rest hrest).bind fun body hbody => ?_
      obtain ⟨⟨e, hrest', hvalue⟩, hready⟩ := hbody
      rw [hrest'] at htokens
      refine ⟨⟨.clause name ps sign e, ?_, ?_⟩, hready⟩
      · rw [LineTree.clause_tokens_append]
        exact congrArg (name.1 :: ·) htokens
      · rw [Line.bare, LineTree.line, hvalues, hvalue]

/-- A line that is read has a derivation. -/
theorem line_sound {ts : List Token} (hts : Ready ts) :
    Gives (line ts)
      (fun r => (∃ (l : LineTree) (stop : Leaf .newline),
        ts = l.tokens ++ stop.1 :: r.rest ∧ r.value.bare = l.line) ∧ Ready r.rest)
      Halt.IsFault := by
  rw [line]
  refine (expect_sound .identifier .functionName hts (by decide)).bind fun name hname => ?_
  obtain ⟨hkind, htokens, hrest⟩ := hname
  refine (lineBody_sound ⟨name.value, hkind⟩ name.rest hrest).bind fun body hbody => ?_
  obtain ⟨⟨l, hl, hvalue⟩, hrest'⟩ := hbody
  refine (expect_sound .newline .endOfLine hrest' (by decide)).bind fun stop hstop => ?_
  obtain ⟨hkind', hcons, hready⟩ := hstop
  rw [hcons] at hl
  exact ⟨⟨l, ⟨stop.value, hkind'⟩, htokens.trans hl, hvalue⟩, hready⟩

/-- Reading a program to the end of the file never aborts, and where it meets no fault it has read
the items of a derivation. -/
theorem lines_sound (ts : List Token) (hts : Ready ts) :
    Gives (lines ts)
      (fun r => r.faults = [] → ∃ d : Derivation, d.tokens = ts ∧ r.lines.map Line.bare = d.lines)
      (fun _ => False) := by
  cases hts with
  | @eof t heof =>
    rw [lines, dif_pos heof]
    exact fun _ => ⟨⟨[], ⟨t, heof⟩⟩, rfl, rfl⟩
  | @cons t ts heof hread htail =>
    rw [lines, dif_neg heof]
    split
    · next hnewline =>
      refine (lines_sound ts htail).imp fun r hr hfaults => ?_
      obtain ⟨d, rfl, hlines⟩ := hr hfaults
      exact ⟨⟨.blank ⟨t, hnewline⟩ :: d.items, d.eof⟩, rfl, hlines⟩
    · have hline := line_sound (.cons heof hread htail)
      split
      · next l hl =>
        obtain ⟨⟨tree, stop, htokens, hvalue⟩, hrest⟩ := hline.of_ok hl
        have hshorter : l.rest.length ≤ ts.length := Nat.le_of_lt_succ l.shorter
        refine gives_map.2 ((lines_sound l.rest hrest).imp fun r hr hfaults => ?_)
        obtain ⟨d, hd, hlines⟩ := hr hfaults
        refine ⟨⟨.line tree stop :: d.items, d.eof⟩, ?_, ?_⟩
        · rw [htokens, ← hd]
          simp [tokens, Item.tokens]
        · simp [Reading.withLine, Derivation.lines, Item.line?, hvalue, hlines]
      · next f hl =>
        have hshorter : (skipLine (t :: ts)).length ≤ ts.length :=
          Nat.le_of_lt_succ (skipLine_length_lt heof)
        have hskip := (Ready.cons heof hread htail).skipLine
        refine gives_map.2 ((lines_sound _ hskip).imp fun r _ hfaults => ?_)
        cases hfaults
      · next a hl =>
        obtain ⟨f, hf⟩ := hline.of_error hl
        cases hf
termination_by ts.length

end Grammar

end Clausal
