import Clausal.Program.Grammar

/-!
# Derivations

The grammar of programs as trees, said without a reader:

* `program := (NEWLINE | line NEWLINE)* EOF`
* `line := name '::' type ('->' type)* | name parameter* '=' expression`
* `parameter := name | literal`
* `expression := operand (op operand | '?' operand ':' operand)?`
* `operand := '(' expression ')' | literal | name argument*`
* `argument := '(' expression ')' | literal | name`

A tree holds the tokens it is made of, each with the proof that it may stand there, so that every
tree is a derivation. `tokens` is what a tree derives, and `tree` the expression it stands for, in
which parentheses and places are gone.

`Derivation.eq_of_tokens_eq`: a list of tokens has at most one derivation. What comes after an
operand decides where it ends, so the statements carry what follows (`EndsOperand`,
`EndsExpression`).
-/

namespace Clausal

/-- The kind of token that an operator is written with. -/
def Op.kind : Op → Token.Kind
  | .add => .plus
  | .sub => .minus
  | .mul => .star
  | .div => .slash
  | .eq => .equal
  | .ne => .notEqual

/-- The place of what has none. -/
def Span.nowhere : Span := ⟨"", 0, 0, 0, 0⟩

namespace Derivation

/-! ## Trees -/

/-- A token of one kind. -/
abbrev Leaf (kind : Token.Kind) := { t : Token // t.kind = kind }

/-- The literal that a token stands for. Integers are those of 32 bits. -/
inductive Denotes : Token → Literal → Prop
  | int {t : Token} {n : Int} : t.kind = .integer → Text.signedDecimal t.text.toList = n →
      -2147483648 ≤ n → n ≤ 2147483647 → Denotes t (.int n)
  | float {t : Token} : t.kind = .float → Denotes t (.float t.text)
  | bool {t : Token} {b : Bool} : t.kind = .boolean → t.text = (if b then "true" else "false") →
      Denotes t (.bool b)

/-- A literal token with its value. -/
structure LiteralLeaf where
  token : Token
  value : Literal
  denotes : Denotes token value

/-- A token that names a type. -/
structure TypeLeaf where
  token : Token
  ty : Ty
  kind : token.kind = .typeName
  text : token.text = ty.name

mutual

/-- `expression := operand (op operand | '?' operand ':' operand)?` -/
inductive Expression where
  | operand (u : Operand)
  | binary (left : Operand) (op : Op) (sign : Leaf op.kind) (right : Operand)
  | cond (test : Operand) (question : Leaf .question) (yes : Operand) (colon : Leaf .colon)
      (no : Operand)

/-- `operand := '(' expression ')' | literal | name argument*` -/
inductive Operand where
  | paren (opening : Leaf .lparen) (inner : Expression) (closing : Leaf .rparen)
  | literal (l : LiteralLeaf)
  | call (name : Leaf .identifier) (args : List Argument)

/-- `argument := '(' expression ')' | literal | name` -/
inductive Argument where
  | paren (opening : Leaf .lparen) (inner : Expression) (closing : Leaf .rparen)
  | literal (l : LiteralLeaf)
  | name (n : Leaf .identifier)

end

/-- `type ('->' type)*` -/
inductive Types where
  | last (t : TypeLeaf)
  | arrow (t : TypeLeaf) (sign : Leaf .arrow) (more : Types)

/-- `parameter := name | literal` -/
inductive Parameter where
  | name (n : Leaf .identifier)
  | literal (l : LiteralLeaf)

/-- `line := name '::' type ('->' type)* | name parameter* '=' expression` -/
inductive LineTree where
  | signature (name : Leaf .identifier) (colons : Leaf .doubleColon) (types : Types)
  | clause (name : Leaf .identifier) (params : List Parameter) (sign : Leaf .assign)
      (body : Expression)

/-- `NEWLINE | line NEWLINE` -/
inductive Item where
  | blank (newline : Leaf .newline)
  | line (l : LineTree) (newline : Leaf .newline)

end Derivation

/-- `program := (NEWLINE | line NEWLINE)* EOF` -/
structure Derivation where
  items : List Derivation.Item
  eof : Derivation.Leaf .eof

namespace Derivation

/-! ## What trees derive -/

mutual

def Expression.tokens : Expression → List Token
  | .operand u => u.tokens
  | .binary left _ sign right => left.tokens ++ sign.1 :: right.tokens
  | .cond test question yes colon no =>
    test.tokens ++ question.1 :: (yes.tokens ++ colon.1 :: no.tokens)

def Operand.tokens : Operand → List Token
  | .paren opening inner closing => opening.1 :: (inner.tokens ++ [closing.1])
  | .literal l => [l.token]
  | .call name args => name.1 :: argumentTokens args

def Argument.tokens : Argument → List Token
  | .paren opening inner closing => opening.1 :: (inner.tokens ++ [closing.1])
  | .literal l => [l.token]
  | .name n => [n.1]

def argumentTokens : List Argument → List Token
  | [] => []
  | a :: args => a.tokens ++ argumentTokens args

end

def Types.tokens : Types → List Token
  | .last t => [t.token]
  | .arrow t sign more => t.token :: sign.1 :: more.tokens

def Parameter.token : Parameter → Token
  | .name n => n.1
  | .literal l => l.token

def LineTree.tokens : LineTree → List Token
  | .signature name colons types => name.1 :: colons.1 :: types.tokens
  | .clause name params sign body =>
    name.1 :: (params.map Parameter.token ++ sign.1 :: body.tokens)

def Item.tokens : Item → List Token
  | .blank newline => [newline.1]
  | .line l newline => l.tokens ++ [newline.1]

/-- The tokens that a derivation derives. -/
def tokens (d : Derivation) : List Token :=
  d.items.flatMap Item.tokens ++ [d.eof.1]

/-! ## What trees stand for -/

mutual

def Expression.tree : Expression → Expr
  | .operand u => u.tree
  | .binary left op _ right => .binary left.tree op right.tree .nowhere
  | .cond test _ yes _ no => .cond test.tree yes.tree no.tree .nowhere

def Operand.tree : Operand → Expr
  | .paren _ inner _ => inner.tree
  | .literal l => .lit l.value .nowhere
  | .call name args => .call name.1.text (argumentTrees args) .nowhere

def Argument.tree : Argument → Expr
  | .paren _ inner _ => inner.tree
  | .literal l => .lit l.value .nowhere
  | .name n => .call n.1.text [] .nowhere

def argumentTrees : List Argument → List Expr
  | [] => []
  | a :: args => a.tree :: argumentTrees args

end

def Types.signature : Types → Signature
  | .last t => ⟨[], t.ty⟩
  | .arrow t _ more => ⟨t.ty :: more.signature.params, more.signature.result⟩

def Parameter.pattern : Parameter → Pattern
  | .name n => .name n.1.text .nowhere
  | .literal l => .lit l.value .nowhere

def LineTree.line : LineTree → Line
  | .signature name _ types => .decl ⟨name.1.text, types.signature, .nowhere⟩
  | .clause name params _ body =>
    .clause ⟨name.1.text, params.map Parameter.pattern, body.tree, .nowhere⟩

def Item.line? : Item → Option Line
  | .blank _ => none
  | .line l _ => some l.line

/-- The lines that a derivation stands for. -/
def lines (d : Derivation) : List Line :=
  d.items.filterMap Item.line?

/-! ## What ends an operand -/

/-- Whether a token of this kind starts an argument. -/
def startsArgument (k : Token.Kind) : Bool :=
  k = .lparen || k.isLiteral || k = .identifier

/-- The tokens after an operand do not go on with an argument. -/
def EndsOperand (rest : List Token) : Prop :=
  ∃ t ts, rest = t :: ts ∧ startsArgument t.kind = false

/-- The tokens after an expression do not go on with an argument, an operator or a branch. -/
def EndsExpression (rest : List Token) : Prop :=
  ∃ t ts, rest = t :: ts ∧ startsArgument t.kind = false ∧ (∀ op : Op, t.kind ≠ op.kind) ∧
    t.kind ≠ .question

/-- What ends an expression ends an operand. -/
theorem EndsExpression.endsOperand {rest : List Token} (h : EndsExpression rest) :
    EndsOperand rest := by
  obtain ⟨t, ts, rfl, ht, -⟩ := h
  exact ⟨t, ts, rfl, ht⟩

/-- An operator ends the operand before it. -/
theorem endsOperand_op {op : Op} (sign : Leaf op.kind) (ts : List Token) :
    EndsOperand (sign.1 :: ts) := by
  refine ⟨sign.1, ts, rfl, ?_⟩
  rw [sign.2]
  cases op <;> rfl

/-- A question mark ends the operand before it. -/
theorem endsOperand_question (sign : Leaf .question) (ts : List Token) :
    EndsOperand (sign.1 :: ts) :=
  ⟨sign.1, ts, rfl, by rw [sign.2]; rfl⟩

/-- A colon ends the operand before it. -/
theorem endsOperand_colon (sign : Leaf .colon) (ts : List Token) : EndsOperand (sign.1 :: ts) :=
  ⟨sign.1, ts, rfl, by rw [sign.2]; rfl⟩

/-- A closing parenthesis and the end of a line end an expression. -/
theorem endsExpression_of_kind {t : Token} (ts : List Token)
    (h : t.kind = .rparen ∨ t.kind = .newline) : EndsExpression (t :: ts) := by
  refine ⟨t, ts, rfl, ?_⟩
  rcases h with h | h <;> rw [h] <;> refine ⟨rfl, fun op => ?_, by decide⟩ <;> cases op <;> decide

/-- A token that denotes a literal is of the kind of a literal. -/
theorem LiteralLeaf.isLiteral (l : LiteralLeaf) : l.token.kind.isLiteral = true := by
  obtain ⟨t, value, h⟩ := l
  cases h with
  | int h | float h | bool h =>
    show t.kind.isLiteral = true
    rw [h]
    rfl

/-- A token that denotes a literal is of no other kind. -/
theorem LiteralLeaf.kind_ne (l : LiteralLeaf) {k : Token.Kind} (h : k.isLiteral = false) :
    l.token.kind ≠ k := by
  rintro rfl
  rw [l.isLiteral] at h
  cases h

/-- An argument has a first token, and it is one that can start an argument. -/
theorem Argument.startsArgument (a : Argument) :
    ∃ t ts, a.tokens = t :: ts ∧ Derivation.startsArgument t.kind = true := by
  cases a with
  | paren opening inner closing =>
    exact ⟨opening.1, _, by rw [Argument.tokens], by rw [opening.2]; rfl⟩
  | literal l =>
    refine ⟨l.token, [], by rw [Argument.tokens], ?_⟩
    simp [Derivation.startsArgument, l.isLiteral]
  | name n => exact ⟨n.1, [], by rw [Argument.tokens], by rw [n.2]; rfl⟩

/-! ## Uniqueness -/

/-- A token stands for one literal. -/
theorem Denotes.unique {t : Token} {v w : Literal} (hv : Denotes t v) (hw : Denotes t w) :
    v = w := by
  cases hv with
  | int hk hn =>
    cases hw with
    | int _ hn' => rw [← hn, ← hn']
    | float hk' | bool hk' => cases hk.symm.trans hk'
  | float hk =>
    cases hw with
    | float _ => rfl
    | int hk' | bool hk' => cases hk.symm.trans hk'
  | @bool b hk ht =>
    cases hw with
    | int hk' | float hk' => cases hk.symm.trans hk'
    | @bool b' _ ht' =>
      have hinj : ∀ b b' : Bool,
          (if b then "true" else "false") = (if b' then "true" else "false") → b = b' := by decide
      rw [hinj b b' (ht.symm.trans ht')]

/-- A token denotes one literal only. -/
theorem LiteralLeaf.eq_of_token_eq {l l' : LiteralLeaf} (h : l.token = l'.token) : l = l' := by
  obtain ⟨t, v, hv⟩ := l
  obtain ⟨t', w, hw⟩ := l'
  cases h
  cases hv.unique hw
  rfl

/-- A token names one type only. -/
theorem TypeLeaf.eq_of_token_eq {l l' : TypeLeaf} (h : l.token = l'.token) : l = l' := by
  obtain ⟨t, ty, hk, ht⟩ := l
  obtain ⟨t', ty', hk', ht'⟩ := l'
  cases h
  have hname : ty.name = ty'.name := ht.symm.trans ht'
  have hty : some ty = some ty' := by rw [← Ty.ofName?_name, ← Ty.ofName?_name, hname]
  cases hty
  rfl

/-- Leaves of different kinds are different tokens. -/
theorem Leaf.ne {j k : Token.Kind} (a : Leaf j) (b : Leaf k) (h : j ≠ k) : a.1 ≠ b.1 := fun heq =>
  h (a.2.symm.trans ((congrArg Token.kind heq).trans b.2))

/-- A sign is no literal. -/
theorem Leaf.ne_literal {k : Token.Kind} (a : Leaf k) (l : LiteralLeaf) (h : k.isLiteral = false) :
    a.1 ≠ l.token := by
  intro heq
  exact l.kind_ne h (heq ▸ a.2)

/-- An expression does not end before an operator. -/
theorem EndsExpression.not_op {op : Op} (sign : Leaf op.kind) (ts : List Token) :
    ¬ EndsExpression (sign.1 :: ts) := by
  rintro ⟨t, ts, heq, -, hop, -⟩
  cases heq
  exact hop op sign.2

/-- An expression does not end before a question mark. -/
theorem EndsExpression.not_question (sign : Leaf .question) (ts : List Token) :
    ¬ EndsExpression (sign.1 :: ts) := by
  rintro ⟨t, ts, heq, -, -, hq⟩
  cases heq
  exact hq sign.2

/-- What starts with an argument does not end an operand. -/
theorem Argument.not_endsOperand (a : Argument) (ts : List Token) :
    ¬ EndsOperand (a.tokens ++ ts) := by
  obtain ⟨t, more, ha, hstart⟩ := a.startsArgument
  rintro ⟨t', ts', heq, hend⟩
  rw [ha, List.cons_append] at heq
  cases heq
  rw [hstart] at hend
  cases hend

/-- A token is the sign of at most one operator. -/
theorem sign_unique {op op' : Op} (sign : Leaf op.kind) (sign' : Leaf op'.kind)
    (h : sign.1 = sign'.1) : ∃ hop : op = op', hop ▸ sign = sign' := by
  have hkind : op.kind = op'.kind := sign.2.symm.trans ((congrArg Token.kind h).trans sign'.2)
  have hop : op = op' := by cases op <;> cases op' <;> simp_all [Op.kind]
  subst hop
  exact ⟨rfl, Subtype.ext h⟩

/-- No operator is a question mark. -/
theorem sign_ne_question {op : Op} (sign : Leaf op.kind) (question : Leaf .question) :
    sign.1 ≠ question.1 := by
  refine Leaf.ne sign question ?_
  cases op <;> decide

/-- The tokens of an expression, up to where it ends, are those of no other expression. -/
def Expression.Unique (e : Expression) : Prop :=
  ∀ (e' : Expression) {rest rest' : List Token}, EndsExpression rest → EndsExpression rest' →
    e.tokens ++ rest = e'.tokens ++ rest' → e = e' ∧ rest = rest'

/-- A closing parenthesis ends what is in parentheses. -/
theorem Expression.Unique.parenthesised {e : Expression} (he : e.Unique) (e' : Expression)
    {opening opening' : Leaf .lparen} {closing closing' : Leaf .rparen} {rest rest' : List Token}
    (h : opening.1 :: (e.tokens ++ [closing.1]) ++ rest =
      opening'.1 :: (e'.tokens ++ [closing'.1]) ++ rest') :
    opening = opening' ∧ closing = closing' ∧ e = e' ∧ rest = rest' := by
  rw [List.cons_append, List.cons_append, List.append_assoc, List.append_assoc,
    List.singleton_append, List.singleton_append] at h
  obtain ⟨hopening, hinner⟩ := List.cons.inj h
  obtain ⟨rfl, hnext⟩ := he e' (endsExpression_of_kind _ (.inl closing.2))
    (endsExpression_of_kind _ (.inl closing'.2)) hinner
  obtain ⟨hclosing, rfl⟩ := List.cons.inj hnext
  exact ⟨Subtype.ext hopening, Subtype.ext hclosing, rfl, rfl⟩

mutual

/-- Two expressions that derive the same tokens up to where they end are one. -/
theorem Expression.unique : ∀ e : Expression, e.Unique
  | .operand u, .operand u', rest, rest', hrest, hrest', h => by
    rw [Expression.tokens, Expression.tokens] at h
    obtain ⟨rfl, rfl⟩ := Operand.unique u u' hrest.endsOperand hrest'.endsOperand h
    exact ⟨rfl, rfl⟩
  | .operand u, .binary left op sign right, rest, rest', hrest, _, h => by
    rw [Expression.tokens, Expression.tokens, List.append_assoc, List.cons_append] at h
    obtain ⟨-, rfl⟩ := Operand.unique u left hrest.endsOperand (endsOperand_op sign _) h
    exact absurd hrest (EndsExpression.not_op sign _)
  | .operand u, .cond test question yes colon no, rest, rest', hrest, _, h => by
    rw [Expression.tokens, Expression.tokens, List.append_assoc, List.cons_append] at h
    obtain ⟨-, rfl⟩ :=
      Operand.unique u test hrest.endsOperand (endsOperand_question question _) h
    exact absurd hrest (EndsExpression.not_question question _)
  | .binary left op sign right, .operand u, rest, rest', _, hrest', h => by
    rw [Expression.tokens, Expression.tokens, List.append_assoc, List.cons_append] at h
    obtain ⟨-, rfl⟩ := Operand.unique left u (endsOperand_op sign _) hrest'.endsOperand h
    exact absurd hrest' (EndsExpression.not_op sign _)
  | .binary left op sign right, .binary left' op' sign' right', rest, rest', hrest, hrest', h => by
    rw [Expression.tokens, Expression.tokens, List.append_assoc, List.append_assoc,
      List.cons_append, List.cons_append] at h
    obtain ⟨rfl, hnext⟩ :=
      Operand.unique left left' (endsOperand_op sign _) (endsOperand_op sign' _) h
    obtain ⟨hsign, hright⟩ := List.cons.inj hnext
    obtain ⟨rfl, rfl⟩ := sign_unique sign sign' hsign
    obtain ⟨rfl, rfl⟩ := Operand.unique right right' hrest.endsOperand hrest'.endsOperand hright
    exact ⟨rfl, rfl⟩
  | .binary left op sign right, .cond test question yes colon no, rest, rest', _, _, h => by
    rw [Expression.tokens, Expression.tokens, List.append_assoc, List.append_assoc,
      List.cons_append, List.cons_append] at h
    obtain ⟨-, h⟩ :=
      Operand.unique left test (endsOperand_op sign _) (endsOperand_question question _) h
    exact absurd (List.cons.inj h).1 (sign_ne_question sign question)
  | .cond test question yes colon no, .operand u, rest, rest', _, hrest', h => by
    rw [Expression.tokens, Expression.tokens, List.append_assoc, List.cons_append] at h
    obtain ⟨-, rfl⟩ :=
      Operand.unique test u (endsOperand_question question _) hrest'.endsOperand h
    exact absurd hrest' (EndsExpression.not_question question _)
  | .cond test question yes colon no, .binary left op sign right, rest, rest', _, _, h => by
    rw [Expression.tokens, Expression.tokens, List.append_assoc, List.append_assoc,
      List.cons_append, List.cons_append] at h
    obtain ⟨-, h⟩ :=
      Operand.unique test left (endsOperand_question question _) (endsOperand_op sign _) h
    exact absurd (List.cons.inj h).1.symm (sign_ne_question sign question)
  | .cond test question yes colon no, .cond test' question' yes' colon' no', rest, rest', hrest,
      hrest', h => by
    rw [Expression.tokens, Expression.tokens, List.append_assoc, List.append_assoc,
      List.cons_append, List.cons_append] at h
    obtain ⟨rfl, hnext⟩ := Operand.unique test test' (endsOperand_question question _)
      (endsOperand_question question' _) h
    obtain ⟨hquestion, hyes⟩ := List.cons.inj hnext
    rw [List.append_assoc, List.append_assoc, List.cons_append, List.cons_append] at hyes
    obtain ⟨rfl, hthen⟩ :=
      Operand.unique yes yes' (endsOperand_colon colon _) (endsOperand_colon colon' _) hyes
    obtain ⟨hcolon, hno⟩ := List.cons.inj hthen
    obtain ⟨rfl, rfl⟩ := Operand.unique no no' hrest.endsOperand hrest'.endsOperand hno
    cases Subtype.ext hquestion
    cases Subtype.ext hcolon
    exact ⟨rfl, rfl⟩

/-- Two operands that derive the same tokens up to where they end are one. -/
theorem Operand.unique : ∀ (u u' : Operand) {rest rest' : List Token},
    EndsOperand rest → EndsOperand rest' → u.tokens ++ rest = u'.tokens ++ rest' →
      u = u' ∧ rest = rest'
  | .paren opening inner closing, .paren opening' inner' closing', rest, rest', _, _, h => by
    rw [Operand.tokens, Operand.tokens] at h
    obtain ⟨rfl, rfl, rfl, rfl⟩ := (Expression.unique inner).parenthesised inner' h
    exact ⟨rfl, rfl⟩
  | .literal l, .literal l', rest, rest', _, _, h => by
    rw [Operand.tokens, Operand.tokens] at h
    obtain ⟨hl, rfl⟩ := List.cons.inj h
    exact ⟨congrArg _ (LiteralLeaf.eq_of_token_eq hl), rfl⟩
  | .call name args, .call name' args', rest, rest', hrest, hrest', h => by
    rw [Operand.tokens, Operand.tokens] at h
    obtain ⟨hname, h⟩ := List.cons.inj h
    obtain ⟨rfl, rfl⟩ := arguments_unique args args' hrest hrest' h
    cases Subtype.ext hname
    exact ⟨rfl, rfl⟩
  | .paren opening .., .literal l, _, _, _, _, h => by
    rw [Operand.tokens, Operand.tokens] at h
    exact absurd (List.cons.inj h).1 (opening.ne_literal l rfl)
  | .paren opening .., .call name .., _, _, _, _, h => by
    rw [Operand.tokens, Operand.tokens] at h
    exact absurd (List.cons.inj h).1 (Leaf.ne opening name (by decide))
  | .literal l, .paren opening .., _, _, _, _, h => by
    rw [Operand.tokens, Operand.tokens] at h
    exact absurd (List.cons.inj h).1.symm (opening.ne_literal l rfl)
  | .literal l, .call name .., _, _, _, _, h => by
    rw [Operand.tokens, Operand.tokens] at h
    exact absurd (List.cons.inj h).1.symm (name.ne_literal l rfl)
  | .call name .., .paren opening .., _, _, _, _, h => by
    rw [Operand.tokens, Operand.tokens] at h
    exact absurd (List.cons.inj h).1 (Leaf.ne name opening (by decide))
  | .call name .., .literal l, _, _, _, _, h => by
    rw [Operand.tokens, Operand.tokens] at h
    exact absurd (List.cons.inj h).1 (name.ne_literal l rfl)

/-- Two lists of arguments that derive the same tokens up to where they end are one. -/
theorem arguments_unique : ∀ (args args' : List Argument) {rest rest' : List Token},
    EndsOperand rest → EndsOperand rest' →
      argumentTokens args ++ rest = argumentTokens args' ++ rest' → args = args' ∧ rest = rest'
  | [], [], _, _, _, _, h => ⟨rfl, h⟩
  | [], a :: args, _, _, hrest, _, h => by
    rw [argumentTokens, argumentTokens, List.nil_append, List.append_assoc] at h
    exact absurd (h ▸ hrest) (a.not_endsOperand _)
  | a :: args, [], _, _, _, hrest', h => by
    rw [argumentTokens, argumentTokens, List.nil_append, List.append_assoc] at h
    exact absurd (h ▸ hrest') (a.not_endsOperand _)
  | a :: args, a' :: args', _, _, hrest, hrest', h => by
    rw [argumentTokens, argumentTokens, List.append_assoc, List.append_assoc] at h
    obtain ⟨rfl, hargs⟩ := Argument.unique a a' h
    obtain ⟨rfl, rfl⟩ := arguments_unique args args' hrest hrest' hargs
    exact ⟨rfl, rfl⟩

/-- Where an argument ends does not depend on what follows. -/
theorem Argument.unique : ∀ (a a' : Argument) {rest rest' : List Token},
    a.tokens ++ rest = a'.tokens ++ rest' → a = a' ∧ rest = rest'
  | .paren opening inner closing, .paren opening' inner' closing', rest, rest', h => by
    rw [Argument.tokens, Argument.tokens] at h
    obtain ⟨rfl, rfl, rfl, rfl⟩ := (Expression.unique inner).parenthesised inner' h
    exact ⟨rfl, rfl⟩
  | .literal l, .literal l', rest, rest', h => by
    rw [Argument.tokens, Argument.tokens] at h
    obtain ⟨hl, rfl⟩ := List.cons.inj h
    exact ⟨congrArg _ (LiteralLeaf.eq_of_token_eq hl), rfl⟩
  | .name n, .name n', rest, rest', h => by
    rw [Argument.tokens, Argument.tokens] at h
    obtain ⟨hn, rfl⟩ := List.cons.inj h
    exact ⟨congrArg _ (Subtype.ext hn), rfl⟩
  | .paren opening .., .literal l, _, _, h => by
    rw [Argument.tokens, Argument.tokens] at h
    exact absurd (List.cons.inj h).1 (opening.ne_literal l rfl)
  | .paren opening .., .name n, _, _, h => by
    rw [Argument.tokens, Argument.tokens] at h
    exact absurd (List.cons.inj h).1 (Leaf.ne opening n (by decide))
  | .literal l, .paren opening .., _, _, h => by
    rw [Argument.tokens, Argument.tokens] at h
    exact absurd (List.cons.inj h).1.symm (opening.ne_literal l rfl)
  | .literal l, .name n, _, _, h => by
    rw [Argument.tokens, Argument.tokens] at h
    exact absurd (List.cons.inj h).1.symm (n.ne_literal l rfl)
  | .name n, .paren opening .., _, _, h => by
    rw [Argument.tokens, Argument.tokens] at h
    exact absurd (List.cons.inj h).1 (Leaf.ne n opening (by decide))
  | .name n, .literal l, _, _, h => by
    rw [Argument.tokens, Argument.tokens] at h
    exact absurd (List.cons.inj h).1 (n.ne_literal l rfl)

end

/-- A newline ends the types of a signature. -/
theorem Types.unique (s s' : Types) {stop stop' : Leaf .newline} {rest rest' : List Token}
    (h : s.tokens ++ stop.1 :: rest = s'.tokens ++ stop'.1 :: rest') :
    s = s' ∧ stop = stop' ∧ rest = rest' := by
  induction s generalizing s' with
  | last t =>
    cases s' with
    | last t' =>
      obtain ⟨ht, hnext⟩ := List.cons.inj h
      obtain ⟨hstop, rfl⟩ := List.cons.inj hnext
      exact ⟨congrArg _ (TypeLeaf.eq_of_token_eq ht), Subtype.ext hstop, rfl⟩
    | arrow t' sign' more' =>
      exact absurd (List.cons.inj (List.cons.inj h).2).1 (Leaf.ne stop sign' (by decide))
  | arrow t sign more ih =>
    cases s' with
    | last t' => exact absurd (List.cons.inj (List.cons.inj h).2).1 (Leaf.ne sign stop' (by decide))
    | arrow t' sign' more' =>
      obtain ⟨ht, hnext⟩ := List.cons.inj h
      obtain ⟨hsign, hmore⟩ := List.cons.inj hnext
      obtain ⟨rfl, rfl, rfl⟩ := ih more' hmore
      cases TypeLeaf.eq_of_token_eq ht
      cases Subtype.ext hsign
      exact ⟨rfl, rfl, rfl⟩

/-- A token is one parameter only. -/
theorem Parameter.eq_of_token_eq {p p' : Parameter} (h : p.token = p'.token) : p = p' := by
  cases p with
  | name n =>
    cases p' with
    | name n' => exact congrArg _ (Subtype.ext h)
    | literal l' => exact absurd h (n.ne_literal l' rfl)
  | literal l =>
    cases p' with
    | name n' => exact absurd h.symm (n'.ne_literal l rfl)
    | literal l' => exact congrArg _ (LiteralLeaf.eq_of_token_eq h)

/-- A sign is no parameter. -/
theorem Parameter.ne_leaf {k : Token.Kind} (p : Parameter) (sign : Leaf k)
    (hname : k ≠ .identifier) (hliteral : k.isLiteral = false) : p.token ≠ sign.1 := by
  cases p with
  | name n => exact Leaf.ne n sign (Ne.symm hname)
  | literal l => exact (sign.ne_literal l hliteral).symm

/-- The sign `=` ends the parameters of a clause. -/
theorem parameters_unique (ps ps' : List Parameter) {sign sign' : Leaf .assign}
    {rest rest' : List Token}
    (h : ps.map Parameter.token ++ sign.1 :: rest = ps'.map Parameter.token ++ sign'.1 :: rest') :
    ps = ps' ∧ sign = sign' ∧ rest = rest' := by
  induction ps generalizing ps' with
  | nil =>
    cases ps' with
    | nil =>
      obtain ⟨hsign, rfl⟩ := List.cons.inj h
      exact ⟨rfl, Subtype.ext hsign, rfl⟩
    | cons p' ps' => exact absurd (List.cons.inj h).1.symm (p'.ne_leaf sign (by decide) rfl)
  | cons p ps ih =>
    cases ps' with
    | nil => exact absurd (List.cons.inj h).1 (p.ne_leaf sign' (by decide) rfl)
    | cons p' ps' =>
      obtain ⟨hp, hps⟩ := List.cons.inj h
      obtain ⟨rfl, rfl, rfl⟩ := ih ps' hps
      cases Parameter.eq_of_token_eq hp
      exact ⟨rfl, rfl, rfl⟩

/-- What follows the name tells signatures from clauses. -/
theorem colons_ne_parameters (colons : Leaf .doubleColon) (ps : List Parameter)
    (sign : Leaf .assign) {ts rest : List Token} :
    colons.1 :: ts ≠ ps.map Parameter.token ++ sign.1 :: rest := by
  intro h
  cases ps with
  | nil => exact absurd (List.cons.inj h).1 (Leaf.ne colons sign (by decide))
  | cons p ps => exact absurd (List.cons.inj h).1.symm (p.ne_leaf colons (by decide) rfl)

theorem LineTree.signature_tokens_append (name : Leaf .identifier) (colons : Leaf .doubleColon)
    (s : Types) (rest : List Token) :
    (LineTree.signature name colons s).tokens ++ rest =
      name.1 :: colons.1 :: (s.tokens ++ rest) := rfl

/-- The tokens of a clause in front of others, from the name on. -/
theorem LineTree.clause_tokens_append (name : Leaf .identifier) (ps : List Parameter)
    (sign : Leaf .assign) (body : Expression) (rest : List Token) :
    (LineTree.clause name ps sign body).tokens ++ rest =
      name.1 :: (ps.map Parameter.token ++ sign.1 :: (body.tokens ++ rest)) := by
  rw [LineTree.tokens, List.cons_append, List.append_assoc, List.cons_append]

/-- A newline ends a line. -/
theorem LineTree.unique (l l' : LineTree) {stop stop' : Leaf .newline} {rest rest' : List Token}
    (h : l.tokens ++ stop.1 :: rest = l'.tokens ++ stop'.1 :: rest') :
    l = l' ∧ stop = stop' ∧ rest = rest' := by
  cases l with
  | signature name colons s =>
    cases l' with
    | signature name' colons' s' =>
      obtain ⟨hname, hnext⟩ := List.cons.inj h
      obtain ⟨hcolons, hs⟩ := List.cons.inj hnext
      obtain ⟨rfl, rfl, rfl⟩ := Types.unique s s' hs
      cases Subtype.ext hname
      cases Subtype.ext hcolons
      exact ⟨rfl, rfl, rfl⟩
    | clause name' ps' sign' body' =>
      rw [signature_tokens_append, clause_tokens_append] at h
      exact absurd (List.cons.inj h).2 (colons_ne_parameters colons ps' sign')
  | clause name ps sign body =>
    cases l' with
    | signature name' colons' s' =>
      rw [signature_tokens_append, clause_tokens_append] at h
      exact absurd (List.cons.inj h).2.symm (colons_ne_parameters colons' ps sign)
    | clause name' ps' sign' body' =>
      rw [clause_tokens_append, clause_tokens_append] at h
      obtain ⟨hname, hnext⟩ := List.cons.inj h
      obtain ⟨rfl, rfl, hbody⟩ := parameters_unique ps ps' hnext
      obtain ⟨rfl, hend⟩ := Expression.unique body body'
        (endsExpression_of_kind _ (.inr stop.2)) (endsExpression_of_kind _ (.inr stop'.2)) hbody
      obtain ⟨hstop, rfl⟩ := List.cons.inj hend
      cases Subtype.ext hname
      exact ⟨rfl, Subtype.ext hstop, rfl⟩

/-- The name of a line comes first. -/
theorem LineTree.tokens_eq_cons (l : LineTree) :
    ∃ (name : Leaf .identifier) (ts : List Token), l.tokens = name.1 :: ts := by
  cases l with
  | signature name colons s => exact ⟨name, _, rfl⟩
  | clause name ps sign body => exact ⟨name, _, rfl⟩

/-- A line starts with a name. -/
theorem LineTree.tokens_append_ne {k : Token.Kind} (l : LineTree) (sign : Leaf k)
    (hk : k ≠ .identifier) (rest rest' : List Token) : l.tokens ++ rest ≠ sign.1 :: rest' := by
  obtain ⟨name, ts, hl⟩ := l.tokens_eq_cons
  rw [hl]
  exact fun h => absurd (List.cons.inj h).1 (Leaf.ne name sign (Ne.symm hk))

/-- Tokens start with one item only. -/
theorem Item.unique (i i' : Item) {rest rest' : List Token}
    (h : i.tokens ++ rest = i'.tokens ++ rest') : i = i' ∧ rest = rest' := by
  cases i with
  | blank stop =>
    cases i' with
    | blank stop' =>
      obtain ⟨hstop, rfl⟩ := List.cons.inj h
      exact ⟨congrArg _ (Subtype.ext hstop), rfl⟩
    | line l' stop' =>
      rw [Item.tokens, Item.tokens, List.append_assoc] at h
      exact absurd h.symm (l'.tokens_append_ne stop (by decide) _ _)
  | line l stop =>
    cases i' with
    | blank stop' =>
      rw [Item.tokens, Item.tokens, List.append_assoc] at h
      exact absurd h (l.tokens_append_ne stop' (by decide) _ _)
    | line l' stop' =>
      rw [Item.tokens, Item.tokens, List.append_assoc, List.append_assoc] at h
      obtain ⟨rfl, rfl, rfl⟩ := LineTree.unique l l' h
      exact ⟨rfl, rfl⟩

/-- No item is read from the end of the file. -/
theorem Item.tokens_append_ne (i : Item) (eof : Leaf .eof) (rest : List Token) :
    i.tokens ++ rest ≠ [eof.1] := by
  cases i with
  | blank stop => exact fun h => absurd (List.cons.inj h).1 (Leaf.ne stop eof (by decide))
  | line l stop =>
    rw [Item.tokens, List.append_assoc]
    exact l.tokens_append_ne eof (by decide) _ _

/-- A list of tokens has at most one derivation. -/
theorem eq_of_tokens_eq {d d' : Derivation} (h : d.tokens = d'.tokens) : d = d' := by
  obtain ⟨items, eof⟩ := d
  obtain ⟨items', eof'⟩ := d'
  simp only [tokens] at h
  induction items generalizing items' with
  | nil =>
    cases items' with
    | nil => rw [Subtype.ext (List.cons.inj h).1]
    | cons i' items' =>
      rw [List.flatMap_cons, List.append_assoc] at h
      exact absurd h.symm (i'.tokens_append_ne eof _)
  | cons i items ih =>
    cases items' with
    | nil =>
      rw [List.flatMap_cons, List.append_assoc] at h
      exact absurd h (i.tokens_append_ne eof' _)
    | cons i' items' =>
      rw [List.flatMap_cons, List.flatMap_cons, List.append_assoc, List.append_assoc] at h
      obtain ⟨rfl, hitems⟩ := Item.unique i i' h
      cases ih items' hitems
      rfl

end Derivation

end Clausal
