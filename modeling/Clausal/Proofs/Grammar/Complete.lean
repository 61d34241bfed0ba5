import Clausal.Proofs.Grammar.Sound

/-!
# Completeness of reading

On the tokens of a tree, before tokens that cannot go on with it, a reader returns the tree, places
aside. The induction is that of the trees, and what follows a tree (`EndsOperand`,
`EndsExpression`) decides that the reader stops where the tree does.

With soundness, a program is read from its tokens if and only if they have a derivation, and then
it is that derivation (`Program.ofTokens_accepts_derivations`).
-/

namespace Clausal

namespace Grammar

open Token Clausal.Derivation

/-! ## Leaves -/

/-- A token that denotes a literal is read as it. -/
theorem literal_complete {l : LiteralLeaf} (hl : l.token.Readable) :
    Gives (literal l.token) (fun v => v = l.value) fun _ => False := by
  obtain ⟨t, v, h⟩ := l
  unfold literal
  cases h with
  | int hk hn hlow hhigh =>
    dsimp only at hl ⊢
    rw [hk, integer_of_isNumeral (hl.regular.1 hk) (hl.short hk), hn]
    dsimp only
    rw [if_pos (inRange_iff.2 ⟨hlow, hhigh⟩)]
    rfl
  | float hk =>
    dsimp only
    rw [hk]
    rfl
  | @bool b hk htext =>
    dsimp only
    rw [hk, htext]
    cases b <;> rfl

/-- A token of the kind that is asked for is taken. -/
theorem expect_complete {kind : Kind} (what : Wanted) (sign : Leaf kind) {ts rest : List Token}
    (hts : ts = sign.1 :: rest) :
    Gives (expect kind what ts) (fun r => r.value = sign.1 ∧ r.rest = rest) fun _ => False := by
  subst hts
  rw [expect, if_pos sign.2]
  exact ⟨rfl, rfl⟩

/-! ## Completeness of expressions -/

section Complete

variable {ts rest : List Token}

/-- The reader returns `x`, places aside, and leaves `rest`. -/
def Returns (r : Except Halt (Parsed Expr ts)) (x : Expr) (rest : List Token) : Prop :=
  Gives r (fun v => v.value.bare = x ∧ v.rest = rest) fun _ => False

/-- The reader of arguments returns `xs`, places aside, and leaves `rest`. -/
def ReturnsAll (r : Except Halt (Arguments ts)) (xs : List Expr) (rest : List Token) : Prop :=
  Gives r (fun v => Expr.bareAll v.values = xs ∧ v.rest = rest) fun _ => False

/-- An expression in parentheses is read up to the closing one. -/
theorem gives_parenthesised {α : Type} {x : Expr} {closing : Leaf .rparen} {Q : α → Prop}
    {f : (v : Parsed Expr ts) → Parsed Token v.rest → Except Halt α}
    (h : Returns (expression ts) x (closing.1 :: rest))
    (hf : ∀ (v : Parsed Expr ts) (close : Parsed Token v.rest), v.value.bare = x →
      close.rest = rest → Gives (f v close) Q fun _ => False) :
    Gives (do let v ← expression ts; let close ← expect .rparen .closing v.rest; f v close) Q
      fun _ => False := by
  refine Gives.bind h fun v hv => ?_
  obtain ⟨hvalue, hrest⟩ := hv
  exact (expect_complete .closing closing hrest).bind fun close hclose =>
    hf v close hvalue hclose.2

end Complete

-- The recursion is that of the trees: what a tree is made of is read before it.
mutual

/-- A derived expression is read, up to what ends it. -/
theorem expression_complete : ∀ (e : Expression) {ts rest : List Token},
    ts = e.tokens ++ rest → (∀ t ∈ e.tokens, t.Readable) → EndsExpression rest →
      Returns (expression ts) e.tree rest
  | .operand u, ts, rest, hts, hread, hrest => by
    rw [Expression.tokens] at hts hread
    refine expression_gives (Q := fun x after => x.bare = _ ∧ after = rest)
      ((operand_complete u hts hread hrest.endsOperand).imp fun left hleft => ?_)
    obtain ⟨hvalue, hleft⟩ := hleft
    obtain ⟨t, after, rfl, -, hop, hquestion⟩ := hrest
    refine ⟨t, after, hleft, fun op ht => absurd ht (hop op), fun ht => absurd ht hquestion,
      fun _ _ => ?_⟩
    exact ⟨by rw [hvalue, Expression.tree], hleft⟩
  | .binary l op sign r, ts, rest, hts, hread, hrest => by
    simp only [Expression.tokens, List.append_assoc, List.cons_append] at hts
    simp only [Expression.tokens, List.mem_append, List.mem_cons] at hread
    refine expression_gives (Q := fun x after => x.bare = _ ∧ after = rest)
      ((operand_complete l hts (fun t ht => hread t (.inl ht)) (endsOperand_op sign _)).imp
        fun left hleft => ?_)
    obtain ⟨hl, hleft⟩ := hleft
    refine ⟨_, _, hleft, fun op' ht => ?_, fun ht => ?_, fun ht => ?_⟩
    · obtain ⟨rfl, -⟩ := sign_unique sign ⟨sign.1, ht⟩ rfl
      refine (operand_complete r rfl (fun t ht => hread t (.inr (.inr ht)))
        hrest.endsOperand).imp fun right hright => ?_
      exact ⟨by rw [Expr.bare, Expression.tree, hl, hright.1], hright.2⟩
    · exact absurd rfl (sign_ne_question sign ⟨sign.1, ht⟩)
    · exact absurd sign.2 (ht op)
  | .cond c question y colon n, ts, rest, hts, hread, hrest => by
    simp only [Expression.tokens, List.append_assoc, List.cons_append] at hts
    simp only [Expression.tokens, List.mem_append, List.mem_cons] at hread
    refine expression_gives (Q := fun x after => x.bare = _ ∧ after = rest)
      ((operand_complete c hts (fun t ht => hread t (.inl ht))
        (endsOperand_question question _)).imp fun test htest => ?_)
    obtain ⟨hc, htest⟩ := htest
    refine ⟨_, _, htest, fun op ht => ?_, fun _ => ?_, fun _ ht => absurd question.2 ht⟩
    · exact absurd rfl (sign_ne_question ⟨question.1, ht⟩ question)
    · refine (operand_complete y rfl (fun t ht => hread t (.inr (.inr (.inl ht))))
        (endsOperand_colon colon _)).imp fun yes hyes => ?_
      obtain ⟨hy, hyes⟩ := hyes
      refine (expect_complete .colon colon hyes).imp fun c hcolon => ?_
      refine (operand_complete n hcolon.2 (fun t ht => hread t (.inr (.inr (.inr (.inr ht)))))
        hrest.endsOperand).imp fun no hno => ?_
      exact ⟨by rw [Expr.bare, Expression.tree, hc, hy, hno.1], hno.2⟩

/-- So is a derived operand. -/
theorem operand_complete : ∀ (u : Operand) {ts rest : List Token},
    ts = u.tokens ++ rest → (∀ t ∈ u.tokens, t.Readable) → EndsOperand rest →
      Returns (operand ts) u.tree rest
  | .paren opening inner closing, ts, rest, hts, hread, _ => by
    simp only [Operand.tokens, List.append_assoc, List.cons_append, List.nil_append] at hts
    simp only [Operand.tokens, List.mem_append, List.mem_cons] at hread
    subst hts
    rw [Returns, operand, if_pos opening.2]
    refine gives_parenthesised (expression_complete inner rfl
      (fun t ht => hread t (.inr (.inl ht))) (endsExpression_of_kind _ (.inl closing.2)))
      fun v close hv hclose => ?_
    exact ⟨by rw [hv, Operand.tree], hclose⟩
  | .literal l, ts, rest, hts, hread, _ => by
    rw [Operand.tokens] at hts hread
    subst hts
    rw [Returns, List.singleton_append, operand, if_neg (l.kind_ne rfl), if_pos l.isLiteral]
    refine (literal_complete (hread _ (by simp))).bind fun v hv => ?_
    exact ⟨by rw [hv, Expr.bare, Operand.tree], rfl⟩
  | .call name args, ts, rest, hts, hread, hrest => by
    rw [Operand.tokens, List.cons_append] at hts
    simp only [Operand.tokens, List.mem_cons] at hread
    subst hts
    rw [Returns, operand, if_neg (by rw [name.2]; decide), if_neg (by rw [name.2]; decide),
      if_pos name.2]
    refine Gives.bind (arguments_complete args _ rfl (fun t ht => hread t (.inr ht)) hrest)
      fun v hv => ?_
    exact ⟨by rw [Expr.bare, Operand.tree, hv.1], hv.2⟩

/-- So are derived arguments. -/
theorem arguments_complete : ∀ (args : List Argument) {ts rest : List Token} (last : Span),
    ts = argumentTokens args ++ rest → (∀ t ∈ argumentTokens args, t.Readable) →
      EndsOperand rest → ReturnsAll (arguments last ts) (argumentTrees args) rest
  | [], ts, rest, last, hts, _, hrest => by
    rw [argumentTokens, List.nil_append] at hts
    subst hts
    obtain ⟨t, after, rfl, hend⟩ := hrest
    simp only [startsArgument, Bool.or_eq_false_iff, decide_eq_false_iff_not] at hend
    obtain ⟨⟨hparen, hliteral⟩, hname⟩ := hend
    rw [ReturnsAll, arguments, if_neg hparen, if_neg (by rw [hliteral]; decide), if_neg hname]
    exact ⟨by rw [Expr.bareAll, argumentTrees], rfl⟩
  | .paren opening inner closing :: args, ts, rest, last, hts, hread, hrest => by
    simp only [argumentTokens, Argument.tokens, List.append_assoc, List.cons_append,
      List.nil_append] at hts
    simp only [argumentTokens, Argument.tokens, List.mem_append, List.mem_cons] at hread
    subst hts
    rw [ReturnsAll, arguments, if_pos opening.2]
    refine gives_parenthesised (expression_complete inner rfl
      (fun t ht => hread t (.inl (.inr (.inl ht)))) (endsExpression_of_kind _ (.inl closing.2)))
      fun v close hv hclose => ?_
    refine Gives.bind (arguments_complete args _ hclose (fun t ht => hread t (.inr ht)) hrest)
      fun more hmore => ?_
    exact ⟨by rw [Expr.bareAll, argumentTrees, Argument.tree, hv, hmore.1], hmore.2⟩
  | .literal l :: args, ts, rest, last, hts, hread, hrest => by
    simp only [argumentTokens, Argument.tokens, List.cons_append, List.nil_append] at hts
    simp only [argumentTokens, Argument.tokens, List.mem_append, List.mem_cons] at hread
    subst hts
    rw [ReturnsAll, arguments, if_neg (l.kind_ne rfl), if_pos l.isLiteral]
    refine (literal_complete (hread _ (.inl (.inl rfl)))).bind fun v hv => ?_
    refine Gives.bind (arguments_complete args _ rfl (fun t ht => hread t (.inr ht)) hrest)
      fun more hmore => ?_
    exact ⟨by rw [Expr.bareAll, argumentTrees, Argument.tree, Expr.bare, hv, hmore.1], hmore.2⟩
  | .name n :: args, ts, rest, last, hts, hread, hrest => by
    simp only [argumentTokens, Argument.tokens, List.cons_append, List.nil_append] at hts
    simp only [argumentTokens, Argument.tokens, List.mem_append, List.mem_cons] at hread
    subst hts
    rw [ReturnsAll, arguments, if_neg (by rw [n.2]; decide), if_neg (by rw [n.2]; decide),
      if_pos n.2]
    refine Gives.bind (arguments_complete args _ rfl (fun t ht => hread t (.inr ht)) hrest)
      fun more hmore => ?_
    exact ⟨by rw [Expr.bareAll, argumentTrees, Argument.tree, Expr.bare, Expr.bareAll, hmore.1],
      hmore.2⟩

end

/-! ## Completeness of lines -/

/-- A token that names a type is read as it. -/
theorem typeNamed_complete (l : TypeLeaf) : typeNamed l.token = .ok l.ty := by
  rw [typeNamed, if_pos l.kind, l.text, Ty.ofName?_name]

/-- Derived types are read, up to the end of the line. -/
theorem types_complete (s : Types) (stop : Leaf .newline) {ts rest : List Token}
    (hts : ts = s.tokens ++ stop.1 :: rest) :
    Gives (types ts) (fun r => r.value.1 = s.signature ∧ r.rest = stop.1 :: rest)
      fun _ => False := by
  induction s generalizing ts with
  | last l =>
    rw [Types.tokens, List.singleton_append] at hts
    subst hts
    rw [types, typeNamed_complete]
    dsimp only
    rw [if_neg (by rw [stop.2]; decide)]
    exact ⟨rfl, rfl⟩
  | arrow l sign more ih =>
    rw [Types.tokens, List.cons_append, List.cons_append] at hts
    subst hts
    rw [types, typeNamed_complete]
    dsimp only
    rw [if_pos sign.2]
    refine (ih rfl).bind fun r hr => ?_
    obtain ⟨hsig, hrest⟩ := hr
    exact ⟨by rw [Types.signature, ← hsig], hrest⟩

/-- Derived parameters are read, with the sign after them. -/
theorem parameters_complete (ps : List Parameter) (sign : Leaf .assign) {ts rest : List Token}
    (hts : ts = ps.map Parameter.token ++ sign.1 :: rest)
    (hread : ∀ t ∈ ps.map Parameter.token, t.Readable) :
    Gives (parameters ts)
      (fun r => r.value.map Pattern.bare = ps.map Parameter.pattern ∧ r.rest = rest)
      fun _ => False := by
  induction ps generalizing ts with
  | nil =>
    rw [List.map_nil, List.nil_append] at hts
    subst hts
    rw [parameters, if_pos sign.2]
    exact ⟨rfl, rfl⟩
  | cons p ps ih =>
    rw [List.map_cons, List.cons_append] at hts
    rw [List.map_cons, List.forall_mem_cons] at hread
    obtain ⟨hp, hps⟩ := hread
    subst hts
    cases p with
    | name n =>
      rw [Parameter.token, parameters, if_neg (by rw [n.2]; decide), if_pos n.2]
      refine (ih rfl hps).bind fun r hr => ?_
      exact ⟨by rw [List.map_cons, List.map_cons, hr.1, Pattern.bare, Parameter.pattern], hr.2⟩
    | literal l =>
      rw [Parameter.token, parameters, if_neg (l.kind_ne rfl), if_neg (l.kind_ne rfl),
        if_pos l.isLiteral]
      refine (literal_complete hp).bind fun v hv => ?_
      refine (ih rfl hps).bind fun r hr => ?_
      exact ⟨by rw [List.map_cons, List.map_cons, hr.1, hv, Pattern.bare, Parameter.pattern], hr.2⟩

/-- A derived line is read from behind its name, up to its end. -/
theorem lineBody_complete (l : LineTree) (stop : Leaf .newline) {name : Token}
    {ts rest : List Token} (hts : name :: ts = l.tokens ++ stop.1 :: rest)
    (hread : ∀ t ∈ l.tokens, t.Readable) :
    Gives (lineBody name ts) (fun r => r.value.bare = l.line ∧ r.rest = stop.1 :: rest)
      fun _ => False := by
  cases l with
  | signature fn colons s =>
    rw [LineTree.signature_tokens_append] at hts
    cases hts
    rw [lineBody, if_pos colons.2]
    refine (types_complete s stop rfl).bind fun r hr => ?_
    exact ⟨by rw [Line.bare, LineTree.line, hr.1], hr.2⟩
  | clause fn ps sign body =>
    rw [LineTree.clause_tokens_append] at hts
    obtain ⟨rfl, hafter⟩ := List.cons.inj hts
    simp only [LineTree.tokens, List.mem_cons, List.mem_append] at hread
    cases ts with
    | nil => simp at hafter
    | cons t ts =>
      have hcolons : t.kind ≠ .doubleColon := by
        intro h
        exact colons_ne_parameters ⟨t, h⟩ ps sign hafter
      rw [lineBody, if_neg hcolons]
      refine (parameters_complete ps sign hafter fun t ht => hread t (.inr (.inl ht))).bind
        fun params hparams => ?_
      refine Gives.bind (expression_complete body hparams.2
        (fun t ht => hread t (.inr (.inr (.inr ht)))) (endsExpression_of_kind _ (.inr stop.2)))
        fun r hr => ?_
      exact ⟨by rw [Line.bare, LineTree.line, hparams.1, hr.1], hr.2⟩

/-- A derived line is read, with the token that ends it. -/
theorem line_complete (l : LineTree) (stop : Leaf .newline) {ts rest : List Token}
    (hts : ts = l.tokens ++ stop.1 :: rest) (hread : ∀ t ∈ l.tokens, t.Readable) :
    Gives (line ts) (fun r => r.value.bare = l.line ∧ r.rest = rest) fun _ => False := by
  obtain ⟨name, more, hl⟩ := l.tokens_eq_cons
  have hname : ts = name.1 :: (more ++ stop.1 :: rest) := by rw [hts, hl, List.cons_append]
  rw [line]
  refine (expect_complete .functionName name hname).bind fun n hn => ?_
  have hbody : n.value :: n.rest = l.tokens ++ stop.1 :: rest := by
    rw [hn.1, hn.2, hl, List.cons_append]
  refine (lineBody_complete l stop hbody hread).bind fun body hbody => ?_
  refine (expect_complete .endOfLine stop hbody.2).bind fun r hr => ?_
  exact ⟨hbody.1, hr.2⟩

/-- On the tokens of a derivation, reading meets no fault and returns its lines. -/
theorem lines_complete (items : List Item) (eof : Leaf .eof) {ts : List Token}
    (hts : ts = items.flatMap Item.tokens ++ [eof.1])
    (hread : ∀ t ∈ items.flatMap Item.tokens, t.Readable) :
    Gives (lines ts)
      (fun r => r.faults = [] ∧ r.lines.map Line.bare = items.filterMap Item.line?)
      fun _ => False := by
  induction items generalizing ts with
  | nil =>
    rw [List.flatMap_nil, List.nil_append] at hts
    subst hts
    rw [lines, dif_pos eof.2]
    exact ⟨rfl, rfl⟩
  | cons i items ih =>
    simp only [List.flatMap_cons, List.append_assoc] at hts
    simp only [List.flatMap_cons, List.mem_append] at hread
    have ih := ih rfl fun t ht => hread t (.inr ht)
    cases i with
    | blank stop =>
      rw [Item.tokens, List.singleton_append] at hts
      subst hts
      rw [lines, dif_neg (by rw [stop.2]; decide), if_pos stop.2]
      exact ih
    | line l stop =>
      rw [Item.tokens, List.append_assoc, List.singleton_append] at hts
      have hline := line_complete l stop hts fun t ht => hread t (.inl (by simp [Item.tokens, ht]))
      obtain ⟨name, more, hl⟩ := l.tokens_eq_cons
      rw [hl, List.cons_append] at hts
      subst hts
      rw [lines, dif_neg (by rw [name.2]; decide), if_neg (by rw [name.2]; decide)]
      split
      · next r hr =>
        obtain ⟨hvalue, hrest⟩ := hline.of_ok hr
        rw [hrest]
        refine gives_map.2 (ih.imp fun r hr => ?_)
        exact ⟨hr.1, by simp [Reading.withLine, Item.line?, hvalue, hr.2]⟩
      · next f hf => exact (hline.of_error hf).elim
      · next a ha => exact (hline.of_error ha).elim

end Grammar

/-! ## Programs -/

namespace Program

open Token Grammar

/-- On readable tokens, a program is read or there are diagnostics. -/
theorem ofTokens_sound (file : String) {ts : List Token} (hts : Ready ts) :
    (∃ (p : Program) (d : Derivation), ofTokens file ts = .ok p ∧ d.tokens = ts ∧
      p.lines.map Line.bare = d.lines ∧ p.file = file) ∨
    ∃ ds, ds ≠ [] ∧ ofTokens file ts = .error (.batch ds) := by
  have hlines := lines_sound ts hts
  unfold ofTokens
  cases hr : Grammar.lines ts with
  | error a => exact (hlines.of_error hr).elim
  | ok r =>
    dsimp only
    split
    · next hempty =>
      obtain ⟨d, hd, hbare⟩ := hlines.of_ok hr (List.isEmpty_iff.1 hempty)
      exact .inl ⟨⟨r.lines, file⟩, d, rfl, hd, hbare, rfl⟩
    · next hempty =>
      refine .inr ⟨_, ?_, rfl⟩
      simpa using hempty

/-- The tokens of a derivation are read as its lines. -/
theorem ofTokens_complete (file : String) (d : Derivation)
    (hread : ∀ t ∈ d.tokens, t.Readable) :
    ∃ p, ofTokens file d.tokens = .ok p ∧ p.lines.map Line.bare = d.lines := by
  have hlines := lines_complete d.items d.eof rfl fun t ht => hread t (List.mem_append_left _ ht)
  unfold ofTokens
  rw [Derivation.tokens]
  cases hr : Grammar.lines (d.items.flatMap Derivation.Item.tokens ++ [d.eof.1]) with
  | error a => exact (hlines.of_error hr).elim
  | ok r =>
    obtain ⟨hfaults, hbare⟩ := hlines.of_ok hr
    dsimp only
    rw [hfaults]
    exact ⟨_, rfl, hbare⟩

/-- **The programs are the derivations.** Tokens that end in their only end-of-file token, each of
the form of its kind and no integer longer than is ever converted, are read as a program if and
only if they have a derivation. The derivation is then the only one and the lines of the program
are its lines, places aside. Tokens without a derivation are reported. -/
theorem ofTokens_accepts_derivations (file : String) (ts : List Token) (hend : EndInEof ts)
    (hregular : ∀ t ∈ ts, t.Regular) (hshort : ∀ t ∈ ts, t.Short) :
    ((∃ p, ofTokens file ts = .ok p) ↔ ∃ d : Derivation, d.tokens = ts) ∧
      (∀ d d' : Derivation, d.tokens = ts → d'.tokens = ts → d = d') ∧
      (∀ (p : Program) (d : Derivation), ofTokens file ts = .ok p → d.tokens = ts →
        p.lines.map Line.bare = d.lines ∧ p.file = file) ∧
      ((¬ ∃ d : Derivation, d.tokens = ts) →
        ∃ ds, ds ≠ [] ∧ ofTokens file ts = .error (.batch ds)) := by
  have hread : ∀ t ∈ ts, t.Readable := fun t ht => ⟨hregular t ht, hshort t ht⟩
  have hsound := ofTokens_sound file (hend.ready hread)
  refine ⟨⟨?_, ?_⟩, ?_, ?_, ?_⟩
  · rintro ⟨p, hp⟩
    rcases hsound with ⟨-, d, -, hd, -⟩ | ⟨ds, -, herror⟩
    · exact ⟨d, hd⟩
    · rw [hp] at herror
      cases herror
  · rintro ⟨d, rfl⟩
    obtain ⟨p, hp, -⟩ := ofTokens_complete file d hread
    exact ⟨p, hp⟩
  · intro d d' hd hd'
    exact Derivation.eq_of_tokens_eq (hd.trans hd'.symm)
  · intro p d hp hd
    rcases hsound with ⟨p', d', hp', hd', hlines, hfile⟩ | ⟨ds, -, herror⟩
    · cases hp.symm.trans hp'
      cases Derivation.eq_of_tokens_eq (hd.trans hd'.symm)
      exact ⟨hlines, hfile⟩
    · rw [hp] at herror
      cases herror
  · intro hnone
    rcases hsound with ⟨-, d, -, hd, -⟩ | hbatch
    · exact absurd ⟨d, hd⟩ hnone
    · exact hbatch

/-- The line `f -1 b = b ? (f 2) : true` and the end of the file. -/
def flip : Derivation :=
  let leaf (kind : Kind) (text : String) : Derivation.Leaf kind := ⟨⟨kind, text, .nowhere⟩, rfl⟩
  let minusOne : Derivation.LiteralLeaf :=
    ⟨⟨.integer, "-1", .nowhere⟩, .int (-1), .int rfl rfl (by decide) (by decide)⟩
  let two : Derivation.LiteralLeaf :=
    ⟨⟨.integer, "2", .nowhere⟩, .int 2, .int rfl rfl (by decide) (by decide)⟩
  let yes : Derivation.LiteralLeaf := ⟨⟨.boolean, "true", .nowhere⟩, .bool true, .bool rfl rfl⟩
  let call : Derivation.Expression := .operand (.call (leaf .identifier "f") [.literal two])
  let body : Derivation.Expression := .cond (.call (leaf .identifier "b") []) (leaf .question "?")
    (.paren (leaf .lparen "(") call (leaf .rparen ")")) (leaf .colon ":") (.literal yes)
  { items := [.line (.clause (leaf .identifier "f")
      [.literal minusOne, .name (leaf .identifier "b")] (leaf .assign "=") body)
      (leaf .newline "\n")]
    eof := leaf .eof "" }

/-- The tokens of the derivation are read as its lines. -/
theorem ofTokens_accepts_derivations_flip :
    EndInEof flip.tokens ∧ (∀ t ∈ flip.tokens, t.Regular) ∧ (∀ t ∈ flip.tokens, t.Short) ∧
      ∃ p, ofTokens "flip" flip.tokens = .ok p ∧ p.lines.map Line.bare = flip.lines := by
  have hend : EndInEof flip.tokens := ⟨_, _, rfl, rfl, by decide⟩
  have hregular : ∀ t ∈ flip.tokens, t.Regular := by decide
  have hshort : ∀ t ∈ flip.tokens, t.Short := by decide
  obtain ⟨haccepts, -, hlines, -⟩ :=
    ofTokens_accepts_derivations "flip" flip.tokens hend hregular hshort
  obtain ⟨p, hp⟩ := haccepts.2 ⟨flip, rfl⟩
  exact ⟨hend, hregular, hshort, p, hp, (hlines p flip hp rfl).1⟩

end Program

end Clausal
