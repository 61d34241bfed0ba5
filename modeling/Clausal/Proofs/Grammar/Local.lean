import Clausal.Proofs.Grammar.Sound

/-!
# Reading stays on its line

What a reader makes of a list of tokens depends on the tokens up to the end of the line, on their
kinds and texts, and on nothing else. `Parallel R tail tail' ts ts'` says that two lists of tokens
run in parallel up to the end of a line: token for token they are related by `R`, and after the
token that ends the line come `tail` and `tail'`, which need not have anything in common. `R` may
move the places of tokens (`Carries`).

`line_parallel`: the readers of a line return the same line from both lists, its places moved, and
go on with `tail` and `tail'`; or they stop at related tokens for the same reason.
-/

namespace Clausal

/-! ## Two outcomes -/

/-- Both readers return, with values in `Q`, or both stop, with reasons in `E`. -/
def GivesBoth {ε ε' α β : Type} (x : Except ε α) (y : Except ε' β) (Q : α → β → Prop)
    (E : ε → ε' → Prop) : Prop :=
  match x, y with
  | .ok a, .ok b => Q a b
  | .error e, .error e' => E e e'
  | _, _ => False

section GivesBoth

variable {ε ε' α β γ δ : Type} {x : Except ε α} {y : Except ε' β} {Q : α → β → Prop}
  {E : ε → ε' → Prop}

/-- Two readers that end alike, and two more after them. -/
theorem GivesBoth.bind {f : α → Except ε γ} {g : β → Except ε' δ} {Q' : γ → δ → Prop}
    (h : GivesBoth x y Q E) (hfg : ∀ a b, Q a b → GivesBoth (f a) (g b) Q' E) :
    GivesBoth (x >>= f) (y >>= g) Q' E := by
  cases x with
  | ok a =>
    cases y with
    | ok b => exact hfg a b h
    | error e' => exact h.elim
  | error e =>
    cases y with
    | ok b => exact h.elim
    | error e' => exact h

/-- If one reader returns, so does the other. -/
theorem GivesBoth.of_ok {a : α} (h : GivesBoth x y Q E) (hx : x = .ok a) :
    ∃ b, y = .ok b ∧ Q a b := by
  subst hx
  cases y with
  | ok b => exact ⟨b, rfl, h⟩
  | error e' => exact h.elim

/-- If one reader stops, so does the other. -/
theorem GivesBoth.of_error {e : ε} (h : GivesBoth x y Q E) (hx : x = .error e) :
    ∃ e', y = .error e' ∧ E e e' := by
  subst hx
  cases y with
  | ok b => exact h.elim
  | error e' => exact ⟨e', rfl, h⟩

end GivesBoth

/-! ## Moved places -/

mutual

/-- An expression with all its places moved. -/
def Expr.moved (move : Span → Span) : Expr → Expr
  | .lit v s => .lit v (move s)
  | .call f args s => .call f (movedAll move args) (move s)
  | .binary l op r s => .binary (l.moved move) op (r.moved move) (move s)
  | .cond t y n s => .cond (t.moved move) (y.moved move) (n.moved move) (move s)

/-- Expressions with all their places moved. -/
def Expr.movedAll (move : Span → Span) : List Expr → List Expr
  | [] => []
  | e :: es => e.moved move :: movedAll move es

end

/-- A parameter with its place moved. -/
def Pattern.moved (move : Span → Span) : Pattern → Pattern
  | .name x s => .name x (move s)
  | .lit v s => .lit v (move s)

/-- A line with all its places moved. -/
def Line.moved (move : Span → Span) : Line → Line
  | .decl d => .decl { d with span := move d.span }
  | .clause c => .clause ⟨c.name, c.params.map (Pattern.moved move), c.body.moved move, move c.span⟩

/-- A moved expression stands at the moved place. -/
theorem Expr.span_moved (move : Span → Span) (e : Expr) : (e.moved move).span = move e.span := by
  cases e <;> rfl

namespace Grammar

open Token

/-! ## Parallel lists -/

/-- Whether a token of this kind ends a line. -/
def endsLine (k : Kind) : Bool :=
  k = .newline || k = .eof

/-- Related tokens have one kind; within a line they have one text, and the place of the second is
the place of the first, moved. -/
structure Carries (move : Span → Span) (R : Token → Token → Prop) : Prop where
  upTo : ∀ a b, move (a.upTo b) = (move a).upTo (move b)
  kind : ∀ {t t'}, R t t' → t'.kind = t.kind
  text : ∀ {t t'}, R t t' → endsLine t.kind = false → t'.text = t.text
  span : ∀ {t t'}, R t t' → endsLine t.kind = false → t'.span = move t.span

/-- Two lists of tokens that are related up to the end of a line. -/
inductive Parallel (R : Token → Token → Prop) (tail tail' : List Token) :
    List Token → List Token → Prop
  | stop {t t' : Token} : endsLine t.kind = true → R t t' →
      Parallel R tail tail' (t :: tail) (t' :: tail')
  | token {t t' : Token} {ts ts' : List Token} : endsLine t.kind = false → R t t' →
      Parallel R tail tail' ts ts' → Parallel R tail tail' (t :: ts) (t' :: ts')

/-- Two readers stop for the same reason. -/
inductive SameHalt (move : Span → Span) (R : Token → Token → Prop) : Halt → Halt → Prop
  | unexpected (what : Wanted) {t t' : Token} : R t t' →
      SameHalt move R (unexpected what t) (unexpected what t')
  | outOfRange (text : String) (s : Span) :
      SameHalt move R (.fault ⟨.outOfRange text, s⟩) (.fault ⟨.outOfRange text, move s⟩)
  | abort (a : Abort) : SameHalt move R (.abort a) (.abort a)

section Readers

variable {move : Span → Span} {R : Token → Token → Prop} {tail tail' ts ts' : List Token}
  {t t' : Token}

/-- The first tokens are related. -/
theorem Parallel.head (h : Parallel R tail tail' (t :: ts) (t' :: ts')) : R t t' := by
  cases h with
  | stop _ hR => exact hR
  | token _ hR _ => exact hR

/-- After a token within a line, the lists are still parallel. -/
theorem Parallel.next (h : Parallel R tail tail' (t :: ts) (t' :: ts'))
    (ht : endsLine t.kind = false) : Parallel R tail tail' ts ts' := by
  cases h with
  | stop hstop _ => cases ht.symm.trans hstop
  | token _ _ hts => exact hts

/-- After the end of a line, the lists are what was behind it. -/
theorem Parallel.tails (h : Parallel R tail tail' (t :: ts) (t' :: ts'))
    (ht : endsLine t.kind = true) : ts = tail ∧ ts' = tail' := by
  cases h with
  | stop _ _ => exact ⟨rfl, rfl⟩
  | token hstop _ _ => cases ht.symm.trans hstop

/-- Parallel lists are not empty. -/
theorem Parallel.exists_cons (h : Parallel R tail tail' ts ts') :
    ∃ t rest t' rest', ts = t :: rest ∧ ts' = t' :: rest' := by
  cases h with
  | stop _ _ => exact ⟨_, _, _, _, rfl, rfl⟩
  | token _ _ _ => exact ⟨_, _, _, _, rfl, rfl⟩

/-- A reader of one token within a line. -/
theorem expect_parallel (hR : Carries move R) {kind : Kind} (hkind : endsLine kind = false)
    (what : Wanted) (h : Parallel R tail tail' ts ts') :
    GivesBoth (expect kind what ts) (expect kind what ts')
      (fun r r' => R r.value r'.value ∧ r.value.kind = kind ∧
        Parallel R tail tail' r.rest r'.rest) (SameHalt move R) := by
  obtain ⟨t, rest, t', rest', rfl, rfl⟩ := h.exists_cons
  rw [expect, expect, hR.kind h.head]
  split
  · next ht => exact ⟨h.head, ht, h.next (ht ▸ hkind)⟩
  · exact .unexpected what h.head

/-- The reader of the end of a line. -/
theorem expect_newline_parallel (hR : Carries move R) (h : Parallel R tail tail' ts ts') :
    GivesBoth (expect .newline .endOfLine ts) (expect .newline .endOfLine ts')
      (fun r r' => r.rest = tail ∧ r'.rest = tail') (SameHalt move R) := by
  obtain ⟨t, rest, t', rest', rfl, rfl⟩ := h.exists_cons
  rw [expect, expect, hR.kind h.head]
  split
  · next ht => exact h.tails (by rw [ht]; rfl)
  · exact .unexpected .endOfLine h.head

/-- Related tokens are the same literal. -/
theorem literal_parallel (hR : Carries move R) (h : R t t') (ht : endsLine t.kind = false) :
    GivesBoth (literal t) (literal t') (fun v v' => v' = v) (SameHalt move R) := by
  unfold literal
  rw [hR.kind h, hR.text h ht, hR.span h ht]
  split
  · split
    · split
      · rfl
      · exact .outOfRange _ _
    · exact .abort _
    · exact .abort _
  · rfl
  · rfl

/-- A literal does not end a line. -/
theorem endsLine_of_isLiteral {k : Kind} (h : k.isLiteral = true) : endsLine k = false := by
  cases k <;> first | rfl | cases h

/-- An operator does not end a line. -/
theorem endsLine_op (op : Op) : endsLine op.kind = false := by
  cases op <;> rfl

/-- An expression whose first operand is read goes on as the next token says. -/
theorem expression_cons {ts after : List Token} {t : Token} {left : Parsed Expr ts}
    (hleft : operand ts = .ok left) (hrest : left.rest = t :: after) :
    have hlt : after.length + 1 < ts.length := Parsed.after_shorter hrest
    expression ts = (operator? t.kind).elim
      (if t.kind = .question then do
        let yes ← operand after
        let colon ← expect .colon .colon yes.rest
        let no ← operand colon.rest
        return ⟨.cond left.value yes.value no.value (left.value.span.upTo no.value.span), no.rest,
          Parsed.shorter_of_branches hlt no⟩
      else return ⟨left.value, t :: after, hlt⟩)
      fun op => do
        let right ← operand after
        return ⟨.binary left.value op right.value (left.value.span.upTo right.value.span),
          right.rest, Parsed.shorter_of_after hlt right⟩ := by
  intro hlt
  rw [expression, hleft]
  dsimp only [bind, Except.bind]
  split
  · next hnil =>
    rw [hrest] at hnil
    cases hnil
  · next t' after' hcons =>
    rw [hrest] at hcons
    cases hcons
    cases operator? t.kind <;> rfl

-- The recursion is that of the readers: it goes down in the tokens that are left.
mutual

/-- From parallel tokens the same expression is read, moved, and the rest is parallel again. -/
theorem expression_parallel (hR : Carries move R) (ts : List Token) {ts' : List Token}
    (h : Parallel R tail tail' ts ts') :
    GivesBoth (expression ts) (expression ts')
      (fun r r' => r'.value = r.value.moved move ∧ Parallel R tail tail' r.rest r'.rest)
      (SameHalt move R) := by
  have hoperand := operand_parallel hR ts h
  cases hleft : operand ts with
  | error e =>
    obtain ⟨e', hleft', hsame⟩ := hoperand.of_error hleft
    rw [expression, expression, hleft, hleft']
    exact hsame
  | ok left =>
    obtain ⟨left', hleft', hvalue, hrest⟩ := hoperand.of_ok hleft
    obtain ⟨t, after, t', after', hcons, hcons'⟩ := hrest.exists_cons
    have hshorter := Parsed.after_shorter hcons
    rw [hcons, hcons'] at hrest
    rw [expression_cons hleft hcons, expression_cons hleft' hcons', hR.kind hrest.head, hvalue]
    cases hop : operator? t.kind with
    | some op =>
      have hafter := hrest.next (by rw [operator?_eq_some_iff.1 hop, endsLine_op])
      refine (operand_parallel hR after hafter).bind fun right right' hright => ?_
      refine ⟨?_, hright.2⟩
      simp only [hright.1, Expr.span_moved, Expr.moved, hR.upTo]
    | none =>
      rw [Option.elim_none, Option.elim_none]
      split
      · next hquestion =>
        have hafter := hrest.next (by rw [hquestion]; rfl)
        refine (operand_parallel hR after hafter).bind fun yes yes' hyes => ?_
        have := yes.shorter
        refine (expect_parallel hR rfl .colon hyes.2).bind fun colon colon' hcolon => ?_
        have := colon.shorter
        refine (operand_parallel hR colon.rest hcolon.2.2).bind fun no no' hno => ?_
        refine ⟨?_, hno.2⟩
        simp only [hyes.1, hno.1, Expr.span_moved, Expr.moved, hR.upTo]
      · exact ⟨rfl, hrest⟩
termination_by 2 * ts.length + 1

/-- The same of an operand. -/
theorem operand_parallel (hR : Carries move R) : ∀ (ts : List Token) {ts' : List Token},
    Parallel R tail tail' ts ts' →
    GivesBoth (operand ts) (operand ts')
      (fun r r' => r'.value = r.value.moved move ∧ Parallel R tail tail' r.rest r'.rest)
      (SameHalt move R)
  | [], _, h => by cases h
  | t :: ts, [], h => by cases h
  | t :: ts, t' :: ts', h => by
    rw [operand, operand, hR.kind h.head]
    split
    · next hopen =>
      have hts := h.next (by rw [hopen]; rfl)
      refine (expression_parallel hR ts hts).bind fun inner inner' hinner => ?_
      refine (expect_parallel hR rfl .closing hinner.2).bind fun close close' hclose => ?_
      exact ⟨hinner.1, hclose.2.2⟩
    · split
      · next hliteral =>
        have hline := endsLine_of_isLiteral hliteral
        refine (literal_parallel hR h.head hline).bind fun v v' hv => ?_
        refine ⟨?_, h.next hline⟩
        simp only [hv, hR.span h.head hline, Expr.moved]
      · split
        · next hname =>
          have hline : endsLine t.kind = false := by rw [hname]; rfl
          rw [hR.span h.head hline, hR.text h.head hline]
          refine (arguments_parallel hR t.span ts (h.next hline)).bind fun args args' hargs => ?_
          refine ⟨?_, hargs.2.2⟩
          simp only [hargs.1, hargs.2.1, Expr.moved, hR.upTo]
        · exact .unexpected _ h.head
termination_by ts => 2 * ts.length

/-- The same of the arguments of a call. -/
theorem arguments_parallel (hR : Carries move R) (last : Span) :
    ∀ (ts : List Token) {ts' : List Token}, Parallel R tail tail' ts ts' →
    GivesBoth (arguments last ts) (arguments (move last) ts')
      (fun r r' => r'.values = Expr.movedAll move r.values ∧ r'.last = move r.last ∧
        Parallel R tail tail' r.rest r'.rest)
      (SameHalt move R)
  | [], _, h => by cases h
  | t :: ts, [], h => by cases h
  | t :: ts, t' :: ts', h => by
    rw [arguments, arguments, hR.kind h.head]
    split
    · next hopen =>
      have hts := h.next (by rw [hopen]; rfl)
      refine (expression_parallel hR ts hts).bind fun inner inner' hinner => ?_
      have := inner.shorter
      refine (expect_parallel hR rfl .closing hinner.2).bind fun close close' hclose => ?_
      have := close.shorter
      obtain ⟨hvalue, hkind, hrest⟩ := hclose
      rw [hR.span hvalue (by rw [hkind]; rfl)]
      refine (arguments_parallel hR _ close.rest hrest).bind fun more more' hmore => ?_
      refine ⟨?_, hmore.2⟩
      simp only [hinner.1, hmore.1, Expr.movedAll]
    · split
      · next hliteral =>
        have hline := endsLine_of_isLiteral hliteral
        rw [hR.span h.head hline]
        refine (literal_parallel hR h.head hline).bind fun v v' hv => ?_
        refine (arguments_parallel hR _ ts (h.next hline)).bind fun more more' hmore => ?_
        refine ⟨?_, hmore.2⟩
        simp only [hv, hmore.1, Expr.movedAll, Expr.moved]
      · split
        · next hname =>
          have hline : endsLine t.kind = false := by rw [hname]; rfl
          rw [hR.span h.head hline, hR.text h.head hline]
          refine (arguments_parallel hR _ ts (h.next hline)).bind fun more more' hmore => ?_
          refine ⟨?_, hmore.2⟩
          simp only [hmore.1, Expr.movedAll, Expr.moved]
        · exact ⟨rfl, rfl, h⟩
termination_by ts => 2 * ts.length

end

/-! ## Lines -/

/-- Related tokens name the same type. -/
theorem typeNamed_parallel (hR : Carries move R) (h : R t t') :
    GivesBoth (typeNamed t) (typeNamed t') (fun ty ty' => ty' = ty) (SameHalt move R) := by
  unfold typeNamed
  rw [hR.kind h]
  split
  · next hkind =>
    rw [hR.text h (by rw [hkind]; rfl)]
    split
    · rfl
    · exact .abort _
  · exact .unexpected _ h

/-- A type is read from the name of a type only. -/
theorem typeNamed_kind {ty : Ty} (h : typeNamed t = .ok ty) : t.kind = .typeName := by
  unfold typeNamed at h
  split at h
  · next hkind => exact hkind
  · cases h

/-- From parallel tokens the same types are read. -/
theorem types_parallel (hR : Carries move R) : ∀ (ts : List Token) {ts' : List Token},
    Parallel R tail tail' ts ts' →
    GivesBoth (types ts) (types ts')
      (fun r r' => r'.value = (r.value.1, move r.value.2) ∧ Parallel R tail tail' r.rest r'.rest)
      (SameHalt move R)
  | [], _, h => by cases h
  | t :: ts, [], h => by cases h
  | t :: ts, t' :: ts', h => by
    have hnamed := typeNamed_parallel hR h.head
    cases hty : typeNamed t with
    | error e =>
      obtain ⟨e', hty', hsame⟩ := hnamed.of_error hty
      rw [types, types, hty, hty']
      exact hsame
    | ok ty =>
      obtain ⟨ty', hty', rfl⟩ := hnamed.of_ok hty
      have hline : endsLine t.kind = false := by rw [typeNamed_kind hty]; rfl
      have hts := h.next hline
      obtain ⟨a, more, a', more', rfl, rfl⟩ := hts.exists_cons
      rw [types, types, hty, hty']
      dsimp only
      rw [hR.kind hts.head, hR.span h.head hline]
      split
      · next harrow =>
        have hmore := hts.next (by rw [harrow]; rfl)
        refine (types_parallel hR more hmore).bind fun rest rest' hrest => ?_
        refine ⟨?_, hrest.2⟩
        simp only [hrest.1]
      · exact ⟨rfl, hts⟩
termination_by ts => ts.length

/-- From parallel tokens the same parameters are read, moved. -/
theorem parameters_parallel (hR : Carries move R) : ∀ (ts : List Token) {ts' : List Token},
    Parallel R tail tail' ts ts' →
    GivesBoth (parameters ts) (parameters ts')
      (fun r r' => r'.value = r.value.map (Pattern.moved move) ∧
        Parallel R tail tail' r.rest r'.rest)
      (SameHalt move R)
  | [], _, h => by cases h
  | t :: ts, [], h => by cases h
  | t :: ts, t' :: ts', h => by
    rw [parameters, parameters, hR.kind h.head]
    split
    · next hassign => exact ⟨rfl, h.next (by rw [hassign]; rfl)⟩
    · split
      · next hname =>
        have hline : endsLine t.kind = false := by rw [hname]; rfl
        rw [hR.span h.head hline, hR.text h.head hline]
        refine (parameters_parallel hR ts (h.next hline)).bind fun more more' hmore => ?_
        refine ⟨?_, hmore.2⟩
        simp only [hmore.1, List.map_cons, Pattern.moved]
      · split
        · next hliteral =>
          have hline := endsLine_of_isLiteral hliteral
          rw [hR.span h.head hline]
          refine (literal_parallel hR h.head hline).bind fun v v' hv => ?_
          refine (parameters_parallel hR ts (h.next hline)).bind fun more more' hmore => ?_
          refine ⟨?_, hmore.2⟩
          simp only [hv, hmore.1, List.map_cons, Pattern.moved]
        · exact .unexpected _ h.head

/-- From parallel tokens, after related names, the same line is read, moved. -/
theorem lineBody_parallel (hR : Carries move R) {name name' : Token} (hname : R name name')
    (hkind : name.kind = .identifier) : ∀ (ts : List Token) {ts' : List Token},
    Parallel R tail tail' ts ts' →
    GivesBoth (lineBody name ts) (lineBody name' ts')
      (fun r r' => r'.value = r.value.moved move ∧ Parallel R tail tail' r.rest r'.rest)
      (SameHalt move R)
  | [], _, h => by cases h
  | t :: ts, [], h => by cases h
  | t :: ts, t' :: ts', h => by
    have hline : endsLine name.kind = false := by rw [hkind]; rfl
    rw [lineBody, lineBody, hR.kind h.head, hR.span hname hline, hR.text hname hline]
    split
    · next hcolons =>
      have hts := h.next (by rw [hcolons]; rfl)
      refine (types_parallel hR ts hts).bind fun sig sig' hsig => ?_
      refine ⟨?_, hsig.2⟩
      simp only [hsig.1, Line.moved, hR.upTo]
    · refine (parameters_parallel hR (t :: ts) h).bind fun params params' hparams => ?_
      refine (expression_parallel hR params.rest hparams.2).bind fun body body' hbody => ?_
      refine ⟨?_, hbody.2⟩
      simp only [hparams.1, hbody.1, Line.moved, hR.upTo, Expr.span_moved]

/-- **A line is read from its own tokens.** Lists that run in parallel give the same line, its
places moved, and reading goes on after the end of the line. -/
theorem line_parallel (hR : Carries move R) (h : Parallel R tail tail' ts ts') :
    GivesBoth (line ts) (line ts')
      (fun r r' => r'.value = r.value.moved move ∧ r.rest = tail ∧ r'.rest = tail')
      (SameHalt move R) := by
  rw [line, line]
  refine (expect_parallel hR rfl .functionName h).bind fun name name' hname => ?_
  obtain ⟨hvalue, hkind, hrest⟩ := hname
  refine (lineBody_parallel hR hvalue hkind name.rest hrest).bind fun body body' hbody => ?_
  refine (expect_newline_parallel hR hbody.2).bind fun stop stop' hstop => ?_
  exact ⟨hbody.1, hstop⟩

end Readers

end Grammar

end Clausal
