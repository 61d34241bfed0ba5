import Clausal.Proofs.Grammar.Segments
import Clausal.Proofs.Token.Sequence

/-!
# Spans nest

Every part of a program that is read from a text has a span. Spans are put together from those of
tokens in three ways: an operator and a condition reach from their first operand to their last one,
a call and a declaration from their name to the last token that was read, and a clause from its name
to its body. Parentheses are inside the span of a call that they end, and outside the span of what
they enclose.

`Surrounds` says that one span is laid around others: they are inside it, one after the other. Each
reader is followed once, to see that the tokens it has read, if they are in order, bound the span of
what it returns, and that the spans in it nest (`Draws`, `DrawsAll`, `DrawnFrom`).
-/

namespace Clausal

/-! ## Spans around spans -/

namespace Span

/-- The line and the column are in the span. -/
def Holds (s : Span) (row col : Int) : Prop :=
  (s.startLine < row ∨ s.startLine = row ∧ s.startCol ≤ col) ∧
    (row < s.endLine ∨ row = s.endLine ∧ col ≤ s.endCol)

/-- Both ends of a span are in the other one. -/
def Inside (s t : Span) : Prop :=
  t.Holds s.startLine s.startCol ∧ t.Holds s.endLine s.endCol

/-- A span around others: it does not start after its end, they are inside it, and each of them ends
before the next one starts. -/
structure Surrounds (s : Span) (parts : List Span) : Prop where
  forward : s.Forward
  inside : ∀ p ∈ parts, p.Inside s
  ordered : parts.Pairwise Before

/-- Two spans start at the same place. -/
def SameStart (s t : Span) : Prop :=
  s.startLine = t.startLine ∧ s.startCol = t.startCol

/-- Two spans end at the same place. -/
def SameEnd (s t : Span) : Prop :=
  s.endLine = t.endLine ∧ s.endCol = t.endCol

/-- A span is the other one, or ends before it starts. -/
def IsOrBefore (s t : Span) : Prop :=
  s = t ∨ s.Before t

/-- A span that goes forward surrounds nothing. -/
theorem surrounds_nil {s : Span} (h : s.Forward) : s.Surrounds [] :=
  ⟨h, List.forall_mem_nil _, .nil⟩

/-- What is no later starts no later. -/
theorem IsOrBefore.start_le {s t : Span} (h : s.IsOrBefore t) (hs : s.Forward) :
    s.startLine < t.startLine ∨ s.startLine = t.startLine ∧ s.startCol ≤ t.startCol := by
  rcases h with rfl | h
  · exact .inr ⟨rfl, Int.le_refl _⟩
  · unfold Before at h
    unfold Forward at hs
    omega

/-- What is no later ends no later. -/
theorem IsOrBefore.end_le {s t : Span} (h : s.IsOrBefore t) (ht : t.Forward) :
    s.endLine < t.endLine ∨ s.endLine = t.endLine ∧ s.endCol ≤ t.endCol := by
  rcases h with rfl | h
  · exact .inr ⟨rfl, Int.le_refl _⟩
  · unfold Before at h
    unfold Forward at ht
    omega

/-- A span that is drawn from one place to another is around what lies between them. -/
theorem surrounds_upTo {a b : Span} {parts : List Span} (ha : a.Forward) (hb : b.Forward)
    (hab : a.IsOrBefore b)
    (hparts : ∀ p ∈ parts, p.Forward ∧ a.IsOrBefore p ∧ p.IsOrBefore b)
    (hordered : parts.Pairwise Before) : (a.upTo b).Surrounds parts where
  forward := by
    have hstart := hab.start_le ha
    unfold Forward at hb ⊢
    dsimp only [upTo]
    omega
  inside := fun p hp => by
    obtain ⟨hforward, hap, hpb⟩ := hparts p hp
    have hstart := hap.start_le ha
    have hend := hpb.end_le hb
    unfold Forward at hforward
    unfold Inside Holds
    dsimp only [upTo]
    omega
  ordered := hordered

end Span

/-! ## Parts of a program -/

/-- The expressions that an expression is made of. -/
def Expr.children : Expr → List Expr
  | .lit _ _ => []
  | .call _ args _ => args
  | .binary l _ r _ => [l, r]
  | .cond t y n _ => [t, y, n]

/-- The spans in an expression nest: at every depth, a span is around those of its children. -/
inductive Expr.Nested : Expr → Prop
  | intro {e : Expr} : e.span.Surrounds (e.children.map Expr.span) →
      (∀ c ∈ e.children, c.Nested) → e.Nested

/-- The spans in a line nest. The parts of a clause are its parameters and then its body. -/
def Line.Nested : Line → Prop
  | .decl d => d.span.Surrounds []
  | .clause c => c.span.Surrounds (c.params.map Pattern.span ++ [c.body.span]) ∧
      (∀ q ∈ c.params, q.span.Surrounds []) ∧ c.body.Nested

/-- The span of a nested expression goes forward. -/
theorem Expr.Nested.forward {e : Expr} (h : e.Nested) : e.span.Forward := by
  cases h with
  | intro hspan _ => exact hspan.forward

/-! ## Tokens in order -/

namespace Token

/-- Tokens that each end before the next one starts. -/
structure InOrder (ts : List Token) : Prop where
  forward : ∀ t ∈ ts, t.span.Forward
  before : ts.Pairwise fun t u => t.span.Before u.span

section InOrder

variable {ts us : List Token}

/-- Solid tokens of a sequence are in order. -/
theorem Sequence.inOrder (h : Sequence ts) (hsolid : ∀ t ∈ ts, isSolid t = true) : InOrder ts where
  forward := fun t ht => h.forward t ht (hsolid t ht)
  before := h.precedes.imp_of_mem fun ht _ hprecedes => hprecedes.solid (hsolid _ ht)

/-- Some of the tokens of a sequence are a sequence. -/
theorem Sequence.sublist (h : Sequence ts) (hsub : us.Sublist ts) : Sequence us where
  forward := fun t ht => h.forward t (hsub.subset ht)
  precedes := h.precedes.sublist hsub

/-- Tokens at the front of those in order are in order. -/
theorem InOrder.left (h : InOrder (ts ++ us)) : InOrder ts where
  forward := fun t ht => h.forward t (List.mem_append_left us ht)
  before := (List.pairwise_append.1 h.before).1

/-- Tokens at the end of those in order are in order. -/
theorem InOrder.right (h : InOrder (ts ++ us)) : InOrder us where
  forward := fun t ht => h.forward t (List.mem_append_right ts ht)
  before := (List.pairwise_append.1 h.before).2.1

theorem InOrder.tail {t : Token} (h : InOrder (t :: ts)) : InOrder ts where
  forward := fun u hu => h.forward u (List.mem_cons_of_mem t hu)
  before := (List.pairwise_cons.1 h.before).2

/-- The first token is no later than any of them. -/
theorem InOrder.isOrBefore {t u : Token} (h : InOrder (t :: ts)) (hu : u ∈ t :: ts) :
    t.span.IsOrBefore u.span := by
  rcases List.mem_cons.1 hu with rfl | hu
  · exact .inl rfl
  · exact .inr ((List.pairwise_cons.1 h.before).1 u hu)

end InOrder

end Token

open Token

/-- The span starts where one of the tokens starts, and ends where one of them ends. -/
structure Span.BoundedBy (ts : List Token) (s : Span) : Prop where
  start : ∃ t ∈ ts, s.SameStart t.span
  stop : ∃ t ∈ ts, s.SameEnd t.span

namespace Span.BoundedBy

variable {ts us : List Token} {s s' : Span}

/-- A token bounds itself. -/
theorem single (t : Token) : t.span.BoundedBy [t] where
  start := ⟨t, List.mem_cons_self, rfl, rfl⟩
  stop := ⟨t, List.mem_cons_self, rfl, rfl⟩

/-- The span of a token is bounded by tokens among which it is. -/
theorem of_mem {t : Token} (h : t ∈ ts) : t.span.BoundedBy ts where
  start := ⟨t, h, rfl, rfl⟩
  stop := ⟨t, h, rfl, rfl⟩

/-- Bounds stay bounds with more tokens behind them. -/
theorem left (h : s.BoundedBy ts) (us : List Token) : s.BoundedBy (ts ++ us) where
  start := by
    obtain ⟨t, ht, hstart⟩ := h.start
    exact ⟨t, List.mem_append_left us ht, hstart⟩
  stop := by
    obtain ⟨t, ht, hstop⟩ := h.stop
    exact ⟨t, List.mem_append_left us ht, hstop⟩

/-- Bounds stay bounds with more tokens before them. -/
theorem right (us : List Token) (h : s.BoundedBy ts) : s.BoundedBy (us ++ ts) where
  start := by
    obtain ⟨t, ht, hstart⟩ := h.start
    exact ⟨t, List.mem_append_right us ht, hstart⟩
  stop := by
    obtain ⟨t, ht, hstop⟩ := h.stop
    exact ⟨t, List.mem_append_right us ht, hstop⟩

/-- A span from one bounded span up to another is bounded. -/
theorem upTo (h : s.BoundedBy ts) (h' : s'.BoundedBy ts) : (s.upTo s').BoundedBy ts where
  start := h.start
  stop := h'.stop

/-- What is bounded by earlier tokens ends before what is bounded by later ones starts. -/
theorem before (horder : InOrder (ts ++ us)) (h : s.BoundedBy ts) (h' : s'.BoundedBy us) :
    s.Before s' := by
  obtain ⟨t, ht, hline, hcol⟩ := h.stop
  obtain ⟨u, hu, hline', hcol'⟩ := h'.start
  have hbefore := (List.pairwise_append.1 horder.before).2.2 t ht u hu
  unfold Span.Before at hbefore ⊢
  rwa [hline, hcol, hline', hcol']

/-- What is bounded by tokens comes after the token before them. -/
theorem after_token {t : Token} (h : s.BoundedBy us) (horder : InOrder (t :: us)) :
    t.span.Before s :=
  have horder' : InOrder ([t] ++ us) := horder
  (single t).before horder' h

end Span.BoundedBy

namespace Grammar

/-! ## Reading expressions -/

/-- The tokens from `ts` up to `rest`, if they are in order, bound the span of the expression, and
the spans in it nest. -/
def Draws (ts : List Token) (e : Expr) (rest : List Token) : Prop :=
  ∃ used, ts = used ++ rest ∧ (InOrder used → e.Nested ∧ e.span.BoundedBy used)

/-- Arguments that are bounded by tokens, one after the other, up to the token at `last`. -/
structure Arranged (used : List Token) (values : List Expr) (last : Span) : Prop where
  nested : ∀ e ∈ values, e.Nested
  bounded : ∀ e ∈ values, e.span.BoundedBy used
  reached : ∀ e ∈ values, e.span.IsOrBefore last
  ordered : (values.map Expr.span).Pairwise Span.Before

/-- The tokens from `ts` up to `rest`, if they are in order after the token `t`, are those of the
arguments, and `last` is the span of the last of them, or of `t` if there are none. -/
def DrawsAll (t : Token) (ts : List Token) (values : List Expr) (last : Span) (rest : List Token) :
    Prop :=
  ∃ used, ts = used ++ rest ∧ (InOrder (t :: used) →
    Arranged used values last ∧ ∃ z ∈ t :: used, last = z.span)

section Rules

variable {ts after after' rest : List Token} {t c : Token} {x y z : Expr} {xs : List Expr}
  {last : Span}

/-- An expression of one token is nested. -/
theorem nested_of_token (hspan : x.span = t.span) (hchildren : x.children = [])
    (h : t.span.Forward) : x.Nested := by
  refine .intro ?_ ?_
  · rw [hchildren, hspan]
    exact Span.surrounds_nil h
  · rw [hchildren]
    exact List.forall_mem_nil _

/-- An expression of one token is drawn from it. -/
theorem draws_token (hspan : x.span = t.span) (hchildren : x.children = []) :
    Draws (t :: ts) x ts := by
  refine ⟨[t], rfl, fun horder => ⟨?_, ?_⟩⟩
  · exact nested_of_token hspan hchildren (horder.forward t List.mem_cons_self)
  · rw [hspan]
    exact .single t

/-- Parentheses around an expression are outside its span, and change nothing in it. -/
theorem Draws.paren (h : Draws ts x (c :: rest)) : Draws (t :: ts) x rest := by
  obtain ⟨used, rfl, hused⟩ := h
  refine ⟨[t] ++ (used ++ [c]), by simp, fun horder => ?_⟩
  obtain ⟨hnested, hbounded⟩ := hused horder.right.left
  exact ⟨hnested, .right [t] (hbounded.left [c])⟩

/-- Two operands and the operator between them make a binary expression. -/
theorem Draws.binary (hx : Draws ts x (t :: after)) (op : Op) (hy : Draws after y rest) :
    Draws ts (.binary x op y (x.span.upTo y.span)) rest := by
  obtain ⟨used, rfl, hused⟩ := hx
  obtain ⟨used', rfl, hused'⟩ := hy
  refine ⟨used ++ ([t] ++ used'), by simp, fun horder => ?_⟩
  obtain ⟨hnested, hbounded⟩ := hused horder.left
  obtain ⟨hnested', hbounded'⟩ := hused' horder.right.right
  have hbefore := hbounded.before horder (.right [t] hbounded')
  refine ⟨.intro (Span.surrounds_upTo hnested.forward hnested'.forward (.inr hbefore) ?_ ?_) ?_,
    (hbounded.left _).upTo (.right _ (.right _ hbounded'))⟩
  · refine List.forall_mem_cons.2 ⟨⟨hnested.forward, .inl rfl, .inr hbefore⟩, ?_⟩
    exact List.forall_mem_singleton.2 ⟨hnested'.forward, .inr hbefore, .inl rfl⟩
  · exact List.pairwise_pair.2 hbefore
  · exact List.forall_mem_cons.2 ⟨hnested, List.forall_mem_singleton.2 hnested'⟩

/-- Three operands with a question mark and a colon make a conditional expression. -/
theorem Draws.cond (hx : Draws ts x (t :: after)) (hy : Draws after y (c :: after'))
    (hz : Draws after' z rest) : Draws ts (.cond x y z (x.span.upTo z.span)) rest := by
  obtain ⟨used, rfl, hused⟩ := hx
  obtain ⟨used', rfl, hused'⟩ := hy
  obtain ⟨used'', rfl, hused''⟩ := hz
  refine ⟨used ++ ([t] ++ (used' ++ ([c] ++ used''))), by simp, fun horder => ?_⟩
  obtain ⟨hnested, hbounded⟩ := hused horder.left
  obtain ⟨hnested', hbounded'⟩ := hused' horder.right.right.left
  obtain ⟨hnested'', hbounded''⟩ := hused'' horder.right.right.right.right
  have hxy := hbounded.before horder (.right [t] (hbounded'.left _))
  have hyz := hbounded'.before horder.right.right (.right [c] hbounded'')
  have hxz := hxy.trans hnested'.forward hyz
  refine ⟨.intro (Span.surrounds_upTo hnested.forward hnested''.forward (.inr hxz) ?_ ?_) ?_,
    (hbounded.left _).upTo (.right _ (.right _ (.right _ (.right _ hbounded''))))⟩
  · refine List.forall_mem_cons.2 ⟨⟨hnested.forward, .inl rfl, .inr hxz⟩, ?_⟩
    refine List.forall_mem_cons.2 ⟨⟨hnested'.forward, .inr hxy, .inr hyz⟩, ?_⟩
    exact List.forall_mem_singleton.2 ⟨hnested''.forward, .inr hxz, .inl rfl⟩
  · refine List.pairwise_cons.2 ⟨?_, List.pairwise_pair.2 hyz⟩
    exact List.forall_mem_cons.2 ⟨hxy, List.forall_mem_singleton.2 hxz⟩
  · exact List.forall_mem_cons.2
      ⟨hnested, List.forall_mem_cons.2 ⟨hnested', List.forall_mem_singleton.2 hnested''⟩⟩

/-- A name and its arguments make a call. -/
theorem DrawsAll.call (name : String) (h : DrawsAll t ts xs last rest) :
    Draws (t :: ts) (.call name xs (t.span.upTo last)) rest := by
  obtain ⟨used, rfl, hused⟩ := h
  refine ⟨t :: used, rfl, fun horder => ?_⟩
  obtain ⟨hargs, z, hz, rfl⟩ := hused horder
  refine ⟨.intro (Span.surrounds_upTo (horder.forward t List.mem_cons_self) (horder.forward z hz)
    (horder.isOrBefore hz) ?_ hargs.ordered) hargs.nested,
    (Span.BoundedBy.of_mem List.mem_cons_self).upTo (.of_mem hz)⟩
  intro p hp
  obtain ⟨e, he, rfl⟩ := List.mem_map.1 hp
  exact ⟨(hargs.nested e he).forward, .inr ((hargs.bounded e he).after_token horder),
    hargs.reached e he⟩

/-- No arguments are drawn from no tokens. -/
theorem drawsAll_nil : DrawsAll t ts [] t.span ts :=
  ⟨[], rfl, fun _ => ⟨⟨List.forall_mem_nil _, List.forall_mem_nil _, List.forall_mem_nil _, .nil⟩,
    t, List.mem_cons_self, rfl⟩⟩

/-- One more argument in front. -/
theorem Arranged.cons {used used' : List Token} (horder : InOrder (used ++ used'))
    (hnested : x.Nested) (hbounded : x.span.BoundedBy used) (hreached : x.span.IsOrBefore last)
    (h : Arranged used' xs last) : Arranged (used ++ used') (x :: xs) last where
  nested := List.forall_mem_cons.2 ⟨hnested, h.nested⟩
  bounded := List.forall_mem_cons.2 ⟨hbounded.left used', fun e he => .right used (h.bounded e he)⟩
  reached := List.forall_mem_cons.2 ⟨hreached, h.reached⟩
  ordered := by
    refine List.pairwise_cons.2 ⟨fun s hs => ?_, h.ordered⟩
    obtain ⟨e, he, rfl⟩ := List.mem_map.1 hs
    exact hbounded.before horder (h.bounded e he)

/-- An argument of one token in front of others. -/
theorem DrawsAll.token {t' : Token} (hspan : x.span = t.span) (hchildren : x.children = [])
    (h : DrawsAll t ts xs last rest) : DrawsAll t' (t :: ts) (x :: xs) last rest := by
  obtain ⟨used, rfl, hused⟩ := h
  refine ⟨[t] ++ used, rfl, fun horder => ?_⟩
  have horder' : InOrder ([t] ++ used) := horder.tail
  obtain ⟨hargs, z, hz, rfl⟩ := hused horder'
  have hnested := nested_of_token hspan hchildren (horder'.forward t List.mem_cons_self)
  refine ⟨hargs.cons horder' hnested ?_ ?_, z, List.mem_cons_of_mem t' hz, rfl⟩
  · rw [hspan]
    exact .single t
  · rw [hspan]
    exact horder'.isOrBefore hz

/-- An argument in parentheses in front of others. -/
theorem DrawsAll.paren {t' : Token} (hx : Draws ts x (c :: after))
    (h : DrawsAll c after xs last rest) : DrawsAll t' (t :: ts) (x :: xs) last rest := by
  obtain ⟨used, rfl, hused⟩ := hx
  obtain ⟨used', rfl, hused'⟩ := h
  refine ⟨([t] ++ (used ++ [c])) ++ used', by simp, fun horder => ?_⟩
  have horder' : InOrder (([t] ++ (used ++ [c])) ++ used') := horder.tail
  obtain ⟨hnested, hbounded⟩ := hused horder'.left.right.left
  have hclose : InOrder (c :: used') := by
    have h := horder'
    rw [List.append_assoc, List.append_assoc] at h
    exact h.right.right
  obtain ⟨hargs, z, hz, rfl⟩ := hused' hclose
  have hbefore := hbounded.before horder'.left.right (.single c)
  refine ⟨hargs.cons horder' hnested (.right [t] (hbounded.left [c])) ?_, z, ?_, rfl⟩
  · rcases hclose.isOrBefore hz with heq | hafter
    · rw [← heq]
      exact .inr hbefore
    · exact .inr (hbefore.trans (hclose.forward c List.mem_cons_self) hafter)
  · refine List.mem_cons_of_mem t' ?_
    rcases List.mem_cons.1 hz with rfl | hz
    · simp
    · exact List.mem_append_right _ hz

end Rules

-- The recursion is that of the readers: it goes down in the tokens that are left.
mutual

/-- An expression is drawn from the tokens that are read for it. -/
theorem expression_draws (ts : List Token) :
    Gives (expression ts) (fun r => Draws ts r.value r.rest) fun _ => True := by
  have hoperand := operand_draws ts
  cases hleft : operand ts with
  | error e =>
    rw [expression, hleft]
    trivial
  | ok left =>
    have hfirst := hoperand.of_ok hleft
    cases hcons : left.rest with
    | nil =>
      rw [expression, hleft]
      dsimp only [bind, Except.bind]
      split
      · trivial
      · next h => rw [hcons] at h; cases h
    | cons t after =>
      have hshorter := Parsed.after_shorter hcons
      rw [hcons] at hfirst
      rw [expression_cons hleft hcons]
      cases operator? t.kind with
      | some op =>
        exact (operand_draws after).bind fun right hright => hfirst.binary op hright
      | none =>
        rw [Option.elim_none]
        split
        · refine (operand_draws after).bind fun yes hyes => ?_
          have := yes.shorter
          refine (expect_gives .colon .colon yes.rest).bind fun colon hcolon => ?_
          have := colon.shorter
          refine (operand_draws colon.rest).bind fun no hno => ?_
          rw [hcolon.2] at hyes
          exact hfirst.cond hyes hno
        · exact hfirst
termination_by 2 * ts.length + 1

/-- So is an operand. -/
theorem operand_draws : ∀ ts : List Token,
    Gives (operand ts) (fun r => Draws ts r.value r.rest) fun _ => True
  | [] => by
    rw [operand]
    trivial
  | t :: ts => by
    rw [operand]
    split
    · refine (expression_draws ts).bind fun inner hinner => ?_
      refine (expect_gives .rparen .closing inner.rest).bind fun close hclose => ?_
      rw [hclose.2] at hinner
      exact hinner.paren
    · split
      · cases literal t with
        | error e => trivial
        | ok v => exact draws_token rfl rfl
      · split
        · exact (arguments_draws t ts).bind fun args hargs => hargs.call t.text
        · trivial
termination_by ts => 2 * ts.length

/-- So are the arguments of a call, after the token before them. -/
theorem arguments_draws (prev : Token) : ∀ ts : List Token,
    Gives (arguments prev.span ts) (fun r => DrawsAll prev ts r.values r.last r.rest) fun _ => True
  | [] => by
    rw [arguments]
    trivial
  | t :: ts => by
    rw [arguments]
    split
    · refine (expression_draws ts).bind fun inner hinner => ?_
      have := inner.shorter
      refine (expect_gives .rparen .closing inner.rest).bind fun close hclose => ?_
      have := close.shorter
      refine (arguments_draws close.value close.rest).bind fun more hmore => ?_
      rw [hclose.2] at hinner
      exact .paren hinner hmore
    · split
      · cases literal t with
        | error e => trivial
        | ok v => exact (arguments_draws t ts).bind fun more hmore => hmore.token rfl rfl
      · split
        · exact (arguments_draws t ts).bind fun more hmore => hmore.token rfl rfl
        · exact drawsAll_nil
termination_by ts => 2 * ts.length

end

/-! ## Reading lines -/

/-- The place of a signature ends with a token that is read for it. -/
theorem types_draws : ∀ ts : List Token,
    Gives (types ts) (fun r => ∃ used, ts = used ++ r.rest ∧ ∃ z ∈ used, r.value.2 = z.span)
      fun _ => True
  | [] => by
    rw [types]
    trivial
  | [t] => by
    rw [types]
    split <;> trivial
  | t :: a :: ts => by
    rw [types]
    split
    · trivial
    · dsimp only
      split
      · refine (types_draws ts).bind fun more hmore => ?_
        obtain ⟨used, htokens, z, hz, hspan⟩ := hmore
        exact ⟨t :: a :: used, congrArg (fun us => t :: a :: us) htokens, z, by simp [hz], hspan⟩
      · exact ⟨[t], rfl, t, List.mem_cons_self, rfl⟩

/-- The spans of parameters are those of the tokens before the `=` sign. -/
theorem parameters_draws : ∀ ts : List Token,
    Gives (parameters ts) (fun r => ∃ used sign, ts = used ++ sign :: r.rest ∧
      r.value.map Pattern.span = used.map Token.span) fun _ => True
  | [] => by
    rw [parameters]
    trivial
  | t :: ts => by
    rw [parameters]
    split
    · exact ⟨[], t, rfl, rfl⟩
    · split
      · refine (parameters_draws ts).bind fun more hmore => ?_
        obtain ⟨used, sign, htokens, hspans⟩ := hmore
        exact ⟨t :: used, sign, congrArg (t :: ·) htokens, congrArg (t.span :: ·) hspans⟩
      · split
        · cases literal t with
          | error e => trivial
          | ok v =>
            refine (parameters_draws ts).bind fun more hmore => ?_
            obtain ⟨used, sign, htokens, hspans⟩ := hmore
            exact ⟨t :: used, sign, congrArg (t :: ·) htokens, congrArg (t.span :: ·) hspans⟩
        · trivial

/-- The line starts at its name. If the name and the tokens after it are in order, one of them ends
the line, and the spans in it nest. -/
structure DrawnFrom (name : Token) (used : List Token) (l : Line) : Prop where
  text : l.name = name.text
  start : l.span.SameStart name.span
  stop : InOrder (name :: used) → ∃ z ∈ name :: used, l.span.SameEnd z.span
  nested : InOrder (name :: used) → l.Nested

/-- A signature line is drawn from its tokens. -/
theorem drawnFrom_decl {name z : Token} {used : List Token} (signature : Signature)
    (hz : z ∈ used) :
    DrawnFrom name used (.decl ⟨name.text, signature, name.span.upTo z.span⟩) where
  text := rfl
  start := ⟨rfl, rfl⟩
  stop := fun _ => ⟨z, List.mem_cons_of_mem name hz, rfl, rfl⟩
  nested := fun horder => by
    refine Span.surrounds_upTo (horder.forward name List.mem_cons_self)
      (horder.forward z (List.mem_cons_of_mem name hz)) ?_ (List.forall_mem_nil _) .nil
    exact horder.isOrBefore (List.mem_cons_of_mem name hz)

/-- A clause is drawn from its name, its parameters, the sign and the tokens of its body. -/
theorem drawnFrom_clause (name sign : Token) {used ts rest : List Token} {params : List Pattern}
    {body : Expr} (hparams : params.map Pattern.span = used.map Token.span)
    (hbody : Draws ts body rest) :
    ∃ used', ts = used' ++ rest ∧ DrawnFrom name (used ++ ([sign] ++ used'))
      (.clause ⟨name.text, params, body, name.span.upTo body.span⟩) := by
  obtain ⟨used', rfl, hused'⟩ := hbody
  refine ⟨used', rfl, rfl, ⟨rfl, rfl⟩, fun horder => ?_, fun horder => ?_⟩
  · have hline : InOrder (used ++ ([sign] ++ used')) := horder.tail
    obtain ⟨z, hz, hstop⟩ := (hused' hline.right.right).2.stop
    exact ⟨z, by simp [hz], hstop⟩
  · have hline : InOrder (used ++ ([sign] ++ used')) := horder.tail
    obtain ⟨hnested, hbounded⟩ := hused' hline.right.right
    have hname : ∀ s : Span, s.BoundedBy (used ++ ([sign] ++ used')) → name.span.Before s :=
      fun s hs => hs.after_token horder
    have hfirst := hname body.span (.right _ (.right _ hbounded))
    have hparam : ∀ t ∈ used, t.span.Before body.span := fun t ht =>
      (Span.BoundedBy.of_mem ht).before hline (.right _ hbounded)
    refine ⟨Span.surrounds_upTo (horder.forward name List.mem_cons_self) hnested.forward
      (.inr hfirst) ?_ ?_, fun q hq => Span.surrounds_nil ?_, hnested⟩
    · dsimp only
      rw [hparams]
      refine List.forall_mem_append.2 ⟨List.forall_mem_map.2 fun t ht => ?_,
        List.forall_mem_singleton.2 ⟨hnested.forward, .inr hfirst, .inl rfl⟩⟩
      exact ⟨hline.left.forward t ht, .inr (hname t.span ((Span.BoundedBy.of_mem ht).left _)),
        .inr (hparam t ht)⟩
    · dsimp only
      rw [hparams]
      refine List.pairwise_append.2 ⟨List.pairwise_map.2 hline.left.before,
        List.pairwise_singleton _ _, List.forall_mem_map.2 fun t ht => ?_⟩
      exact List.forall_mem_singleton.2 (hparam t ht)
    · obtain ⟨t, ht, hspan⟩ := List.mem_map.1 (hparams ▸ List.mem_map_of_mem hq)
      rw [← hspan]
      exact hline.left.forward t ht

/-- A line is drawn from its name and the tokens that are read after it. -/
theorem lineBody_draws (name : Token) : ∀ ts : List Token,
    Gives (lineBody name ts) (fun r => ∃ used, ts = used ++ r.rest ∧ DrawnFrom name used r.value)
      fun _ => True
  | [] => by
    rw [lineBody]
    trivial
  | t :: ts => by
    rw [lineBody]
    split
    · refine (types_draws ts).bind fun sig hsig => ?_
      obtain ⟨used, htokens, z, hz, hspan⟩ := hsig
      refine ⟨t :: used, congrArg (t :: ·) htokens, ?_⟩
      dsimp only
      rw [hspan]
      exact drawnFrom_decl _ (List.mem_cons_of_mem t hz)
    · refine (parameters_draws (t :: ts)).bind fun params hparams => ?_
      obtain ⟨used, sign, htokens, hspans⟩ := hparams
      refine (expression_draws params.rest).bind fun body hbody => ?_
      obtain ⟨used', hrest, hdrawn⟩ := drawnFrom_clause name sign hspans hbody
      rw [hrest] at htokens
      exact ⟨used ++ ([sign] ++ used'), htokens.trans (by simp), hdrawn⟩

/-- A line is read from its name, the tokens after it, and the token that ends it. -/
theorem line_draws (ts : List Token) :
    Gives (line ts) (fun r => ∃ name used stop, ts = name :: used ++ stop :: r.rest ∧
      name.kind = .identifier ∧ stop.kind = .newline ∧ DrawnFrom name used r.value)
      fun _ => True := by
  rw [line]
  refine (expect_gives .identifier .functionName ts).bind fun name hname => ?_
  refine (lineBody_draws name.value name.rest).bind fun body hbody => ?_
  refine (expect_gives .newline .endOfLine body.rest).bind fun stop hstop => ?_
  obtain ⟨used, htokens, hdrawn⟩ := hbody
  rw [hstop.2] at htokens
  exact ⟨name.value, used, stop.value, hname.2.trans (congrArg (name.value :: ·) htokens), hname.1,
    hstop.1, hdrawn⟩

end Grammar

end Clausal
