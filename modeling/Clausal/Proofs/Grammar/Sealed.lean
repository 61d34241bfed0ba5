import Clausal.Proofs.Grammar.Local

/-!
# Lines are sealed

A reader that returns has read tokens whose parentheses match and whose last one does not ask for
more (`Sealed`). So a program that is read without faults is a list of sealed lines
(`lines_closed`): at the end of each of them no parenthesis is open, and a line feed there ends the
line. Nothing is assumed of the tokens.
-/

namespace Clausal.Grammar

open Token

/-- Tokens of one line whose parentheses match and that do not end on a token that asks for more. -/
structure Sealed (ts : List Token) : Prop where
  inside : ∀ t ∈ ts, endsLine t.kind = false
  balanced : ∀ depth, depthAfter depth (ts.map word) = depth
  complete : ∃ t, ts.getLast? = some t ∧ t.kind.continuesLine = false

namespace Sealed

variable {t c : Token} {ts us : List Token}

/-- A token that can end a line and is no parenthesis is sealed. -/
theorem singleton (hline : endsLine t.kind = false) (hparen : t.kind.isParen = false)
    (hcomplete : t.kind.continuesLine = false) : Sealed [t] where
  inside := by
    intro u hu
    rwa [List.mem_singleton.1 hu]
  balanced := fun depth => depthAfter_cons hparen depth []
  complete := ⟨t, rfl, hcomplete⟩

/-- Sealed tokens one after the other are sealed. -/
theorem append (hts : Sealed ts) (hus : Sealed us) : Sealed (ts ++ us) where
  inside := by
    intro u hu
    rcases List.mem_append.1 hu with hu | hu
    · exact hts.inside u hu
    · exact hus.inside u hu
  balanced := fun depth => by
    rw [List.map_append, depthAfter_append, hts.balanced, hus.balanced]
  complete := by
    obtain ⟨u, hu, hcomplete⟩ := hus.complete
    exact ⟨u, by rw [List.getLast?_append, hu, Option.some_or], hcomplete⟩

/-- Any token that is no parenthesis can stand in front. -/
theorem cons (hline : endsLine t.kind = false) (hparen : t.kind.isParen = false)
    (hts : Sealed ts) : Sealed (t :: ts) where
  inside := List.forall_mem_cons.2 ⟨hline, hts.inside⟩
  balanced := fun depth => by
    rw [List.map_cons, depthAfter_cons hparen, hts.balanced]
  complete := by
    obtain ⟨u, hu, hcomplete⟩ := hts.complete
    exact ⟨u, by rw [List.getLast?_cons, hu, Option.getD_some], hcomplete⟩

/-- Sealed tokens in parentheses are sealed. -/
theorem enclose (ht : t.kind = .lparen) (hc : c.kind = .rparen) (hts : Sealed ts) :
    Sealed (t :: (ts ++ [c])) where
  inside := by
    intro u hu
    simp only [List.mem_cons, List.mem_append, List.not_mem_nil, or_false] at hu
    rcases hu with rfl | hu | rfl
    · rw [ht]
      rfl
    · exact hts.inside u hu
    · rw [hc]
      rfl
  balanced := fun depth => by
    have hopen : depthAfter depth [word t] = depth + 1 := by simp [depthAfter, word, ht]
    have hclose : depthAfter (depth + 1) [word c] = depth := by simp [depthAfter, word, hc]
    rw [List.map_cons, List.map_append, ← List.singleton_append, depthAfter_append, hopen,
      depthAfter_append, hts.balanced]
    exact hclose
  complete := by
    refine ⟨c, ?_, by rw [hc]; rfl⟩
    rw [← List.cons_append, List.getLast?_concat]

end Sealed

/-- What was read from the front of `ts` is sealed. -/
def Seals (ts rest : List Token) : Prop :=
  ∃ used, ts = used ++ rest ∧ Sealed used

section Readers

variable {t c : Token} {ts mid rest : List Token}

/-- A literal is sealed. -/
theorem seals_literal (h : t.kind.isLiteral = true) : Seals (t :: ts) ts := by
  refine ⟨[t], rfl, .singleton (endsLine_of_isLiteral h) ?_ ?_⟩ <;>
    cases hk : t.kind <;> first | rfl | (rw [hk] at h; cases h)

/-- A name is sealed. -/
theorem seals_name (h : t.kind = .identifier) : Seals (t :: ts) ts :=
  ⟨[t], rfl, .singleton (by rw [h]; rfl) (by rw [h]; rfl) (by rw [h]; rfl)⟩

/-- What is read one after the other is sealed. -/
theorem Seals.trans (h : Seals ts mid) (h' : Seals mid rest) : Seals ts rest := by
  obtain ⟨used, rfl, hused⟩ := h
  obtain ⟨used', rfl, hused'⟩ := h'
  exact ⟨used ++ used', (List.append_assoc _ _ _).symm, hused.append hused'⟩

/-- Nothing more, or more that is sealed. -/
theorem Seals.extend (h : Seals ts mid) (h' : mid = rest ∨ Seals mid rest) : Seals ts rest := by
  rcases h' with rfl | h'
  · exact h
  · exact h.trans h'

/-- A token within a line that is no parenthesis can stand before sealed ones. -/
theorem Seals.cons (hline : endsLine t.kind = false) (hparen : t.kind.isParen = false)
    (h : Seals ts rest) : Seals (t :: ts) rest := by
  obtain ⟨used, rfl, hused⟩ := h
  exact ⟨t :: used, rfl, hused.cons hline hparen⟩

/-- What is read in parentheses is sealed with them. -/
theorem Seals.enclose (ht : t.kind = .lparen) (hc : c.kind = .rparen)
    (h : Seals ts (c :: rest)) : Seals (t :: ts) rest := by
  obtain ⟨used, rfl, hused⟩ := h
  exact ⟨t :: (used ++ [c]), by simp, hused.enclose ht hc⟩

/-- No operator is a parenthesis. -/
theorem isParen_op (op : Op) : op.kind.isParen = false := by
  cases op <;> rfl

/-- A token that is asked for is taken from the front. -/
theorem expect_gives (kind : Kind) (what : Wanted) (ts : List Token) :
    Gives (expect kind what ts) (fun r => r.value.kind = kind ∧ ts = r.value :: r.rest)
      fun _ => True := by
  cases ts with
  | nil => trivial
  | cons t ts =>
    rw [expect]
    split
    · next ht => exact ⟨ht, rfl⟩
    · trivial

-- The recursion is that of the readers: it goes down in the tokens that are left.
mutual

/-- The tokens of an expression are sealed. -/
theorem expression_seals (ts : List Token) :
    Gives (expression ts) (fun r => Seals ts r.rest) fun _ => True := by
  have hoperand := operand_seals ts
  cases hleft : operand ts with
  | error e =>
    rw [expression, hleft]
    trivial
  | ok left =>
    have hfirst := hoperand.of_ok hleft
    cases hcons : left.rest with
    | nil =>
      rw [expression, hleft]
      dsimp only [bind, Except.bind]
      split
      · trivial
      · next h => rw [hcons] at h; cases h
    | cons t after =>
      have hshorter := Parsed.after_shorter hcons
      rw [hcons] at hfirst
      rw [expression_cons hleft hcons]
      cases hop : operator? t.kind with
      | some op =>
        have hkind := operator?_eq_some_iff.1 hop
        refine (operand_seals after).bind fun right hright => ?_
        refine hfirst.trans (hright.cons ?_ ?_)
        · rw [hkind, endsLine_op]
        · rw [hkind, isParen_op]
      | none =>
        rw [Option.elim_none]
        split
        · next hquestion =>
          refine (operand_seals after).bind fun yes hyes => ?_
          have := yes.shorter
          refine (expect_gives .colon .colon yes.rest).bind fun colon hcolon => ?_
          have := colon.shorter
          refine (operand_seals colon.rest).bind fun no hno => ?_
          rw [hcolon.2] at hyes
          have hbranches := hyes.trans
            (hno.cons (by rw [hcolon.1]; rfl) (by rw [hcolon.1]; rfl))
          exact hfirst.trans
            (hbranches.cons (by rw [hquestion]; rfl) (by rw [hquestion]; rfl))
        · exact hfirst
termination_by 2 * ts.length + 1

/-- So are those of an operand. -/
theorem operand_seals : ∀ ts : List Token,
    Gives (operand ts) (fun r => Seals ts r.rest) fun _ => True
  | [] => by
    rw [operand]
    trivial
  | t :: ts => by
    rw [operand]
    split
    · next hopen =>
      refine (expression_seals ts).bind fun inner hinner => ?_
      refine (expect_gives .rparen .closing inner.rest).bind fun close hclose => ?_
      rw [hclose.2] at hinner
      exact hinner.enclose hopen hclose.1
    · split
      · next hliteral =>
        cases literal t with
        | error e => trivial
        | ok v => exact seals_literal hliteral
      · split
        · next hname =>
          refine (arguments_seals t.span ts).bind fun args hargs => ?_
          exact (seals_name hname).extend hargs
        · trivial
termination_by ts => 2 * ts.length

/-- So are those of arguments, if there are any. -/
theorem arguments_seals (last : Span) : ∀ ts : List Token,
    Gives (arguments last ts) (fun r => ts = r.rest ∨ Seals ts r.rest) fun _ => True
  | [] => by
    rw [arguments]
    trivial
  | t :: ts => by
    rw [arguments]
    split
    · next hopen =>
      refine (expression_seals ts).bind fun inner hinner => ?_
      have := inner.shorter
      refine (expect_gives .rparen .closing inner.rest).bind fun close hclose => ?_
      have := close.shorter
      refine (arguments_seals _ close.rest).bind fun more hmore => ?_
      rw [hclose.2] at hinner
      exact .inr ((hinner.enclose hopen hclose.1).extend hmore)
    · split
      · next hliteral =>
        cases literal t with
        | error e => trivial
        | ok v =>
          refine (arguments_seals _ ts).bind fun more hmore => ?_
          exact .inr ((seals_literal hliteral).extend hmore)
      · split
        · next hname =>
          refine (arguments_seals _ ts).bind fun more hmore => ?_
          exact .inr ((seals_name hname).extend hmore)
        · exact .inl rfl
termination_by ts => 2 * ts.length

end

/-- So are those of a signature. -/
theorem types_seals : ∀ ts : List Token,
    Gives (types ts) (fun r => Seals ts r.rest) fun _ => True
  | [] => by
    rw [types]
    trivial
  | [t] => by
    rw [types]
    split <;> trivial
  | t :: a :: ts => by
    rw [types]
    split
    · trivial
    · next ty hty =>
      have hkind := typeNamed_kind hty
      have hfirst : Seals (t :: a :: ts) (a :: ts) :=
        ⟨[t], rfl, .singleton (by rw [hkind]; rfl) (by rw [hkind]; rfl) (by rw [hkind]; rfl)⟩
      dsimp only
      split
      · next harrow =>
        refine (types_seals ts).bind fun more hmore => ?_
        exact hfirst.trans (hmore.cons (by rw [harrow]; rfl) (by rw [harrow]; rfl))
      · exact hfirst

/-- Parameters and the sign after them can stand in front of what is sealed. -/
theorem parameters_seals : ∀ ts : List Token,
    Gives (parameters ts) (fun r => ∀ rest, Seals r.rest rest → Seals ts rest) fun _ => True
  | [] => by
    rw [parameters]
    trivial
  | t :: ts => by
    rw [parameters]
    split
    · next hassign =>
      exact fun rest h => h.cons (by rw [hassign]; rfl) (by rw [hassign]; rfl)
    · split
      · next hname =>
        refine (parameters_seals ts).bind fun more hmore => ?_
        exact fun rest h => (seals_name hname).trans (hmore rest h)
      · split
        · next hliteral =>
          cases literal t with
          | error e => trivial
          | ok v =>
            refine (parameters_seals ts).bind fun more hmore => ?_
            exact fun rest h => (seals_literal hliteral).trans (hmore rest h)
        · trivial

/-- So are those after the name of a line. -/
theorem lineBody_seals (name : Token) : ∀ ts : List Token,
    Gives (lineBody name ts) (fun r => Seals ts r.rest) fun _ => True
  | [] => by
    rw [lineBody]
    trivial
  | t :: ts => by
    rw [lineBody]
    split
    · next hcolons =>
      refine (types_seals ts).bind fun sig hsig => ?_
      exact hsig.cons (by rw [hcolons]; rfl) (by rw [hcolons]; rfl)
    · refine (parameters_seals (t :: ts)).bind fun params hparams => ?_
      refine (expression_seals params.rest).bind fun body hbody => ?_
      exact hparams body.rest hbody

/-- A line is sealed, and the token after it ends it. -/
theorem line_seals (ts : List Token) :
    Gives (line ts)
      (fun r => ∃ used stop, ts = used ++ stop :: r.rest ∧ Sealed used ∧ stop.kind = .newline)
      fun _ => True := by
  rw [line]
  refine (expect_gives .identifier .functionName ts).bind fun name hname => ?_
  refine (lineBody_seals name.value name.rest).bind fun body hbody => ?_
  refine (expect_gives .newline .endOfLine body.rest).bind fun stop hstop => ?_
  rw [hstop.2] at hbody
  obtain ⟨used, hused, hsealed⟩ := (seals_name hname.1).trans hbody
  exact ⟨used, stop.value, hname.2.trans hused, hsealed, hstop.1⟩

end Readers

/-! ## Programs -/

/-- Lines one after the other, each sealed or empty, and each with the token that ends it. -/
inductive Closed : List Token → Prop
  | nil : Closed []
  | line {used ts : List Token} {stop : Token} : Sealed used ∨ used = [] → stop.kind = .newline →
      Closed ts → Closed (used ++ stop :: ts)

/-- No parenthesis is open after closed lines. -/
theorem Closed.balanced {ts : List Token} (h : Closed ts) (depth : Nat) :
    depthAfter depth (ts.map word) = depth := by
  induction h with
  | nil => rfl
  | @line used ts stop hused hstop _ ih =>
    have hline : depthAfter depth (used.map word) = depth := by
      rcases hused with hused | rfl
      · exact hused.balanced depth
      · rfl
    have hparen : (word stop).kind.isParen = false := by rw [word, hstop]; rfl
    rw [List.map_append, depthAfter_append, hline, List.map_cons, depthAfter_cons hparen, ih]

/-- Closed lines end in the end of a line, and the token before it does not ask for more. -/
theorem Closed.ended {ts init : List Token} {last : Token} (h : Closed ts)
    (heq : ts = init ++ [last]) :
    last.kind = .newline ∧ ∀ t, init.getLast? = some t → t.kind.continuesLine = false := by
  induction h generalizing init with
  | nil => simp at heq
  | @line used ts stop hused hstop _ ih =>
    rcases List.eq_nil_or_concat ts with rfl | ⟨more, last', rfl⟩
    · obtain ⟨rfl, hlast⟩ := List.append_inj' heq rfl
      cases hlast
      refine ⟨hstop, fun t ht => ?_⟩
      rcases hused with hused | rfl
      · obtain ⟨u, hu, hcomplete⟩ := hused.complete
        cases hu.symm.trans ht
        exact hcomplete
      · cases ht
    · rw [List.concat_eq_append, ← List.cons_append, ← List.append_assoc] at heq
      obtain ⟨rfl, hlast⟩ := List.append_inj' heq rfl
      cases hlast
      obtain ⟨hnewline, hmore⟩ := ih List.concat_eq_append
      refine ⟨hnewline, fun t ht => ?_⟩
      rw [List.getLast?_append, List.getLast?_cons, Option.some_or, Option.some.injEq] at ht
      cases hu : more.getLast? with
      | none =>
        rw [hu, Option.getD_none] at ht
        rw [← ht, hstop]
        rfl
      | some u =>
        rw [hu, Option.getD_some] at ht
        exact ht ▸ hmore u hu

/-- **A program without faults** is a list of closed lines, up to the end of the file. -/
theorem lines_closed : ∀ ts : List Token,
    Gives (lines ts)
      (fun r => r.faults = [] → ∃ init eof rest, ts = init ++ eof :: rest ∧ eof.kind = .eof ∧
        Closed init) fun _ => True
  | [] => by
    rw [lines]
    trivial
  | t :: ts => by
    rw [lines]
    split
    · next heof => exact fun _ => ⟨[], t, ts, rfl, heof, .nil⟩
    · next heof =>
      split
      · next hnewline =>
        refine (lines_closed ts).imp fun r hr hfaults => ?_
        obtain ⟨init, eof, rest, rfl, hkind, hclosed⟩ := hr hfaults
        exact ⟨t :: init, eof, rest, rfl, hkind, .line (.inr rfl) hnewline hclosed⟩
      · have hline := line_seals (t :: ts)
        split
        · next l hl =>
          obtain ⟨used, stop, hused, hsealed, hstop⟩ := hline.of_ok hl
          have hshorter : l.rest.length ≤ ts.length := Nat.le_of_lt_succ l.shorter
          refine gives_map.2 ((lines_closed l.rest).imp fun r hr hfaults => ?_)
          obtain ⟨init, eof, rest, hrest, hkind, hclosed⟩ := hr hfaults
          refine ⟨used ++ stop :: init, eof, rest, ?_, hkind, .line (.inl hsealed) hstop hclosed⟩
          rw [hused, hrest, List.append_assoc, List.cons_append]
        · have hshorter : (skipLine (t :: ts)).length ≤ ts.length :=
            Nat.le_of_lt_succ (skipLine_length_lt heof)
          refine gives_map.2 ((lines_closed _).imp fun r _ hfaults => ?_)
          cases hfaults
        · trivial
termination_by ts => ts.length

end Clausal.Grammar
