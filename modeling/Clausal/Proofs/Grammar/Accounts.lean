import Clausal.Proofs.Grammar.Segments
import Clausal.Proofs.Grammar.Taking

/-!
# The account of a reading

Leaving out the account of `Clausal.Proofs.Grammar.Taking` gives back the readers themselves
(`Accounts`, `run_accounts`), with one account however they end. The tokens in the account are those
at the front of the list, in order, and none of them is the end of the file. Where reading comes to
its end it stands at the end of the file; where it runs out of tokens it has taken all of them; and
where it gives up otherwise, it has taken a token that it cannot convert. The induction is the
recursion of the readers, and `Accounts.bind` carries it over one reader after the other.
-/

namespace Clausal.Grammar

open Token

/-! ## Accounts of readers -/

/-- The token cannot be converted, for this reason. -/
def Unreadable (t : Token) (a : Abort) : Prop :=
  literal t = .error (.abort a) ∨ typeNamed t = .error (.abort a)

/-- Why reading gives up: there are no tokens left, or it has taken a token that it cannot
convert. -/
def GivesUp (taken left : List Token) (a : Abort) : Prop :=
  a = .cutOff ∧ left = [] ∨ ∃ t ∈ taken, Unreadable t a

/-- More tokens that were taken before do not change why reading gives up. -/
theorem GivesUp.append {taken left : List Token} {a : Abort} (h : GivesUp taken left a)
    (before : List Token) : GivesUp (before ++ taken) left a := by
  rcases h with hend | ⟨t, ht, hread⟩
  · exact .inl hend
  · exact .inr ⟨t, List.mem_append_right before ht, hread⟩

/-- The tokens `left` are behind those that were taken from the front of `ts`. A reader that returns
goes on with them. -/
structure Leaves {α : Type} (ts taken left : List Token) (y : Except Halt α)
    (rest : α → List Token) : Prop where
  split : ts = taken ++ left
  ok : ∀ a, y = .ok a → left = rest a
  abort : ∀ a, y = .error (.abort a) → GivesUp taken left a

/-- Account aside, `x` is the reader `y`. The account has tokens from the front of `ts`, of the
kinds in `P`, and none that ends a line if the reader stops. -/
structure Accounts {α : Type} (P : Kind → Prop) (ts : List Token) (x : Taking α)
    (y : Except Halt α) (rest : α → List Token) : Prop where
  result : x.result = y
  kinds : ∀ t ∈ x.taken, P t.kind
  inside : ∀ e, y = .error e → ∀ t ∈ x.taken, endsLine t.kind = false
  leaves : ∃ left, Leaves ts x.taken left y rest

/-- Kinds of tokens that do not end a line. -/
abbrev Within (k : Kind) : Prop :=
  endsLine k = false

section Accounts

variable {α β : Type} {P : Kind → Prop} {ts taken left : List Token} {t : Token}
  {rest : α → List Token}

/-- A reader that returns goes on with the tokens that are left. -/
theorem leaves_ok {a : α} (hsplit : ts = taken ++ left) (hrest : left = rest a) :
    Leaves ts taken left (.ok a) rest where
  split := hsplit
  ok := by
    rintro b ⟨⟩
    exact hrest
  abort := by
    rintro b ⟨⟩

/-- A reader that stops says why. -/
theorem leaves_error {e : Halt} (hsplit : ts = taken ++ left)
    (h : ∀ a, e = .abort a → GivesUp taken left a) : Leaves ts taken left (.error e) rest where
  split := hsplit
  ok := by
    rintro b ⟨⟩
  abort := by
    rintro a ⟨⟩
    exact h a rfl

/-- After a reader that returns, both have taken their tokens. -/
theorem Taking.bind_of_ok {x : Taking α} {f : α → Taking β} {a : α} (h : x.result = .ok a) :
    x >>= f = ⟨x.taken ++ (f a).taken, (f a).result⟩ := by
  obtain ⟨taken, result⟩ := x
  cases h
  rfl

/-- After a reader that stops, no more tokens are taken. -/
theorem Taking.bind_of_error {x : Taking α} {f : α → Taking β} {e : Halt}
    (h : x.result = .error e) : x >>= f = ⟨x.taken, .error e⟩ := by
  obtain ⟨taken, result⟩ := x
  cases h
  rfl

/-- A reader that stops, and what would have come after it. -/
theorem Accounts.of_error {x : Taking α} {e : Halt} {f : α → Taking β} {rest' : β → List Token}
    (h : Accounts Within ts x (.error e) rest) (hP : ∀ k, Within k → P k) :
    Accounts P ts (x >>= f) (.error e) rest' := by
  obtain ⟨left, hsplit, -, habort⟩ := h.leaves
  rw [Taking.bind_of_error h.result]
  exact ⟨rfl, fun t ht => hP _ (h.kinds t ht), fun _ _ => h.kinds, left,
    leaves_error hsplit fun a ha => habort a (congrArg Except.error ha)⟩

/-- A reader that returns, and another one after it. -/
theorem Accounts.of_ok {x : Taking α} {a : α} {f : α → Taking β} {z : Except Halt β}
    {rest' : β → List Token} (h : Accounts Within ts x (.ok a) rest) (hP : ∀ k, Within k → P k)
    (hf : Accounts P (rest a) (f a) z rest') : Accounts P ts (x >>= f) z rest' := by
  obtain ⟨left, hsplit, hok, -⟩ := h.leaves
  obtain ⟨left', hsplit', hok', habort'⟩ := hf.leaves
  rw [Taking.bind_of_ok h.result]
  refine ⟨hf.result, ?_, ?_, left', ?_, hok', fun b hb => (habort' b hb).append x.taken⟩
  · exact List.forall_mem_append.2 ⟨fun t ht => hP _ (h.kinds t ht), hf.kinds⟩
  · exact fun e he => List.forall_mem_append.2 ⟨h.kinds, hf.inside e he⟩
  · rw [hsplit, hok a rfl, hsplit', List.append_assoc]

/-- One reader after the other. -/
theorem Accounts.bind {x : Taking α} {y : Except Halt α} {f : α → Taking β}
    {g : α → Except Halt β} {rest' : β → List Token} (h : Accounts Within ts x y rest)
    (hP : ∀ k, Within k → P k) (hf : ∀ a, Accounts P (rest a) (f a) (g a) rest') :
    Accounts P ts (x >>= f) (y >>= g) rest' := by
  cases y with
  | error e => exact h.of_error hP
  | ok a => exact h.of_ok hP (hf a)

/-- One reader after the other, within a line. -/
theorem Accounts.next {x : Taking α} {y : Except Halt α} {f : α → Taking β}
    {g : α → Except Halt β} {rest' : β → List Token} (h : Accounts Within ts x y rest)
    (hf : ∀ a, Accounts Within (rest a) (f a) (g a) rest') :
    Accounts Within ts (x >>= f) (y >>= g) rest' :=
  h.bind (fun _ hk => hk) hf

/-- A value takes no tokens. -/
theorem accounts_pure (a : α) (h : ts = rest a) : Accounts P ts (pure a) (.ok a) rest where
  result := rfl
  kinds := List.forall_mem_nil _
  inside := by
    rintro e ⟨⟩
  leaves := ⟨ts, leaves_ok rfl h⟩

/-- A reader whose value is made into another one. -/
theorem Accounts.map {x : Taking α} {y : Except Halt α} {f : α → β} {rest' : β → List Token}
    (h : Accounts P ts x y rest) (hrest : ∀ a, rest a = rest' (f a)) :
    Accounts P ts (x >>= fun a => pure (f a)) (y >>= fun a => pure (f a)) rest' := by
  obtain ⟨left, hsplit, hok, habort⟩ := h.leaves
  cases y with
  | error e =>
    rw [Taking.bind_of_error h.result]
    exact ⟨rfl, h.kinds, fun _ _ => h.inside e rfl, left,
      leaves_error hsplit fun a ha => habort a (congrArg Except.error ha)⟩
  | ok a =>
    have htaken : x.taken ++ (pure (f a) : Taking β).taken = x.taken := List.append_nil _
    rw [Taking.bind_of_ok h.result, htaken]
    refine ⟨rfl, h.kinds, ?_, left, leaves_ok hsplit ((hok a rfl).trans (hrest a))⟩
    rintro e ⟨⟩

/-- A stop takes no tokens; it is an abort only if there are none. -/
theorem accounts_stop {e : Halt} (h : ∀ a, e = .abort a → a = .cutOff ∧ ts = []) :
    Accounts P ts (Taking.stop e) (.error e) rest where
  result := rfl
  kinds := List.forall_mem_nil _
  inside := fun _ _ => List.forall_mem_nil _
  leaves := ⟨ts, leaves_error rfl fun a ha => .inl (h a ha)⟩

/-- Without tokens a reader gives up. -/
theorem accounts_cutOff :
    Accounts P [] (Taking.stop (.abort .cutOff)) (.error (.abort .cutOff)) rest :=
  accounts_stop (by rintro _ ⟨⟩; exact ⟨rfl, rfl⟩)

/-- A token that does not fit is not taken. -/
theorem accounts_unexpected (what : Wanted) (t : Token) :
    Accounts P ts (Taking.stop (unexpected what t)) (.error (unexpected what t)) rest :=
  accounts_stop (by rintro _ ⟨⟩)

/-- A reader that takes one token first. -/
theorem Accounts.take {x : Taking α} {y : Except Halt α} (ht : endsLine t.kind = false)
    (h : Accounts Within ts x y rest) :
    Accounts Within (t :: ts) (Taking.take t >>= fun _ => x) y rest := by
  obtain ⟨left, hsplit, hok, habort⟩ := h.leaves
  refine ⟨h.result, List.forall_mem_cons.2 ⟨ht, h.kinds⟩, ?_, left, ?_, hok,
    fun a ha => (habort a ha).append [t]⟩
  · exact fun e he => List.forall_mem_cons.2 ⟨ht, h.inside e he⟩
  · rw [hsplit]
    rfl

/-- A literal is taken before it is converted. -/
theorem accounts_value (ht : t.kind.isLiteral = true) :
    Accounts Within (t :: ts) (Taking.value t) (literal t) fun _ => ts where
  result := rfl
  kinds := List.forall_mem_singleton.2 (endsLine_of_isLiteral ht)
  inside := fun _ _ => List.forall_mem_singleton.2 (endsLine_of_isLiteral ht)
  leaves := ⟨ts, rfl, fun _ _ => rfl, fun _ ha => .inr ⟨t, List.mem_cons_self, .inl ha⟩⟩

/-- The name of a type is taken before it is looked up. -/
theorem accounts_type (t : Token) (ts : List Token) :
    Accounts Within (t :: ts) (Taking.type t) (typeNamed t) fun _ => ts := by
  by_cases ht : t.kind = .typeName
  · have hkind : endsLine t.kind = false := by rw [ht]; rfl
    rw [Taking.type, if_pos ht]
    exact ⟨rfl, List.forall_mem_singleton.2 hkind, fun _ _ => List.forall_mem_singleton.2 hkind, ts,
      rfl, fun _ _ => rfl, fun _ ha => .inr ⟨t, List.mem_cons_self, .inr ha⟩⟩
  · have hfault : typeNamed t = .error (unexpected .type t) := if_neg ht
    rw [Taking.type, if_neg ht, hfault]
    exact accounts_unexpected .type t

/-- A token that is asked for is taken if it is of the kind. -/
theorem expect_accounts {kind : Kind} (hP : P kind) (what : Wanted) (ts : List Token) :
    Accounts P ts (Taking.expect kind what ts) (expect kind what ts) (·.rest) := by
  cases ts with
  | nil => exact accounts_cutOff
  | cons t ts =>
    rw [Taking.expect, expect]
    split
    · next ht =>
      refine ⟨rfl, List.forall_mem_singleton.2 (ht ▸ hP), ?_, ts, leaves_ok rfl rfl⟩
      rintro e ⟨⟩
    · exact accounts_unexpected what t

end Accounts

-- The recursion is that of the readers: it goes down in the tokens that are left.
mutual

/-- The account of an expression is in step with its reader. -/
theorem expression_accounts (ts : List Token) :
    Accounts Within ts (Taking.expression ts) (expression ts) (·.rest) := by
  rw [Taking.expression, expression]
  refine (operand_accounts ts).next fun left => ?_
  obtain ⟨value, rest, shorter⟩ := left
  cases rest with
  | nil => exact accounts_cutOff
  | cons t after =>
    have hshorter : after.length + 1 < ts.length := shorter
    dsimp only
    cases hop : operator? t.kind with
    | some op =>
      have ht : endsLine t.kind = false := by rw [operator?_eq_some_iff.1 hop, endsLine_op]
      exact .take ht ((operand_accounts after).map fun _ => rfl)
    | none =>
      dsimp only
      split
      · next hquestion =>
        refine .take (by rw [hquestion]; rfl)
          ((operand_accounts after).next fun yes => ?_)
        have := yes.shorter
        refine (expect_accounts (P := Within) rfl .colon yes.rest).next fun colon => ?_
        have := colon.shorter
        exact (operand_accounts colon.rest).map fun _ => rfl
      · exact accounts_pure _ rfl
termination_by 2 * ts.length + 1

/-- So is that of an operand. -/
theorem operand_accounts : ∀ ts : List Token,
    Accounts Within ts (Taking.operand ts) (operand ts) (·.rest)
  | [] => by
    rw [Taking.operand, operand]
    exact accounts_cutOff
  | t :: ts => by
    rw [Taking.operand, operand]
    split
    · next hopen =>
      refine .take (by rw [hopen]; rfl)
        ((expression_accounts ts).next fun inner => ?_)
      exact (expect_accounts (P := Within) rfl .closing inner.rest).map fun _ => rfl
    · split
      · next hliteral =>
        exact (accounts_value hliteral).map fun _ => rfl
      · split
        · next hname =>
          exact .take (by rw [hname]; rfl)
            ((arguments_accounts t.span ts).map fun _ => rfl)
        · exact accounts_unexpected .expression t
termination_by ts => 2 * ts.length

/-- So is that of the arguments of a call. -/
theorem arguments_accounts (last : Span) : ∀ ts : List Token,
    Accounts Within ts (Taking.arguments last ts) (arguments last ts) (·.rest)
  | [] => by
    rw [Taking.arguments, arguments]
    exact accounts_cutOff
  | t :: ts => by
    rw [Taking.arguments, arguments]
    split
    · next hopen =>
      refine .take (by rw [hopen]; rfl)
        ((expression_accounts ts).next fun inner => ?_)
      have := inner.shorter
      refine (expect_accounts (P := Within) rfl .closing inner.rest).next fun close => ?_
      have := close.shorter
      exact (arguments_accounts close.value.span close.rest).map fun _ => rfl
    · split
      · next hliteral =>
        refine (accounts_value hliteral).next fun v => ?_
        exact (arguments_accounts t.span ts).map fun _ => rfl
      · split
        · next hname =>
          exact .take (by rw [hname]; rfl)
            ((arguments_accounts t.span ts).map fun _ => rfl)
        · exact accounts_pure _ rfl
termination_by ts => 2 * ts.length

end

/-- So is that of the types of a signature. -/
theorem types_accounts : ∀ ts : List Token,
    Accounts Within ts (Taking.types ts) (types ts) (·.rest)
  | [] => by
    rw [Taking.types, types]
    exact accounts_cutOff
  | [t] => by
    have htype := accounts_type t []
    rw [Taking.types, types]
    cases hty : typeNamed t with
    | error e => exact (hty ▸ htype).of_error fun _ hk => hk
    | ok ty => exact (hty ▸ htype).of_ok (fun _ hk => hk) accounts_cutOff
  | t :: a :: ts => by
    have htype := accounts_type t (a :: ts)
    rw [Taking.types, types]
    cases hty : typeNamed t with
    | error e => exact (hty ▸ htype).of_error fun _ hk => hk
    | ok ty =>
      refine (hty ▸ htype).of_ok (fun _ hk => hk) ?_
      dsimp only
      split
      · next harrow =>
        exact .take (by rw [harrow]; rfl) ((types_accounts ts).map fun _ => rfl)
      · exact accounts_pure _ rfl

/-- So is that of parameters. -/
theorem parameters_accounts : ∀ ts : List Token,
    Accounts Within ts (Taking.parameters ts) (parameters ts) (·.rest)
  | [] => by
    rw [Taking.parameters, parameters]
    exact accounts_cutOff
  | t :: ts => by
    rw [Taking.parameters, parameters]
    split
    · next hassign => exact .take (by rw [hassign]; rfl) (accounts_pure _ rfl)
    · split
      · next hname =>
        exact .take (by rw [hname]; rfl) ((parameters_accounts ts).map fun _ => rfl)
      · split
        · next hliteral =>
          refine (accounts_value hliteral).next fun v => ?_
          exact (parameters_accounts ts).map fun _ => rfl
        · exact accounts_unexpected .parameter t

/-- So is that of what follows the name of a line. -/
theorem lineBody_accounts (name : Token) : ∀ ts : List Token,
    Accounts Within ts (Taking.lineBody name ts) (lineBody name ts) (·.rest)
  | [] => by
    rw [Taking.lineBody, lineBody]
    exact accounts_cutOff
  | t :: ts => by
    rw [Taking.lineBody, lineBody]
    split
    · next hcolons =>
      exact .take (by rw [hcolons]; rfl) ((types_accounts ts).map fun _ => rfl)
    · refine (parameters_accounts (t :: ts)).next fun params => ?_
      exact (expression_accounts params.rest).map fun _ => rfl

/-- **The account of a line**: the end of the file is not in it, and where the line does not fit, no
end of a line is. -/
theorem line_accounts (ts : List Token) :
    Accounts (· ≠ .eof) ts (Taking.line ts) (line ts) (·.rest) := by
  have hwithin : ∀ k : Kind, Within k → k ≠ .eof := by
    rintro k hk rfl
    cases hk
  rw [Taking.line, line]
  refine (expect_accounts (P := Within) rfl .functionName ts).bind hwithin fun name => ?_
  refine (lineBody_accounts name.value name.rest).bind hwithin fun body => ?_
  exact (expect_accounts (P := (· ≠ .eof)) (by decide) .endOfLine body.rest).map fun _ => rfl

/-! ## Accounts of programs -/

/-- The tokens that are skipped, and those from which reading goes on, are all. -/
theorem skipped_append (ts : List Token) : Taking.skipped ts ++ skipLine ts = ts := by
  induction ts with
  | nil => rfl
  | cons t ts ih =>
    rw [Taking.skipped, skipLine]
    split
    · rfl
    split
    · rfl
    · rw [List.cons_append, ih]

/-- The end of the file is not skipped. -/
theorem skipped_ne_eof (ts : List Token) : ∀ t ∈ Taking.skipped ts, t.kind ≠ .eof := by
  induction ts with
  | nil => exact List.forall_mem_nil _
  | cons t ts ih =>
    rw [Taking.skipped]
    split
    · exact List.forall_mem_nil _
    next hne =>
    split
    · exact List.forall_mem_singleton.2 hne
    · exact List.forall_mem_cons.2 ⟨hne, ih⟩

/-- Account aside, the run is the reading of `ts`. The account has tokens from the front of `ts` and
no end of the file. A run that comes to its end stands at the end of the file. -/
structure Run.Accounts (ts : List Token) (r : Run) (y : Except Abort Reading) : Prop where
  result : r.result = y
  kinds : ∀ t ∈ r.taken, t.kind ≠ .eof
  left : ∃ left, ts = r.taken ++ left ∧
    (∀ reading, y = .ok reading → ∃ eof rest, left = eof :: rest ∧ eof.kind = .eof) ∧
    ∀ a, y = .error a → GivesUp r.taken left a

/-- A run that takes more tokens first. -/
theorem Run.Accounts.after {ts taken : List Token} {r : Run} {y : Except Abort Reading}
    (h : Run.Accounts ts r y) (htaken : ∀ t ∈ taken, t.kind ≠ .eof) (f : Reading → Reading) :
    Run.Accounts (taken ++ ts) (r.after taken f) (y.map f) := by
  obtain ⟨left, hsplit, hok, hstop⟩ := h.left
  refine ⟨congrArg (Except.map f) h.result, List.forall_mem_append.2 ⟨htaken, h.kinds⟩, left, ?_,
    ?_, ?_⟩
  · rw [hsplit]
    exact (List.append_assoc _ _ _).symm
  · intro reading hy
    cases y with
    | error a => cases hy
    | ok r => exact hok r rfl
  · intro a hy
    cases y with
    | ok r => cases hy
    | error b =>
      cases hy
      exact (hstop a rfl).append taken

/-- **The account of a reading.** -/
theorem run_accounts : ∀ ts : List Token, Run.Accounts ts (Run.ofTokens ts) (lines ts)
  | [] => by
    rw [Run.ofTokens, lines]
    refine ⟨rfl, List.forall_mem_nil _, [], rfl, ?_, ?_⟩
    · rintro r ⟨⟩
    · rintro a ⟨⟩
      exact .inl ⟨rfl, rfl⟩
  | t :: ts => by
    rw [Run.ofTokens, lines]
    split
    · next heof =>
      refine ⟨rfl, List.forall_mem_nil _, t :: ts, rfl, fun _ _ => ⟨t, ts, rfl, heof⟩, ?_⟩
      rintro a ⟨⟩
    next heof =>
    split
    · have hrest := (run_accounts ts).after (List.forall_mem_singleton.2 heof) id
      rwa [Except.map_id] at hrest
    have hline := line_accounts (t :: ts)
    dsimp only
    generalize Taking.line (t :: ts) = read at hline ⊢
    obtain ⟨left, hsplit, hok, habort⟩ := hline.leaves
    rw [hline.result]
    cases hl : line (t :: ts) with
    | ok l =>
      have hshorter : l.rest.length ≤ ts.length := Nat.le_of_lt_succ l.shorter
      have hrest := (run_accounts l.rest).after hline.kinds (·.withLine l.value)
      rwa [← hok l hl, ← hsplit, hok l hl] at hrest
    | error e =>
      have hinside := hline.inside e hl
      cases e with
      | abort a =>
        refine ⟨rfl, hline.kinds, left, hsplit, ?_, ?_⟩
        · rintro r ⟨⟩
        · rintro b ⟨⟩
          exact habort a hl
      | fault f =>
        have hdrop : (t :: ts).drop read.taken.length = left :=
          (congrArg (List.drop read.taken.length) hsplit).trans List.drop_left
        have hskip : skipLine (t :: ts) = skipLine left :=
          (congrArg skipLine hsplit).trans (skipLine_append_left hinside)
        have hshorter : (skipLine left).length ≤ ts.length := by
          rw [← hskip]
          exact Nat.le_of_lt_succ (skipLine_length_lt heof)
        have hrest := (run_accounts (skipLine left)).after
          (List.forall_mem_append.2 ⟨hline.kinds, skipped_ne_eof left⟩) (·.withFault f)
        rw [List.append_assoc, skipped_append, ← hsplit] at hrest
        dsimp only
        rwa [hdrop, hskip]
termination_by ts => ts.length

end Clausal.Grammar
