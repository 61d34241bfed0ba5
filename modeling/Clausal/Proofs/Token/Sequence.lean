import Clausal.Proofs.Grammar.Places

/-!
# The tokens of a text in sequence

The tokens of a scan stand one after the other in the text (`scan_sequence`), those that end a line
or the file included. These need care: the span of a newline token reaches over to the first column
of the line below it, and at the end of a text a span may end before it starts. So a token that
stands for characters ends before the next token starts, and of any other token only its start is
known to come before the tokens that follow.
-/

namespace Clausal

namespace Position

/-- A text that is not empty leads further. -/
theorem before_advance (p : Position) {text : List Char} (h : text ≠ []) :
    p.Before (p.advance text) := by
  induction text generalizing p with
  | nil => exact absurd rfl h
  | cons c text ih =>
    rw [advance_cons]
    by_cases htext : text = []
    · rw [htext]
      exact before_step p c
    · exact (before_step p c).trans (ih _ htext)

/-- Columns are counted from one. -/
theorem col_advance {p : Position} (h : 1 ≤ p.col) (text : List Char) :
    1 ≤ (p.advance text).col := by
  induction text generalizing p with
  | nil => exact h
  | cons c text ih =>
    refine ih ?_
    unfold step
    split
    · exact Nat.le_refl 1
    · exact Nat.le_add_left 1 p.col

end Position

namespace Span

/-- The span does not start after its end. -/
def Forward (s : Span) : Prop :=
  s.startLine < s.endLine ∨ s.startLine = s.endLine ∧ s.startCol ≤ s.endCol

/-- One span starts before the other one does. -/
def StartsBefore (s t : Span) : Prop :=
  s.startLine < t.startLine ∨ s.startLine = t.startLine ∧ s.startCol < t.startCol

/-- The span starts at a position or after it. -/
def StartsFrom (p : Position) (s : Span) : Prop :=
  (p.line : Int) < s.startLine ∨ (p.line : Int) = s.startLine ∧ (p.col : Int) ≤ s.startCol

/-- Spans are ordered one before the other, over one that goes forward. -/
theorem Before.trans {s t u : Span} (h : s.Before t) (ht : t.Forward) (h' : t.Before u) :
    s.Before u := by
  unfold Before Forward at *
  omega

theorem StartsAt.startsFrom {file : String} {p : Position} {s : Span} (h : s.StartsAt file p) :
    s.StartsFrom p :=
  .inr ⟨h.2.1.symm, Int.le_of_eq h.2.2.symm⟩

/-- What starts from a position on starts from every earlier one on. -/
theorem StartsFrom.of_before {p q : Position} {s : Span} (h : s.StartsFrom q) (hpq : p.Before q) :
    s.StartsFrom p := by
  unfold StartsFrom Position.Before at *
  omega

/-- What starts at a position starts before what starts from a later one on. -/
theorem StartsAt.startsBefore {file : String} {p q : Position} {s t : Span} (hs : s.StartsAt file p)
    (hpq : p.Before q) (ht : t.StartsFrom q) : s.StartsBefore t := by
  obtain ⟨-, hline, hcol⟩ := hs
  unfold StartsFrom Position.Before StartsBefore at *
  omega

end Span

namespace Token

/-- One token comes before the other. If it stands for characters, it ends before the other one
starts. -/
structure Precedes (t u : Token) : Prop where
  solid : isSolid t = true → t.span.Before u.span
  start : isSolid u = true → t.span.StartsBefore u.span

/-- Tokens in sequence; those that stand for characters do not end before they start. -/
structure Sequence (ts : List Token) : Prop where
  forward : ∀ t ∈ ts, isSolid t = true → t.span.Forward
  precedes : ts.Pairwise Precedes

/-! ## One step of the scanner -/

section Step

variable {file : String} {cur : Cursor} {c : Char} {cs : List Char}

/-- A span of characters without a line feed does not start after its end, and ends before what
follows these characters. -/
theorem between_advance (file : String) {p : Position} (hcol : 1 ≤ p.col) {text : List Char}
    (hne : text ≠ []) (hline : '\n' ∉ text) :
    (Span.between file p (p.advance text)).Forward ∧
      ∀ s : Span, s.StartsFrom (p.advance text) →
        (Span.between file p (p.advance text)).Before s := by
  have hlength := List.length_pos_iff.2 hne
  rw [Position.advance_of_not_mem hline]
  unfold Span.between Span.Forward Span.StartsFrom Span.Before
  dsimp only
  refine ⟨?_, fun s hs => ?_⟩ <;> omega

/-- A step gives at most one token. If it stands for characters, it does not end before it starts,
and ends before what follows. -/
theorem stepAt_token (hcol : 1 ≤ cur.pos.col) {t : Token}
    (ht : t ∈ (cur.stepAt file c cs).tokens) :
    (cur.stepAt file c cs).tokens = [t] ∧ (isSolid t = true → t.span.Forward ∧
      ∀ s : Span, s.StartsFrom (cur.stepAt file c cs).next.pos → t.span.Before s) := by
  have hfits := readLexeme_fits cur.signed c cs
  have hne := readLexeme_ne_nil cur.signed c cs
  unfold Cursor.stepAt at ht ⊢
  rw [step_pos]
  cases hk : (readLexeme cur.signed c cs).1 with
  | blank | comment | tab | stray =>
    rw [hk] at ht
    cases ht
  | lineFeed =>
    rw [hk] at ht
    dsimp only [Cursor.step] at ht ⊢
    split at ht
    · next hends =>
      cases List.mem_singleton.1 ht
      rw [if_pos hends]
      refine ⟨rfl, fun hsolid => ?_⟩
      cases hsolid
    · cases ht
  | token k =>
    rw [hk] at ht hfits
    cases List.mem_singleton.1 ht
    have hline : '\n' ∉ (readLexeme cur.signed c cs).2.1 := fun hmem =>
      hfits.2.2 '\n' hmem (by decide)
    exact ⟨rfl, fun _ => between_advance file hcol hne hline⟩

end Step

/-! ## Whole texts -/

/-- The tokens that follow a cursor are in sequence, and start there or after it. -/
theorem scanFrom_sequence (file : String) (cur : Cursor) (cs : List Char) :
    1 ≤ cur.pos.col → (∀ t ∈ (scanFrom file cur cs).tokens, t.span.StartsFrom cur.pos) ∧
      Sequence (scanFrom file cur cs).tokens := by
  refine scan_induction file (motive := fun cur cs => 1 ≤ cur.pos.col →
    (∀ t ∈ (scanFrom file cur cs).tokens, t.span.StartsFrom cur.pos) ∧
      Sequence (scanFrom file cur cs).tokens) ?_ ?_ cur cs
  · intro cur _
    have hends : ∀ t ∈ endTokens file cur, ¬ isSolid t = true :=
      List.filter_eq_nil_iff.1 (endTokens_not_solid file cur)
    rw [scanFrom]
    refine ⟨fun t ht => (endTokens_startsAt t ht).startsFrom,
      fun t ht hsolid => absurd hsolid (hends t ht), ?_⟩
    refine List.pairwise_of_forall_mem_list fun t ht u hu => ?_
    exact ⟨fun hsolid => absurd hsolid (hends t ht), fun hsolid => absurd hsolid (hends u hu)⟩
  · intro cur c cs ih hcol
    have hnext : (cur.stepAt file c cs).next.pos =
        cur.pos.advance (readLexeme cur.signed c cs).2.1 := step_pos
    have hbefore : cur.pos.Before (cur.stepAt file c cs).next.pos :=
      hnext ▸ Position.before_advance cur.pos (readLexeme_ne_nil cur.signed c cs)
    obtain ⟨hfrom, hrest⟩ := ih (hnext ▸ Position.col_advance hcol _)
    have hlater : ∀ u ∈ (scanFrom file (cur.stepAt file c cs).next
        (readLexeme cur.signed c cs).2.2).tokens, u.span.StartsFrom cur.pos :=
      fun u hu => (hfrom u hu).of_before hbefore
    rw [scanFrom_cons, Scan.withStep]
    cases htokens : (cur.stepAt file c cs).tokens with
    | nil => exact ⟨hlater, hrest⟩
    | cons t ts =>
      have ht : t ∈ (cur.stepAt file c cs).tokens := htokens ▸ List.mem_cons_self
      have hat : t.span.StartsAt file cur.pos := step_startsAt.1 t ht
      obtain ⟨hone, hsolid⟩ := stepAt_token hcol ht
      obtain rfl : ts = [] := (List.cons.inj (htokens.symm.trans hone)).2
      refine ⟨List.forall_mem_cons.2 ⟨hat.startsFrom, hlater⟩,
        List.forall_mem_cons.2 ⟨fun h => (hsolid h).1, hrest.forward⟩,
        List.pairwise_cons.2 ⟨fun u hu => ?_, hrest.precedes⟩⟩
      refine ⟨fun h => (hsolid h).2 u.span (hfrom u hu), fun _ => ?_⟩
      exact hat.startsBefore hbefore (hfrom u hu)

/-- **The tokens of a text are in sequence.** -/
theorem scan_sequence (text file : String) : Sequence (scan text file).tokens :=
  (scanFrom_sequence file {} text.toList (Nat.le_refl 1)).2

end Token

end Clausal
