import Clausal.Proofs.Grammar.Formed
import Clausal.Proofs.Grammar.Sealed
import Clausal.Proofs.Token.Pieces

/-!
# Places come from the text

Every part of a program that is read from a text has a place in it, and so has every fault of the
reading: its span starts at a position of the text (`parse_within`).

For the scanner this is one step after another (`scanFrom_startsIn`). The readers of lines make new
spans from those of tokens by `upTo` only, and a property that depends on nothing but the start of a
span is kept by that (`Rooted`). The readers are not followed again to see this. Such a property has
a retraction, `keep`, that leaves alone the spans that have it and moves the start of the others; it
commutes with `upTo`, so by `line_parallel` the line read from tokens with the property is its own
image under the retraction (`line_within`).
-/

namespace Clausal

/-! ## Parts of a program -/

mutual

/-- All places in an expression have the property. -/
def Expr.Within (P : Span → Prop) : Expr → Prop
  | .lit _ s => P s
  | .call _ args s => P s ∧ WithinAll P args
  | .binary l _ r s => P s ∧ l.Within P ∧ r.Within P
  | .cond t y n s => P s ∧ t.Within P ∧ y.Within P ∧ n.Within P

/-- All places in several expressions have the property. -/
def Expr.WithinAll (P : Span → Prop) : List Expr → Prop
  | [] => True
  | e :: es => e.Within P ∧ WithinAll P es

end

/-- All places in a clause have the property. -/
structure Clause.Within (P : Span → Prop) (c : Clause) : Prop where
  span : P c.span
  params : ∀ q ∈ c.params, P q.span
  body : c.body.Within P

/-- All places in a line have the property. -/
def Line.Within (P : Span → Prop) : Line → Prop
  | .decl d => P d.span
  | .clause c => c.Within P

section Within

variable {P : Span → Prop} {move : Span → Span}

/-- The place of an expression is among the places within. -/
theorem Expr.Within.span {e : Expr} (h : e.Within P) : P e.span := by
  cases e with
  | lit v s => exact h
  | call f args s => exact h.1
  | binary l op r s => exact h.1
  | cond t y n s => exact h.1

/-- So is that of a line. -/
theorem Line.Within.span {l : Line} (h : l.Within P) : P l.span := by
  cases l with
  | decl d => exact h
  | clause c => exact Clause.Within.span h

mutual

/-- Places that do not move have the property. -/
theorem Expr.within_of_moved (hmove : ∀ s, move s = s → P s) :
    ∀ e : Expr, e.moved move = e → e.Within P
  | .lit v s, h => by
    simp only [moved, Expr.lit.injEq] at h
    exact hmove s h.2
  | .call f args s, h => by
    simp only [moved, Expr.call.injEq] at h
    exact ⟨hmove s h.2.2, withinAll_of_moved hmove args h.2.1⟩
  | .binary l op r s, h => by
    simp only [moved, Expr.binary.injEq] at h
    exact ⟨hmove s h.2.2.2, l.within_of_moved hmove h.1, r.within_of_moved hmove h.2.2.1⟩
  | .cond t y n s, h => by
    simp only [moved, Expr.cond.injEq] at h
    exact ⟨hmove s h.2.2.2, t.within_of_moved hmove h.1, y.within_of_moved hmove h.2.1,
      n.within_of_moved hmove h.2.2.1⟩

/-- Expressions that do not move are within the places that do not move. -/
theorem Expr.withinAll_of_moved (hmove : ∀ s, move s = s → P s) :
    ∀ es : List Expr, movedAll move es = es → WithinAll P es
  | [], _ => trivial
  | e :: es, h => by
    simp only [movedAll, List.cons.injEq] at h
    exact ⟨e.within_of_moved hmove h.1, withinAll_of_moved hmove es h.2⟩

end

/-- So is a line that does not move. -/
theorem Line.within_of_moved (hmove : ∀ s, move s = s → P s) {l : Line} (h : l.moved move = l) :
    l.Within P := by
  cases l with
  | decl d =>
    simp only [moved, Line.decl.injEq] at h
    exact hmove d.span (congrArg Decl.span h)
  | clause c =>
    simp only [moved, Line.clause.injEq] at h
    refine ⟨hmove c.span (congrArg Clause.span h), fun q hq => ?_,
      c.body.within_of_moved hmove (congrArg Clause.body h)⟩
    have hq' : q.moved move = q := by
      have hparams : c.params.map (Pattern.moved move) = c.params.map id := by
        rw [List.map_id]
        exact congrArg Clause.params h
      exact List.map_inj_left.1 hparams q hq
    cases q with
    | name x s =>
      simp only [Pattern.moved, Pattern.name.injEq] at hq'
      exact hmove s hq'.2
    | lit v s =>
      simp only [Pattern.moved, Pattern.lit.injEq] at hq'
      exact hmove s hq'.2

end Within

/-! ## Properties of the start of a span -/

/-- Some span has the property, and whether a span has it depends on its start alone. -/
structure Rooted (P : Span → Prop) : Prop where
  exists_span : ∃ s, P s
  upTo_iff : ∀ a b, P (a.upTo b) ↔ P a

/-- A span with the property is kept; any other one gets the start of `root`. -/
def keep (P : Span → Prop) [DecidablePred P] (root s : Span) : Span :=
  if P s then s else root.upTo s

section Rooted

variable {P : Span → Prop} [DecidablePred P] {root : Span}

/-- Keeping places goes with spans from one place up to another. -/
theorem Rooted.keep_upTo (h : Rooted P) (a b : Span) :
    keep P root (a.upTo b) = (keep P root a).upTo (keep P root b) := by
  have hend : ∀ c : Span, c.upTo (keep P root b) = c.upTo b := by
    intro c
    unfold keep
    split <;> rfl
  rw [hend]
  unfold keep
  simp only [h.upTo_iff]
  split <;> rfl

/-- A span that is kept is one of the places, if the root is. -/
theorem Rooted.of_keep (h : Rooted P) (hroot : P root) {s : Span} (hs : keep P root s = s) :
    P s := by
  unfold keep at hs
  split at hs
  · next hP => exact hP
  · rw [← hs]
    exact (h.upTo_iff root s).2 hroot

end Rooted

namespace Grammar

open Token

/-! ## Reading lines -/

section Lines

variable {P : Span → Prop} {R : Token → Token → Prop} {ts : List Token}

/-- A list of tokens in which a line ends runs in parallel with itself. -/
theorem exists_parallel (hR : ∀ t ∈ ts, R t t) (hend : ∃ t ∈ ts, endsLine t.kind = true) :
    ∃ tail, Parallel R tail tail ts ts := by
  induction ts with
  | nil =>
    obtain ⟨t, ht, -⟩ := hend
    cases ht
  | cons t ts ih =>
    obtain ⟨ht, hts⟩ := List.forall_mem_cons.1 hR
    cases hline : endsLine t.kind with
    | true => exact ⟨ts, .stop hline ht⟩
    | false =>
      obtain ⟨t', ht', hstop⟩ := hend
      rcases List.mem_cons.1 ht' with rfl | ht'
      · cases hline.symm.trans hstop
      · obtain ⟨tail, htail⟩ := ih hts ⟨t', ht', hstop⟩
        exact ⟨tail, .token hline ht htail⟩

/-- The fault points at a place with the property. -/
def Halt.Within (P : Span → Prop) (e : Halt) : Prop :=
  ∀ f, e = .fault f → P f.span

/-- The token is kept as it is, and its place has the property. -/
def Kept (P : Span → Prop) (t t' : Token) : Prop :=
  t' = t ∧ P t.span

/-- Tokens at the places carry them along. -/
theorem carries_keep [DecidablePred P] (hP : Rooted P) (root : Span) :
    Carries (keep P root) (Kept P) where
  upTo := hP.keep_upTo
  kind := by
    rintro t t' ⟨rfl, -⟩
    rfl
  text := by
    rintro t t' ⟨rfl, -⟩ -
    rfl
  span := by
    rintro t t' ⟨rfl, ht⟩ -
    exact (if_pos ht).symm

/-- A halt that does not move is at one of the places. -/
theorem SameHalt.within {move : Span → Span} (hmove : ∀ s, move s = s → P s) {e e' : Halt}
    (h : SameHalt move (Kept P) e e') (heq : e' = e) : e.Within P := by
  intro f hf
  cases h with
  | unexpected what ht =>
    cases hf
    exact ht.2
  | outOfRange text s =>
    cases hf
    simp only [Halt.fault.injEq, SyntaxFault.mk.injEq, true_and] at heq
    exact hmove s heq
  | abort a => cases hf

/-- **A line is read from tokens with the property** to a line with the property, or to a fault. -/
theorem line_within (hP : Rooted P) (hts : ∀ t ∈ ts, P t.span)
    (hend : ∃ t ∈ ts, endsLine t.kind = true) :
    Gives (line ts) (fun r => r.value.Within P) (Halt.Within P) := by
  classical
  obtain ⟨root, hroot⟩ := hP.exists_span
  have hmove : ∀ s, keep P root s = s → P s := fun s => hP.of_keep hroot
  obtain ⟨tail, hparallel⟩ : ∃ tail, Parallel (Kept P) tail tail ts ts :=
    exists_parallel (fun t ht => ⟨rfl, hts t ht⟩) hend
  have hline := line_parallel (carries_keep hP root) hparallel
  cases h : line ts with
  | ok r =>
    rw [h] at hline
    exact Line.within_of_moved hmove hline.1.symm
  | error e =>
    rw [h] at hline
    exact SameHalt.within hmove hline rfl

/-- What is left after a line is some of the tokens. -/
theorem mem_of_mem_skipLine {t : Token} (h : t ∈ skipLine ts) : t ∈ ts := by
  induction ts with
  | nil => exact h
  | cons t' ts ih =>
    rw [skipLine] at h
    split at h
    · exact h
    split at h
    · exact List.mem_cons_of_mem _ h
    · exact List.mem_cons_of_mem _ (ih h)

/-- The end of the file is not skipped. -/
theorem mem_skipLine_of_eof {t : Token} (ht : t ∈ ts) (heof : t.kind = .eof) : t ∈ skipLine ts := by
  induction ts with
  | nil => exact ht
  | cons t' ts ih =>
    rw [skipLine]
    split
    · exact ht
    · next hne =>
      have htail : t ∈ ts := by
        rcases List.mem_cons.1 ht with rfl | ht
        · exact absurd heof hne
        · exact ht
      split
      · exact htail
      · exact ih htail

/-- **The lines of tokens with the property** have it, and so have the faults. -/
theorem lines_within (hP : Rooted P) : ∀ ts : List Token, (∀ t ∈ ts, P t.span) →
    (∃ t ∈ ts, t.kind = .eof) →
    Gives (lines ts) (fun r => (∀ l ∈ r.lines, l.Within P) ∧ ∀ f ∈ r.faults, P f.span) fun _ => True
  | [], _, _ => by
    rw [lines]
    trivial
  | t :: ts, hts, hend => by
    have hstop : ∃ u ∈ t :: ts, endsLine u.kind = true := by
      obtain ⟨u, hu, heof⟩ := hend
      exact ⟨u, hu, by rw [heof]; rfl⟩
    have hline := line_within hP hts hstop
    obtain ⟨eof, hmem, heof⟩ := hend
    rw [lines]
    split
    · simp [Gives]
    next hne =>
    have htail : eof ∈ ts := by
      rcases List.mem_cons.1 hmem with rfl | hmem
      · exact absurd heof hne
      · exact hmem
    split
    · exact lines_within hP ts (fun u hu => hts u (List.mem_cons_of_mem _ hu)) ⟨eof, htail, heof⟩
    split
    · next l hl =>
      obtain ⟨used, stop, hcut, hsealed, hnewline⟩ := (line_seals (t :: ts)).of_ok hl
      have hrest : eof ∈ l.rest := by
        rw [hcut, List.mem_append, List.mem_cons] at hmem
        rcases hmem with hmem | rfl | hmem
        · have hinside := hsealed.inside eof hmem
          rw [heof] at hinside
          cases hinside
        · cases hnewline.symm.trans heof
        · exact hmem
      have hsub : ∀ u ∈ l.rest, u ∈ t :: ts := fun u hu => by
        rw [hcut]
        simp [hu]
      have hshorter := l.shorter
      rw [gives_map]
      refine (lines_within hP l.rest (fun u hu => hts u (hsub u hu)) ⟨eof, hrest, heof⟩).imp ?_
      rintro r ⟨hlines, hfaults⟩
      exact ⟨List.forall_mem_cons.2 ⟨hline.of_ok hl, hlines⟩, hfaults⟩
    · next f hf =>
      have hshorter : (skipLine (t :: ts)).length < (t :: ts).length := skipLine_length_lt hne
      rw [gives_map]
      refine (lines_within hP (skipLine (t :: ts)) (fun u hu => hts u (mem_of_mem_skipLine hu))
        ⟨eof, mem_skipLine_of_eof hmem heof, heof⟩).imp ?_
      rintro r ⟨hlines, hfaults⟩
      exact ⟨hlines, List.forall_mem_cons.2 ⟨hline.of_error hf f rfl, hfaults⟩⟩
    · trivial
termination_by ts => ts.length
decreasing_by
  · exact hshorter
  · exact hshorter
  · exact Nat.lt_succ_self _

end Lines

end Grammar

/-! ## Texts -/

/-- The span starts at a position of a file. -/
def Span.StartsAt (file : String) (p : Position) (s : Span) : Prop :=
  s.file = file ∧ s.startLine = p.line ∧ s.startCol = p.col

/-- The span starts at a position of a text, in the file of that name. -/
def Span.StartsIn (file : String) (cs : List Char) (s : Span) : Prop :=
  ∃ i ≤ cs.length, s.StartsAt file (Position.ofIndex cs i)

/-- Where a span starts decides whether it starts in the text. -/
theorem rooted_startsIn (file : String) (cs : List Char) : Rooted (Span.StartsIn file cs) where
  exists_span := ⟨.single file (Position.ofIndex cs 0), 0, Nat.zero_le _, rfl, rfl, rfl⟩
  upTo_iff := fun _ _ => Iff.rfl

namespace Token

open Position (ofIndex)

variable {file : String} {cur : Cursor}

/-- What a step gives starts where the cursor is. -/
theorem step_startsAt {c : Char} {lexeme : Lexeme} {text : List Char} :
    (∀ t ∈ (cur.step file c lexeme text).tokens, t.span.StartsAt file cur.pos) ∧
      ∀ f ∈ (cur.step file c lexeme text).faults, f.span.StartsAt file cur.pos := by
  cases lexeme with
  | lineFeed =>
    dsimp only [Cursor.step]
    split <;> simp [Span.StartsAt, Span.between]
  | blank | comment => simp [Cursor.step]
  | tab | stray => simp [Cursor.step, Span.StartsAt, Span.single]
  | token k => simp [Cursor.step, Span.StartsAt, Span.between]

/-- The tokens at the end of the text start where the cursor is. -/
theorem endTokens_startsAt : ∀ t ∈ endTokens file cur, t.span.StartsAt file cur.pos := by
  unfold endTokens
  split
  · simp [Span.StartsAt, Span.between]
  · split <;> simp [Span.StartsAt, Span.between]

/-- **The tokens and faults of a scan** start at positions of the text. -/
theorem scanFrom_startsIn (file : String) (cs : List Char) (cur : Cursor) (rest : List Char) :
    ∀ i ≤ cs.length, cs.drop i = rest → cur.pos = ofIndex cs i →
      (∀ t ∈ (scanFrom file cur rest).tokens, t.span.StartsIn file cs) ∧
        ∀ f ∈ (scanFrom file cur rest).faults, f.span.StartsIn file cs := by
  refine scan_induction file (motive := fun cur rest => ∀ i ≤ cs.length, cs.drop i = rest →
    cur.pos = ofIndex cs i → (∀ t ∈ (scanFrom file cur rest).tokens, t.span.StartsIn file cs) ∧
      ∀ f ∈ (scanFrom file cur rest).faults, f.span.StartsIn file cs) ?_ ?_ cur rest
  · intro cur i hi hdrop hpos
    rw [scanFrom]
    refine ⟨fun t ht => ⟨i, hi, ?_⟩, fun f hf => by cases hf⟩
    rw [← hpos]
    exact endTokens_startsAt t ht
  · intro cur c rest ih i hi hdrop hpos
    obtain ⟨-, -, hnext⟩ := stepAt_piece file hdrop hpos
    obtain ⟨htokens, hfaults⟩ := ih _ (pieceAt_within hdrop).stop_le (drop_pieceAt_stop hdrop) hnext
    have hstep : (∀ t ∈ (cur.stepAt file c rest).tokens, t.span.StartsAt file cur.pos) ∧
        ∀ f ∈ (cur.stepAt file c rest).faults, f.span.StartsAt file cur.pos := step_startsAt
    rw [hpos] at hstep
    rw [scanFrom_cons, Scan.withStep]
    refine ⟨List.forall_mem_append.2 ⟨fun t ht => ?_, htokens⟩,
      List.forall_mem_append.2 ⟨fun f hf => ?_, hfaults⟩⟩
    · exact ⟨i, hi, hstep.1 t ht⟩
    · exact ⟨i, hi, hstep.2 f hf⟩

end Token

/-- The labels of a diagnostic are at places with the property. -/
def Diagnostic.Within (P : Span → Prop) (d : Diagnostic) : Prop :=
  ∀ l ∈ d.labels, P l.span

/-- A diagnostic is within the places that it is about. -/
theorem Diagnostic.within_about {P : Span → Prop} {severity : Severity} {code message : String}
    {place : Option Span} (h : ∀ s ∈ place, P s) :
    (Diagnostic.about severity code message place).Within P := by
  cases place with
  | none => simp [Within, about]
  | some s => simpa [Within, about] using h

/-- **Every place in a program that is read from a text is a place of that text**, and so is every
place that a report on the reading points at. -/
theorem Program.parse_within (text file : String) :
    Gives (parse text file) (fun p => ∀ l ∈ p.lines, l.Within (Span.StartsIn file text.toList))
      fun e => ∀ ds, e = .batch ds → ∀ d ∈ ds, d.Within (Span.StartsIn file text.toList) := by
  obtain ⟨htokens, hfaults⟩ := Token.scanFrom_startsIn file text.toList {} text.toList 0
    (Nat.zero_le _) rfl rfl
  obtain ⟨body, eof, hbody, heof, -⟩ := (Token.scan_formed text file).2
  have hend : ∃ t ∈ (Token.scan text file).tokens, t.kind = .eof :=
    ⟨eof, by rw [hbody]; simp, heof⟩
  have hlines := Grammar.lines_within (rooted_startsIn file text.toList) _ htokens hend
  unfold parse ofTokens
  dsimp only
  split
  · split
    · next r hr =>
      obtain ⟨hwithin, hreports⟩ := hlines.of_ok hr
      split
      · exact hwithin
      · rintro ds ⟨⟩ d hd
        obtain ⟨f, hf, rfl⟩ := List.mem_map.1 hd
        refine Diagnostic.within_about fun s hs => ?_
        cases hs
        exact hreports f hf
    · rintro ds ⟨⟩
  · rintro ds ⟨⟩ d hd
    obtain ⟨f, hf, rfl⟩ := List.mem_map.1 hd
    refine Diagnostic.within_about fun s hs => ?_
    cases hs
    exact hfaults f hf

end Clausal
