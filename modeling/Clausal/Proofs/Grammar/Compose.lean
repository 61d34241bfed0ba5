import Clausal.Proofs.Grammar.Formed
import Clausal.Proofs.Grammar.Sealed
import Clausal.Proofs.Token.Step

/-!
# Texts compose

Two texts that are programs, with a line feed between them, are a program: the lines of the first,
then the lines of the second, further down (`parse_append`). Two things have to come together. The
reader of lines does not look behind the end of a line, so what follows the last line makes no
difference to the lines before (`lines_follows`). And the scanner remembers open parentheses and the
last token, but a program that is read without faults is closed, so at its end the scanner is as at
the start of a text (`scan_append`).
-/

namespace Clausal

/-! ## Places that do not move -/

mutual

/-- An expression that is moved nowhere stays. -/
theorem Expr.moved_id : ∀ e : Expr, e.moved (fun s => s) = e
  | .lit _ _ => rfl
  | .call _ args _ => by rw [Expr.moved, Expr.movedAll_id args]
  | .binary l _ r _ => by rw [Expr.moved, l.moved_id, r.moved_id]
  | .cond t y n _ => by rw [Expr.moved, t.moved_id, y.moved_id, n.moved_id]

/-- So do several. -/
theorem Expr.movedAll_id : ∀ es : List Expr, Expr.movedAll (fun s => s) es = es
  | [] => rfl
  | e :: es => by rw [Expr.movedAll, e.moved_id, Expr.movedAll_id es]

end

/-- So does a line. -/
theorem Line.moved_id (l : Line) : l.moved (fun s => s) = l := by
  cases l with
  | decl d => rfl
  | clause c =>
    have hparams : c.params.map (Pattern.moved fun s => s) = c.params := by
      refine (List.map_congr_left fun p _ => ?_).trans (List.map_id _)
      cases p <;> rfl
    rw [Line.moved, hparams, c.body.moved_id]

namespace Grammar

open Token

/-! ## Lines that are followed by more -/

/-- The first list ends at its end-of-file token; the second one is related to it token for token up
to there, and goes on with `more`. -/
inductive Follows (R : Token → Token → Prop) (more : List Token) : List Token → List Token → Prop
  | eof {t : Token} (rest : List Token) : t.kind = .eof → Follows R more (t :: rest) more
  | cons {t t' : Token} {ts ts' : List Token} : t.kind ≠ .eof → R t t' → Follows R more ts ts' →
      Follows R more (t :: ts) (t' :: ts')

section Follows

variable {move : Span → Span} {R : Token → Token → Prop} {more ts ts' : List Token}

/-- More tokens in front of lists that follow one another. -/
theorem Follows.map {f : Token → Token} (init : List Token)
    (hinit : ∀ t ∈ init, t.kind ≠ .eof ∧ R t (f t)) (h : Follows R more ts ts') :
    Follows R more (init ++ ts) (init.map f ++ ts') := by
  induction init with
  | nil => exact h
  | cons t init ih =>
    obtain ⟨⟨heof, hR⟩, hinit⟩ := List.forall_mem_cons.1 hinit
    exact .cons heof hR (ih hinit)

/-- Up to the end of their first line, such lists run in parallel. -/
theorem Follows.parallel {used rest : List Token} {stop : Token}
    (hused : ∀ t ∈ used, endsLine t.kind = false) (hstop : stop.kind = .newline)
    (h : Follows R more (used ++ stop :: rest) ts') :
    ∃ rest', Parallel R rest rest' (used ++ stop :: rest) ts' ∧ Follows R more rest rest' := by
  induction used generalizing ts' with
  | nil =>
    cases h with
    | eof _ heof => cases hstop.symm.trans heof
    | cons _ hR hrest => exact ⟨_, .stop (by rw [hstop]; rfl) hR, hrest⟩
  | cons t used ih =>
    obtain ⟨ht, hused⟩ := List.forall_mem_cons.1 hused
    cases h with
    | eof _ heof =>
      rw [heof] at ht
      cases ht
    | cons _ hR hmore =>
      obtain ⟨rest', hparallel, hrest⟩ := ih hused hmore
      exact ⟨rest', .token ht hR hparallel, hrest⟩

/-- A result that is changed comes from a result. -/
theorem exists_of_map_ok {ε α β : Type} {x : Except ε α} {f : α → β} {b : β}
    (h : x.map f = .ok b) : ∃ a, x = .ok a ∧ b = f a := by
  cases x with
  | error e => cases h
  | ok a =>
    cases h
    exact ⟨a, rfl, rfl⟩

/-- A reading with more lines in front. -/
def Reading.withLines (ls : List Line) (r : Reading) : Reading :=
  { r with lines := ls ++ r.lines }

/-- **What follows a program is read on its own**, after the lines of the program. -/
theorem lines_follows (hR : Carries move R) : ∀ (ts : List Token) {ts' : List Token} {r : Reading},
    Follows R more ts ts' → lines ts = .ok r → r.faults = [] →
    lines ts' = (lines more).map (Reading.withLines (r.lines.map (Line.moved move)))
  | [], _, _, h, _, _ => by cases h
  | t :: ts, ts', r, h, hr, hfaults => by
    rw [lines] at hr
    split at hr
    · next heof =>
      cases hr
      cases h with
      | eof _ _ => cases lines more <;> rfl
      | cons hne _ _ => exact absurd heof hne
    · next heof =>
      split at hr
      · next hnewline =>
        cases h with
        | eof _ hend => exact absurd hend heof
        | cons _ hrelated hrest =>
          have hkind := hR.kind hrelated
          rw [lines, dif_neg (hkind ▸ heof), if_pos (hkind.trans hnewline)]
          exact lines_follows hR ts hrest hr hfaults
      · next hnewline =>
        split at hr
        · next l hl =>
          obtain ⟨r', hr', rfl⟩ := exists_of_map_ok hr
          obtain ⟨used, stop, hused, hsealed, hstop⟩ := (line_seals (t :: ts)).of_ok hl
          rw [hused] at h
          obtain ⟨rest', hparallel, hrest⟩ := h.parallel hsealed.inside hstop
          rw [← hused] at hparallel
          obtain ⟨l', hl', hvalue, -, rfl⟩ := (line_parallel hR hparallel).of_ok hl
          obtain ⟨_, _, t', ts'', hcons, rfl⟩ := hparallel.exists_cons
          cases hcons
          have hkind := hR.kind hparallel.head
          have hshorter : l.rest.length ≤ ts.length := Nat.le_of_lt_succ l.shorter
          rw [lines, dif_neg (hkind ▸ heof), if_neg (hkind ▸ hnewline), hl']
          dsimp only
          rw [lines_follows hR l.rest hrest hr' hfaults, hvalue]
          cases lines more <;> rfl
        · obtain ⟨r', -, rfl⟩ := exists_of_map_ok hr
          cases hfaults
        · cases hr
termination_by ts => ts.length

end Follows

/-! ## A line feed after a program -/

/-- Tokens that are the same, except for what stands at the end of a line. -/
def SameLine (t t' : Token) : Prop :=
  t'.kind = t.kind ∧ (endsLine t.kind = false → t' = t)

/-- Tokens of the same line carry their places along. -/
theorem carries_sameLine : Carries (fun s => s) SameLine where
  upTo := fun _ _ => rfl
  kind := fun h => h.1
  text := fun h hline => congrArg Token.text (h.2 hline)
  span := fun h hline => congrArg Token.span (h.2 hline)

/-- Tokens further down carry their places down. -/
theorem carries_down (n : Nat) : Carries (Span.down n) fun t t' => t' = t.down n where
  upTo := Span.upTo_down n
  kind := by
    rintro t t' rfl
    rfl
  text := by
    rintro t t' rfl -
    rfl
  span := by
    rintro t t' rfl -
    rfl

/-- The cursor stands where no parenthesis is open and the last token does not ask for more. -/
structure Rested (cur : Cursor) : Prop where
  depth : cur.depth = 0
  last : ∀ k, cur.last = some k → k.continuesLine = false

/-- A line feed is scanned as the tokens that would stand at the end of the text, up to the end of
the file, and scanning goes on from a cursor that is as at the start of a text. -/
structure Resumes (file : String) (cur : Cursor) (ds : List Char) (stops : List Token)
    (next : Cursor) : Prop where
  follows : ∀ more, Follows SameLine more (endTokens file cur) (stops ++ more)
  scan : scanFrom file cur ('\n' :: ds) = (scanFrom file next ds).withTokens stops
  pos : next.pos = cur.pos.step '\n'
  depth : next.depth = 0
  spaced : next.spaced = false
  last : next.last = none ∨ next.last = some .newline

section LineFeed

variable {file : String} {cur : Cursor}

/-- A line feed where no line can end is skipped. -/
theorem scanFrom_lineFeed_skip (h : cur.endsLine = false) (ds : List Char) :
    scanFrom file cur ('\n' :: ds) = scanFrom file (cur.past ['\n']) ds := by
  rw [scanFrom]
  simp [readLexeme, h]

/-- After the end of a line, a line feed is nothing. -/
theorem resumes_of_ended (hdepth : cur.depth = 0)
    (hlast : cur.last = none ∨ cur.last = some .newline) (ds : List Char) :
    Resumes file cur ds [] (cur.past ['\n']) where
  follows := by
    intro more
    unfold endTokens
    rcases hlast with hlast | hlast <;> rw [hlast] <;> exact .eof [] rfl
  scan := by
    refine scanFrom_lineFeed_skip ?_ ds
    unfold Cursor.endsLine
    rcases hlast with hlast | hlast <;> simp [hlast]
  pos := rfl
  depth := hdepth
  spaced := rfl
  last := hlast

/-- After any other token where the scanner rests, a line feed ends the line. -/
theorem Rested.resumes (h : Rested cur) (file : String) (ds : List Char) :
    ∃ stops next, Resumes file cur ds stops next := by
  cases hlast : cur.last with
  | none => exact ⟨_, _, resumes_of_ended h.depth (.inl hlast) ds⟩
  | some k =>
    by_cases hk : k = .newline
    · exact ⟨_, _, resumes_of_ended h.depth (.inr (hlast.trans (congrArg some hk))) ds⟩
    · have hends : cur.endsLine = true := by
        simp [Cursor.endsLine, hlast, h.depth, hk, h.last k hlast]
      obtain ⟨stop, hstop, hscan⟩ : ∃ stop : Token, stop.kind = .newline ∧
          scanFrom file cur ('\n' :: ds) = _ := scanFrom_lineFeed hends ds
      refine ⟨[stop], (cur.past ['\n']).after .newline, fun more => ?_, hscan, rfl, h.depth, rfl,
        .inr rfl⟩
      unfold endTokens
      rw [hlast]
      dsimp only
      rw [if_neg hk]
      refine .cons (by simp) ⟨hstop, fun hline => ?_⟩ (.eof [] rfl)
      cases hline

end LineFeed

/-- The tokens of a closed program leave the scanner at rest. -/
theorem rested_of_closed {file : String} {made : Step} {cs : List Char} {init : List Token}
    {eof : Token} (hover : made.Over {} cs)
    (htokens : made.tokens ++ endTokens file made.next = init ++ [eof]) (hclosed : Closed init) :
    Rested made.next := by
  have hdepth : made.next.depth = depthAfter 0 (made.tokens.map word) := hover.depth
  have hended : made.tokens = init → made.next.depth = 0 := by
    rintro rfl
    rw [hdepth, hclosed.balanced]
  unfold endTokens at htokens
  cases hlast : made.next.last with
  | none =>
    rw [hlast] at htokens
    refine ⟨hended (List.append_inj' htokens rfl).1, fun k hk => ?_⟩
    rw [hlast] at hk
    cases hk
  | some k =>
    rw [hlast] at htokens
    dsimp only at htokens
    by_cases hk : k = .newline
    · rw [if_pos hk] at htokens
      refine ⟨hended (List.append_inj' htokens rfl).1, fun k' hk' => ?_⟩
      rw [hlast] at hk'
      cases hk'
      rw [hk]
      rfl
    · -- The last line is ended by the end of the text only.
      rw [if_neg hk, ← List.singleton_append, ← List.append_assoc] at htokens
      have hinit := (List.append_inj' htokens rfl).1
      have hbalanced := hclosed.balanced 0
      rw [← hinit, List.map_append, depthAfter_append] at hbalanced
      have hlines : made.next.last = (made.tokens.getLast?.map Token.kind).or none := hover.last
      rw [hlast, Option.or_none] at hlines
      obtain ⟨t, ht, hkind⟩ := Option.map_eq_some_iff.1 hlines.symm
      refine ⟨hdepth.trans hbalanced, fun k' hk' => ?_⟩
      cases hlast.symm.trans hk'
      rw [← hkind]
      exact (hclosed.ended hinit.symm).2 t ht

/-- What stands before the only end of the file is determined by it. -/
theorem eq_of_append_eof {body init rest : List Token} {last eof : Token}
    (hbody : ∀ t ∈ body, t.kind ≠ .eof) (heof : eof.kind = .eof)
    (h : body ++ [last] = init ++ eof :: rest) : body = init := by
  rcases List.eq_nil_or_concat rest with rfl | ⟨more, last', rfl⟩
  · exact (List.append_inj' h rfl).1
  · rw [List.concat_eq_append, ← List.cons_append, ← List.append_assoc] at h
    have hinit := (List.append_inj' h rfl).1
    exact absurd heof (hbody eof (by rw [hinit]; simp))

/-- **A line feed after a program**: the tokens of a text after it follow those of the program. -/
theorem scan_append {s₁ file : String} {r : Reading} (s₂ : String)
    (hr : lines (scan s₁ file).tokens = .ok r) (hfaults : r.faults = []) :
    Follows SameLine ((scan s₂ file).tokens.map (Token.down (s₁.toList.count '\n' + 1)))
        (scan s₁ file).tokens (scan (s₁ ++ "\n" ++ s₂) file).tokens ∧
      (scan (s₁ ++ "\n" ++ s₂) file).faults = (scan s₁ file).faults ++
        (scan s₂ file).faults.map (ScanFault.down (s₁.toList.count '\n' + 1)) := by
  obtain ⟨made, hover, hend, hfeed⟩ := scanFrom_append file {} s₁.toList
  rw [scanFrom] at hend
  have htokens : (scan s₁ file).tokens = made.tokens ++ endTokens file made.next :=
    congrArg Scan.tokens hend
  -- The scanner rests after the program, because the program is closed.
  obtain ⟨body, last, hbody, -, hnoeof⟩ := (scan_formed s₁ file).2
  obtain ⟨init, eof, rest, hinit, heof, hclosed⟩ := (lines_closed _).of_ok hr hfaults
  rw [← eq_of_append_eof hnoeof heof (hbody.symm.trans hinit)] at hclosed
  have hrested := rested_of_closed hover (htokens.symm.trans hbody) hclosed
  -- So it goes on after the line feed as it does at the start of a text.
  obtain ⟨stops, next, hresumes⟩ := hrested.resumes file s₂.toList
  have hbelow : Cursor.Below (s₁.toList.count '\n' + 1) {} next := by
    refine ⟨?_, hresumes.depth, hresumes.spaced, hresumes.last.imp_right fun h => ⟨rfl, h⟩⟩
    rw [hresumes.pos, hover.pos, Position.advance_lineFeed]
  have hscan : scan (s₁ ++ "\n" ++ s₂) file =
      (((scan s₂ file).down (s₁.toList.count '\n' + 1)).withTokens stops).withStep made := by
    have htext : (s₁ ++ "\n" ++ s₂).toList = s₁.toList ++ '\n' :: s₂.toList := by simp
    rw [scan, htext, hfeed, hresumes.scan, scanFrom_below file {} s₂.toList next hbelow]
    rfl
  obtain ⟨body', last', hbody', -, -⟩ := (endTokens_formed file made.next).2
  rw [hscan]
  constructor
  · rw [htokens]
    have hmade : ∀ t ∈ made.tokens, t.kind ≠ .eof ∧ SameLine t t := by
      intro t ht
      rw [hbody', ← List.append_assoc] at htokens
      have happ := (List.append_inj' (htokens.symm.trans hbody) rfl).1
      exact ⟨hnoeof t (happ ▸ List.mem_append_left _ ht), rfl, fun _ => rfl⟩
    have hfollows := Follows.map made.tokens hmade (hresumes.follows
      ((scan s₂ file).tokens.map (Token.down (s₁.toList.count '\n' + 1))))
    rwa [List.map_id'] at hfollows
  · have hfirst : (scan s₁ file).faults = made.faults :=
      (congrArg Scan.faults hend).trans (List.append_nil _)
    rw [hfirst]
    rfl

end Grammar

namespace Program

open Grammar Token

/-- A text is a program if no character and no line of it is at fault. -/
theorem parse_eq_ok_iff {text file : String} {p : Program} :
    parse text file = .ok p ↔ (scan text file).faults = [] ∧
      ∃ r, Grammar.lines (scan text file).tokens = .ok r ∧ r.faults = [] ∧ p = ⟨r.lines, file⟩ := by
  unfold parse ofTokens
  dsimp only
  rw [← List.isEmpty_iff]
  constructor
  · intro h
    split at h
    · next hscan =>
      split at h
      · next r hr =>
        split at h
        · next hfaults =>
          cases h
          exact ⟨hscan, r, hr, List.isEmpty_iff.1 hfaults, rfl⟩
        · cases h
      · cases h
    · cases h
  · rintro ⟨hscan, r, hr, hfaults, rfl⟩
    rw [if_pos hscan, hr]
    dsimp only
    rw [if_pos (List.isEmpty_iff.2 hfaults)]

/-- **Texts compose.** Two programs with a line feed between them are the lines of the first and
then the lines of the second, moved down by as many lines as there are before it. -/
theorem parse_append {s₁ s₂ file : String} {p₁ p₂ : Program} (h₁ : parse s₁ file = .ok p₁)
    (h₂ : parse s₂ file = .ok p₂) :
    parse (s₁ ++ "\n" ++ s₂) file =
      .ok ⟨p₁.lines ++ p₂.lines.map (Line.moved (Span.down (s₁.toList.count '\n' + 1))), file⟩ := by
  obtain ⟨hscan₁, r₁, hr₁, hfaults₁, rfl⟩ := parse_eq_ok_iff.1 h₁
  obtain ⟨hscan₂, r₂, hr₂, hfaults₂, rfl⟩ := parse_eq_ok_iff.1 h₂
  obtain ⟨hfollows, hfaults⟩ := scan_append s₂ hr₁ hfaults₁
  have hfirst := lines_follows carries_sameLine _ hfollows hr₁ hfaults₁
  -- The second program is read further down as it is at the start.
  obtain ⟨body, eof, hbody, heof, hnoeof⟩ := (scan_formed s₂ file).2
  have hdown : Follows (fun t t' => t' = t.down (s₁.toList.count '\n' + 1))
      [eof.down (s₁.toList.count '\n' + 1)] (scan s₂ file).tokens
      ((scan s₂ file).tokens.map (Token.down (s₁.toList.count '\n' + 1))) := by
    rw [hbody, List.map_append]
    exact Follows.map body (fun t ht => ⟨hnoeof t ht, rfl⟩) (.eof [] heof)
  have hsecond := lines_follows (carries_down _) _ hdown hr₂ hfaults₂
  have hend : Grammar.lines [eof.down (s₁.toList.count '\n' + 1)] = .ok {} := by
    rw [Grammar.lines]
    exact dif_pos heof
  rw [hend] at hsecond
  rw [hsecond] at hfirst
  refine parse_eq_ok_iff.2 ⟨?_, _, hfirst, rfl, ?_⟩
  · rw [hfaults, hscan₁, hscan₂]
    rfl
  · have hstill : r₁.lines.map (Line.moved fun s => s) = r₁.lines :=
      (List.map_congr_left fun l _ => l.moved_id).trans (List.map_id _)
    simp [Reading.withLines, hstill]

/-- A line that goes on inside its parentheses and ends in a comment, and another line further
down. -/
theorem parse_append_double :
    ∃ p₁ p₂, parse "double n = (n\n  + n) # twice" "f" = .ok p₁ ∧
      parse "\nmain = double -21\n" "f" = .ok p₂ ∧
      parse ("double n = (n\n  + n) # twice" ++ "\n" ++ "\nmain = double -21\n") "f" =
        .ok ⟨p₁.lines ++ p₂.lines.map (Line.moved (Span.down 2)), "f"⟩ := by
  have hsome : ∀ {x : Except SyntaxError Program}, x.toOption.isSome = true → ∃ p, x = .ok p := by
    intro x hx
    cases x with
    | error e => cases hx
    | ok p => exact ⟨p, rfl⟩
  obtain ⟨p₁, h₁⟩ := hsome
    (show (parse "double n = (n\n  + n) # twice" "f").toOption.isSome = true by decide +kernel)
  obtain ⟨p₂, h₂⟩ := hsome
    (show (parse "\nmain = double -21\n" "f").toOption.isSome = true by decide +kernel)
  exact ⟨p₁, p₂, h₁, h₂, parse_append h₁ h₂⟩

end Program

end Clausal
