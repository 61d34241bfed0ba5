import Mathlib.Data.List.Basic
import Clausal.Proofs.Grammar.Compose

/-!
# A fault stays on its line

The tokens of a file are cut into segments (`segments`, `Segmented`): each ends with its newline
token, and the last one may end with the file. Read on its own, a segment is nothing, one line or
one fault (`Reading.OfSegment`). Read in the middle of a file it is the same, whatever comes after
it: the reader of a line that fits stops behind the newline token, and after a fault, wherever it is
found, the rest of the line is skipped and nothing else (`lines_line`). So a file is read as its
segments are, one by one (`Segmented.lines_eq`, `ofTokens_segments`).
-/

namespace Clausal

namespace Grammar

open Token

/-! ## Segments -/

/-- The segments of a list of tokens, in order. -/
def segments : List Token → List (List Token)
  | [] => []
  | t :: ts =>
    if t.kind = .newline then [t] :: segments ts
    else
      match segments ts with
      | [] => [[t]]
      | seg :: segs => (t :: seg) :: segs

/-- Tokens cut behind each newline token. What is left behind the last one is a segment too. -/
inductive Segmented : List Token → List (List Token) → Prop
  | nil : Segmented [] []
  | last {seg : List Token} : seg ≠ [] → (∀ t ∈ seg, t.kind ≠ .newline) → Segmented seg [seg]
  | line {seg ts : List Token} {segs : List (List Token)} {stop : Token} :
      (∀ t ∈ seg, t.kind ≠ .newline) → stop.kind = .newline → Segmented ts segs →
      Segmented (seg ++ stop :: ts) ((seg ++ [stop]) :: segs)

/-- The segments of a list of tokens are as they should be. -/
theorem segments_spec (ts : List Token) : Segmented ts (segments ts) := by
  induction ts with
  | nil => exact .nil
  | cons t ts ih =>
    rw [segments]
    split
    · next hnewline => exact .line (List.forall_mem_nil _) hnewline ih
    · next hother =>
      generalize segments ts = segs at ih
      cases ih with
      | nil => exact .last (List.cons_ne_nil _ _) (List.forall_mem_singleton.2 hother)
      | last _ hseg => exact .last (List.cons_ne_nil _ _) (List.forall_mem_cons.2 ⟨hother, hseg⟩)
      | line hseg hstop hts => exact .line (List.forall_mem_cons.2 ⟨hother, hseg⟩) hstop hts

/-! ## One line -/

section Line

variable {stop eof : Token} {used rest rest' : List Token}

/-- Within a line there is no newline token and no end of the file. -/
theorem endsLine_eq_false_iff {k : Kind} : endsLine k = false ↔ k ≠ .newline ∧ k ≠ .eof := by
  simp [endsLine]

/-- Equal tokens are related, and nothing moves. -/
theorem carries_eq : Carries (fun s => s) Eq where
  upTo := fun _ _ => rfl
  kind := fun h => congrArg Token.kind h.symm
  text := fun h _ => congrArg Token.text h.symm
  span := fun h _ => congrArg Token.span h.symm

/-- If nothing moves, the same reason is the same halt. -/
theorem SameHalt.eq {e e' : Halt} (h : SameHalt (fun s => s) Eq e e') : e' = e := by
  cases h with
  | unexpected what ht => rw [ht]
  | outOfRange text s => rfl
  | abort a => rfl

/-- Tokens of one line in front of different others are parallel. -/
theorem parallel_append (hused : ∀ t ∈ used, endsLine t.kind = false)
    (hstop : endsLine stop.kind = true) :
    Parallel Eq rest rest' (used ++ stop :: rest) (used ++ stop :: rest') := by
  induction used with
  | nil => exact .stop hstop rfl
  | cons t used ih =>
    obtain ⟨ht, hused⟩ := List.forall_mem_cons.1 hused
    exact .token ht rfl (ih hused)

/-- The tokens of a line are skipped. -/
theorem skipLine_append_left (hused : ∀ t ∈ used, endsLine t.kind = false) :
    skipLine (used ++ rest) = skipLine rest := by
  induction used with
  | nil => rfl
  | cons t used ih =>
    obtain ⟨ht, hused⟩ := List.forall_mem_cons.1 hused
    obtain ⟨hnewline, heof⟩ := endsLine_eq_false_iff.1 ht
    rw [List.cons_append, skipLine, if_neg heof, if_neg hnewline, ih hused]

/-- So is the token that ends it, unless that is the end of the file. -/
theorem skipLine_append (hused : ∀ t ∈ used, endsLine t.kind = false)
    (hstop : endsLine stop.kind = true) :
    skipLine (used ++ stop :: rest) = if stop.kind = .eof then stop :: rest else rest := by
  rw [skipLine_append_left hused, skipLine]
  split
  · rfl
  · next heof =>
    have hnewline : stop.kind = .newline := by simpa [endsLine, heof] using hstop
    rw [if_pos hnewline]

/-- A newline token at the front is an empty line. -/
theorem lines_newline (hstop : stop.kind = .newline) : lines (stop :: rest) = lines rest := by
  rw [lines, dif_neg (by rw [hstop]; decide), if_pos hstop]

/-- At the end of the file there are no more lines. -/
theorem lines_eof (heof : eof.kind = .eof) : lines (eof :: rest) = .ok {} := by
  rw [lines, dif_pos heof]

/-- A line that fits is followed by the lines after it. -/
theorem lines_of_ok (hne : used ≠ []) (hused : ∀ t ∈ used, endsLine t.kind = false)
    {l : Parsed Line (used ++ rest)} (hl : line (used ++ rest) = .ok l) :
    lines (used ++ rest) = (lines l.rest).map (·.withLine l.value) := by
  obtain ⟨t, used, rfl⟩ := List.exists_cons_of_ne_nil hne
  obtain ⟨hnewline, heof⟩ := endsLine_eq_false_iff.1 (hused t List.mem_cons_self)
  have hcons : line (t :: (used ++ rest)) = .ok l := hl
  show lines (t :: (used ++ rest)) = _
  rw [lines, dif_neg heof, if_neg hnewline, hcons]

/-- A line that does not fit is followed by the lines after the rest of it. -/
theorem lines_of_fault (hne : used ≠ []) (hused : ∀ t ∈ used, endsLine t.kind = false)
    {f : SyntaxFault} (hf : line (used ++ rest) = .error (.fault f)) :
    lines (used ++ rest) = (lines (skipLine (used ++ rest))).map (·.withFault f) := by
  obtain ⟨t, used, rfl⟩ := List.exists_cons_of_ne_nil hne
  obtain ⟨hnewline, heof⟩ := endsLine_eq_false_iff.1 (hused t List.mem_cons_self)
  rw [List.cons_append] at hf ⊢
  rw [lines, dif_neg heof, if_neg hnewline, hf]

/-- A line that cannot be read ends the reading. -/
theorem lines_of_abort (hne : used ≠ []) (hused : ∀ t ∈ used, endsLine t.kind = false)
    {a : Abort} (ha : line (used ++ rest) = .error (.abort a)) :
    lines (used ++ rest) = .error a := by
  obtain ⟨t, used, rfl⟩ := List.exists_cons_of_ne_nil hne
  obtain ⟨hnewline, heof⟩ := endsLine_eq_false_iff.1 (hused t List.mem_cons_self)
  rw [List.cons_append] at ha ⊢
  rw [lines, dif_neg heof, if_neg hnewline, ha]

/-- Two readings, one after the other. -/
def Reading.append (r r' : Reading) : Reading :=
  ⟨r.lines ++ r'.lines, r.faults ++ r'.faults⟩

/-- What a segment is read as: an empty line as nothing, any other as one line or as one fault. -/
inductive Reading.OfSegment (seg : List Token) : Reading → Prop
  | blank : (∀ t ∈ seg, t.kind = .newline) → OfSegment seg {}
  | line (l : Line) : (∃ t ∈ seg, t.kind ≠ .newline) → OfSegment seg ⟨[l], []⟩
  | fault (f : SyntaxFault) : (∃ t ∈ seg, t.kind ≠ .newline) → OfSegment seg ⟨[], [f]⟩

/-- A line that is not empty has a token that is no newline. -/
theorem exists_content (hne : used ≠ []) (hused : ∀ t ∈ used, endsLine t.kind = false) :
    ∃ t ∈ used, t.kind ≠ .newline := by
  obtain ⟨t, ht⟩ := List.exists_mem_of_ne_nil used hne
  exact ⟨t, ht, (endsLine_eq_false_iff.1 (hused t ht)).1⟩

/-- **One line**: a segment in front of other tokens is read as it is on its own, and reading goes
on with those tokens. -/
theorem lines_line (hused : ∀ t ∈ used, endsLine t.kind = false) (hstop : stop.kind = .newline)
    (heof : eof.kind = .eof) (hready : Ready (used ++ [stop, eof])) :
    ∃ r, Reading.OfSegment (used ++ [stop]) r ∧ lines (used ++ [stop, eof]) = .ok r ∧
      ∀ rest, lines (used ++ stop :: rest) = (lines rest).map r.append := by
  by_cases hne : used = []
  · subst hne
    refine ⟨{}, .blank (List.forall_mem_singleton.2 hstop), ?_, fun rest => ?_⟩
    · rw [List.nil_append, lines_newline hstop, lines_eof heof]
    · rw [List.nil_append, lines_newline hstop]
      cases lines rest <;> rfl
  have hcontent : ∃ t ∈ used ++ [stop], t.kind ≠ .newline := by
    obtain ⟨t, ht, hkind⟩ := exists_content hne hused
    exact ⟨t, List.mem_append_left _ ht, hkind⟩
  -- A line and a fault do not depend on what follows: it might as well be the end of the file.
  have hends : endsLine stop.kind = true := by rw [hstop]; rfl
  have hparallel (rest : List Token) :=
    line_parallel carries_eq (parallel_append hused hends : Parallel Eq [eof] rest _ _)
  cases hline : line (used ++ [stop, eof]) with
  | ok l =>
    have hsame (rest : List Token) := (hparallel rest).of_ok hline
    refine ⟨⟨[l.value], []⟩, .line _ hcontent, ?_, fun rest => ?_⟩
    · obtain ⟨-, -, -, hrest, -⟩ := hsame []
      rw [lines_of_ok hne hused hline, hrest, lines_eof heof]
      rfl
    · obtain ⟨l', hline', hvalue, -, hrest⟩ := hsame rest
      rw [lines_of_ok hne hused hline', hrest, hvalue, Line.moved_id]
      rfl
  | error e =>
    obtain ⟨f, rfl⟩ := (line_sound hready).of_error hline
    have hskip (rest : List Token) : skipLine (used ++ stop :: rest) = rest := by
      rw [skipLine_append hused hends, if_neg (by rw [hstop]; decide)]
    refine ⟨⟨[], [f]⟩, .fault _ hcontent, ?_, fun rest => ?_⟩
    · rw [lines_of_fault hne hused hline, hskip, lines_eof heof]
      rfl
    · obtain ⟨e', hline', hsame⟩ := (hparallel rest).of_error hline
      rw [hsame.eq] at hline'
      rw [lines_of_fault hne hused hline', hskip]
      rfl

/-- A line that fits has been read up to a newline token, so that it does not end with the file. -/
theorem line_eof_ne_ok (hused : ∀ t ∈ used, endsLine t.kind = false) (heof : eof.kind = .eof)
    (l : Parsed Line (used ++ eof :: rest)) : line (used ++ eof :: rest) ≠ .ok l := by
  intro hline
  have hends : endsLine eof.kind = true := by rw [heof]; rfl
  have hparallel : Parallel Eq rest [] (used ++ eof :: rest) (used ++ [eof]) :=
    parallel_append hused hends
  obtain ⟨_, -, -, hrest, -⟩ := (line_parallel carries_eq hparallel).of_ok hline
  obtain ⟨before, stop, htokens, -, hstop⟩ := (line_seals _).of_ok hline
  rw [hrest, List.append_cons, List.append_cons before] at htokens
  obtain ⟨-, rfl⟩ := List.append_singleton_inj.1 (List.append_cancel_right htokens)
  cases heof.symm.trans hstop

/-- A last line without its newline token is a fault. -/
theorem lines_last (hne : used ≠ []) (hused : ∀ t ∈ used, endsLine t.kind = false)
    (heof : eof.kind = .eof) (hready : Ready (used ++ [eof])) :
    ∃ r, Reading.OfSegment used r ∧ lines (used ++ [eof]) = .ok r := by
  cases hline : line (used ++ [eof]) with
  | ok l => exact absurd hline (line_eof_ne_ok hused heof l)
  | error e =>
    obtain ⟨f, rfl⟩ := (line_sound hready).of_error hline
    refine ⟨⟨[], [f]⟩, .fault f (exists_content hne hused), ?_⟩
    rw [lines_of_fault hne hused hline, skipLine_append hused (by rw [heof]; rfl), if_pos heof,
      lines_eof heof]
    rfl

end Line

/-! ## All lines -/

section Lines

variable {eof : Token} {seg body : List Token} {segs : List (List Token)}

/-- Readable tokens can stand in front of ready ones. -/
theorem ready_append (hbody : ∀ t ∈ body, t.kind ≠ .eof ∧ t.Readable) {ts : List Token}
    (hts : Ready ts) : Ready (body ++ ts) := by
  induction body with
  | nil => exact hts
  | cons t body ih =>
    obtain ⟨⟨hne, hread⟩, hbody⟩ := List.forall_mem_cons.1 hbody
    exact .cons hne hread (ih hbody)

/-- The reading of a segment on its own. -/
def readAlone (eof : Token) (seg : List Token) : Reading :=
  (lines (seg ++ [eof])).toOption.getD {}

/-- A segment on its own is read as what its tokens are read as. -/
theorem readAlone_eq {r : Reading} (h : lines (seg ++ [eof]) = .ok r) : readAlone eof seg = r := by
  rw [readAlone, h]
  rfl

/-- **Segment by segment**: a file is read as its segments are, one by one. -/
theorem Segmented.lines_eq (h : Segmented body segs) (heof : eof.kind = .eof)
    (hbody : ∀ t ∈ body, t.kind ≠ .eof ∧ t.Readable) :
    (∀ seg ∈ segs, Reading.OfSegment seg (readAlone eof seg) ∧
      lines (seg ++ [eof]) = .ok (readAlone eof seg)) ∧
    lines (body ++ [eof]) =
      .ok ⟨segs.flatMap fun seg => (readAlone eof seg).lines,
        segs.flatMap fun seg => (readAlone eof seg).faults⟩ := by
  have hinside {seg : List Token} (hseg : ∀ t ∈ seg, t.kind ≠ .newline)
      (hbody : ∀ t ∈ seg, t.kind ≠ .eof ∧ t.Readable) : ∀ t ∈ seg, endsLine t.kind = false :=
    fun t ht => endsLine_eq_false_iff.2 ⟨hseg t ht, (hbody t ht).1⟩
  induction h with
  | nil => exact ⟨List.forall_mem_nil _, lines_eof heof⟩
  | @last seg hne hseg =>
    obtain ⟨r, hr, hlines⟩ :=
      lines_last hne (hinside hseg hbody) heof (ready_append hbody (.eof heof))
    have halone := readAlone_eq hlines
    refine ⟨List.forall_mem_singleton.2 ⟨halone ▸ hr, halone ▸ hlines⟩, ?_⟩
    simp [hlines, halone]
  | @line seg ts segs stop hseg hstop hsegments ih =>
    obtain ⟨hbefore, hafter⟩ := List.forall_mem_append.1 hbody
    obtain ⟨hread, hts⟩ := List.forall_mem_cons.1 hafter
    obtain ⟨hsegs, hrest⟩ := ih hts
    have hready : Ready (seg ++ [stop, eof]) :=
      ready_append hbefore (.cons hread.1 hread.2 (.eof heof))
    obtain ⟨r, hr, hlines, hmore⟩ := lines_line (hinside hseg hbefore) hstop heof hready
    have hlines' : lines ((seg ++ [stop]) ++ [eof]) = .ok r := by
      rwa [List.append_assoc]
    have halone := readAlone_eq hlines'
    refine ⟨List.forall_mem_cons.2 ⟨⟨halone ▸ hr, halone ▸ hlines'⟩, hsegs⟩, ?_⟩
    rw [List.append_assoc, List.cons_append, hmore, hrest, List.flatMap_cons, List.flatMap_cons,
      halone]
    rfl

end Lines

/-! ## Programs -/

/-- The program that a reading makes up. -/
def Reading.program (file : String) (r : Reading) : Except SyntaxError Program :=
  if r.faults.isEmpty then .ok ⟨r.lines, file⟩
  else .error (.batch (r.faults.map (·.diagnostic)))

/-- A reading is a program if it has no faults. -/
theorem Reading.exists_program_iff {file : String} {r : Reading} :
    (∃ p, r.program file = .ok p) ↔ r.faults = [] := by
  rw [Reading.program]
  split
  · next h => simpa using h
  · next h => simpa using h

end Grammar

namespace Program

open Grammar Token

/-- The lines that were read, where no fault was met. -/
def linesRead : Except SyntaxError Program → List Line
  | .ok p => p.lines
  | .error _ => []

/-- The diagnostics of the faults that were met. -/
def reported : Except SyntaxError Program → List Diagnostic
  | .error (.batch diagnostics) => diagnostics
  | _ => []

/-- What comes of several outcomes together: all the diagnostics, or, where there are none, all the
lines. -/
def combined (file : String) (outcomes : List (Except SyntaxError Program)) :
    Except SyntaxError Program :=
  if (outcomes.flatMap reported).isEmpty then .ok ⟨outcomes.flatMap linesRead, file⟩
  else .error (.batch (outcomes.flatMap reported))

/-- The program of tokens is that of their reading. -/
theorem ofTokens_of_lines (file : String) {ts : List Token} {r : Reading}
    (h : Grammar.lines ts = .ok r) : ofTokens file ts = r.program file := by
  rw [ofTokens, h]
  rfl

section OfSegment

variable {file : String} {seg : List Token} {r : Reading}

/-- The lines of a segment are those of its reading. -/
theorem linesRead_program (h : r.OfSegment seg) : linesRead (r.program file) = r.lines := by
  cases h <;> rfl

/-- The diagnostics of a segment are those of its faults. -/
theorem reported_program (h : r.OfSegment seg) :
    reported (r.program file) = r.faults.map (·.diagnostic) := by
  cases h <;> rfl

/-- A segment is an empty program, a program of one line, or one diagnostic. -/
theorem program_cases (h : r.OfSegment seg) :
    if ∀ t ∈ seg, t.kind = .newline then r.program file = .ok ⟨[], file⟩
    else (∃ l, r.program file = .ok ⟨[l], file⟩) ∨
      ∃ d, d.code = "E200" ∧ r.program file = .error (.batch [d]) := by
  cases h with
  | blank hblank =>
    rw [if_pos hblank]
    rfl
  | line l hcontent =>
    rw [if_neg (by simpa using hcontent)]
    exact .inl ⟨l, rfl⟩
  | fault f hcontent =>
    rw [if_neg (by simpa using hcontent)]
    exact .inr ⟨f.diagnostic, rfl, rfl⟩

/-- Readings of segments are combined as their programs are. -/
theorem combined_map_program {segs : List (List Token)} {read : List Token → Reading}
    (h : ∀ seg ∈ segs, (read seg).OfSegment seg) :
    combined file (segs.map fun seg => (read seg).program file) =
      Reading.program file
        ⟨segs.flatMap fun seg => (read seg).lines, segs.flatMap fun seg => (read seg).faults⟩ := by
  have hlines : (segs.map fun seg => (read seg).program file).flatMap linesRead =
      segs.flatMap fun seg => (read seg).lines := by
    rw [List.flatMap_map]
    exact List.flatMap_congr fun seg hseg => linesRead_program (h seg hseg)
  have hreports : (segs.map fun seg => (read seg).program file).flatMap reported =
      (segs.flatMap fun seg => (read seg).faults).map (·.diagnostic) := by
    rw [List.flatMap_map, List.map_flatMap]
    exact List.flatMap_congr fun seg hseg => reported_program (h seg hseg)
  rw [combined, hlines, hreports, Reading.program, List.isEmpty_map]

end OfSegment

/-- **A fault stays on its line.** Take tokens up to their only end of the file, and cut them into
segments. Every segment on its own, followed by the end of the file, makes up a program of one line
or is reported with one diagnostic, unless its line is empty. What all the tokens make up is what
the segments make up, in order: the diagnostics of those that do not fit, or, where all of them fit,
their lines. -/
theorem ofTokens_segments (file : String) (body : List Token) (eof : Token)
    (heof : eof.kind = .eof) (hbody : ∀ t ∈ body, t.kind ≠ .eof ∧ t.Readable) :
    Segmented body (segments body) ∧
    (∀ seg ∈ segments body,
      if ∀ t ∈ seg, t.kind = .newline then ofTokens file (seg ++ [eof]) = .ok ⟨[], file⟩
      else (∃ l, ofTokens file (seg ++ [eof]) = .ok ⟨[l], file⟩) ∨
        ∃ d, d.code = "E200" ∧ ofTokens file (seg ++ [eof]) = .error (.batch [d])) ∧
    ofTokens file (body ++ [eof]) =
      combined file ((segments body).map fun seg => ofTokens file (seg ++ [eof])) ∧
    ((∃ p, ofTokens file (body ++ [eof]) = .ok p) ↔
      ∀ seg ∈ segments body, ∃ p, ofTokens file (seg ++ [eof]) = .ok p) := by
  have hsegments := segments_spec body
  obtain ⟨hsegs, hbody⟩ := hsegments.lines_eq heof hbody
  have halone : ∀ seg ∈ segments body,
      ofTokens file (seg ++ [eof]) = (readAlone eof seg).program file :=
    fun seg hseg => ofTokens_of_lines file (hsegs seg hseg).2
  have hall := ofTokens_of_lines file hbody
  refine ⟨hsegments, fun seg hseg => ?_, ?_, ?_⟩
  · rw [halone seg hseg]
    exact program_cases (hsegs seg hseg).1
  · rw [hall, List.map_congr_left halone]
    exact (combined_map_program fun seg hseg => (hsegs seg hseg).1).symm
  · rw [hall, Reading.exists_program_iff, List.flatMap_eq_nil_iff]
    refine forall₂_congr fun seg hseg => ?_
    rw [halone seg hseg, Reading.exists_program_iff]

/-- The line `x = 1`, an empty line, and four lines that do not fit: `f = 2147483648`, `g = ((1`,
`= x`, and `h = true` without its end. -/
def ragged : List Token :=
  let word (kind : Kind) (text : String) : Token := ⟨kind, text, .nowhere⟩
  let name (text : String) := word .identifier text
  let assign := word .assign "="
  let stop := word .newline "\n"
  [name "x", assign, word .integer "1", stop,
    name "f", assign, word .integer "2147483648", stop,
    stop,
    name "g", assign, word .lparen "(", word .lparen "(", word .integer "1", stop,
    assign, name "x", stop,
    name "h", assign, word .boolean "true"]

/-- The four bad lines are reported in order. -/
theorem ofTokens_segments_ragged :
    (Token.mk .eof "" .nowhere).kind = .eof ∧
    (∀ t ∈ ragged, t.kind ≠ .eof ∧ t.Readable) ∧
    ∃ ds, ofTokens "ragged" (ragged ++ [⟨.eof, "", .nowhere⟩]) = .error (.batch ds) ∧
      ds.map (·.message) =
        ["integer literal 2147483648 does not fit in 32 bits",
          "expected ')', got end of line",
          "expected a function name, got '='",
          "expected end of line, got end of file"] := by
  have hkind : ∀ t ∈ ragged, t.kind ≠ .eof := by decide
  have hregular : ∀ t ∈ ragged, t.Regular := by decide
  have hshort : ∀ t ∈ ragged, t.Short := by decide
  have hragged : ∀ t ∈ ragged, t.kind ≠ .eof ∧ t.Readable :=
    fun t ht => ⟨hkind t ht, hregular t ht, hshort t ht⟩
  obtain ⟨-, -, hall, -⟩ := ofTokens_segments "ragged" ragged ⟨.eof, "", .nowhere⟩ rfl hragged
  rw [combined, if_neg (by decide +kernel)] at hall
  exact ⟨rfl, hragged, _, hall, by decide +kernel⟩

end Program

end Clausal
