import Clausal.Diagnostic.Render
import Clausal.Proofs.Check.Places
import Clausal.Proofs.Emit.Account
import Clausal.Proofs.Text.Lines

/-!
# Which line an excerpt shows

Every place that a compilation points at is a place of its source text (`source_within`): those of
the reading and of the check, those of the warnings, and that of a function which is not covered.
Its line is counted by line feeds. The excerpt that a rendered diagnostic shows of it is looked up
in lines that end at other characters too. `source_excerpts` says when the two are the same line:
exactly if it is not broken by such a character, and no line before it is broken so that another
piece has come to stand in its place.
-/

namespace Clausal

/-! ## Places in emitted functions -/

/-- The place of a function is that of a line. -/
theorem Program.span_of_mem_functions {p : Program} {P : Span → Prop} (hp : ∀ l ∈ p.lines, P l.span)
    {f : String × Span × List Clause} (hf : f ∈ p.functions) : P f.2.1 := by
  have key : ∀ (rest : List Line) (m : Assoc (Span × List Clause)), (∀ l ∈ rest, P l.span) →
      (∀ g x, m.value? g = some x → P x.1) → ∀ g x, Assoc.value? (rest.foldl (fun m l =>
        m.put l.name (((m.value? l.name).getD (l.span, [])).1,
          ((m.value? l.name).getD (l.span, [])).2 ++ l.clause?.toList)) m) g = some x → P x.1 := by
    intro rest
    induction rest with
    | nil => exact fun m _ hm => hm
    | cons l rest ih =>
      intro m hrest hm
      obtain ⟨hl, hrest⟩ := List.forall_mem_cons.1 hrest
      refine ih _ hrest fun g x hx => ?_
      rw [Assoc.value?_put] at hx
      split at hx
      · cases hx
        cases hold : m.value? l.name with
        | none => exact hl
        | some y => exact hm l.name y hold
      · exact hm g x hx
  have hvalue := (Assoc.value?_eq_some_iff p.grouped_functions.nodup).2 hf
  exact key p.lines [] hp (fun g x hx => by cases hx) f.1 f.2 hvalue

section Emission

variable {P : Span → Prop} {table : SignatureTable}

/-- The code of a function with a signature is refused at its last clause, or at the place that is
handed in. -/
theorem Dispatch.function_points {name : String} {clauses : List Clause} {sig : Signature}
    {span : Span} {j : Journal} (hsig : table.lookup name = some sig)
    (htyped : ∀ c ∈ clauses, c.HasSignature table.lookup sig) (hclauses : ∀ c ∈ clauses, P c.span)
    (hspan : P span) :
    Ends (function table name clauses span) j (fun _ _ => True)
      fun e _ => ∀ place ∈ e.span?, P place := by
  refine ends_iff.2 ⟨fun _ _ _ => trivial, fun e t hrun => ?_⟩
  have hnone := ((function_spec hsig htyped).of_error hrun).1
  have hfunction : (function table name clauses span).run.run j =
      (.error (.fault ⟨.notCovered name, (clauses.getLast?.map (·.span)).or span⟩), j) := by
    unfold function
    rw [hsig]
    dsimp only
    rw [run_bind, run_body_uncovered hnone]
  rw [hfunction] at hrun
  cases hrun
  intro place hplace
  cases hlast : clauses.getLast? with
  | none =>
    rw [hlast] at hplace
    cases hplace
    exact hspan
  | some c =>
    rw [hlast] at hplace
    cases hplace
    exact hclauses c (List.mem_of_getLast? hlast)

namespace Compile

/-- Code generation stops at one of the places of the clauses and lines. -/
theorem emitFunctions_points {fs : List (String × Span × List Clause)} {j : Journal}
    (htyped : ∀ f ∈ fs, ∀ sig, table.lookup f.1 = some sig →
      ∀ c ∈ f.2.2, c.HasSignature table.lookup sig)
    (hfs : ∀ f ∈ fs, P f.2.1 ∧ ∀ c ∈ f.2.2, P c.span) :
    Ends (emitFunctions table fs) j (fun _ _ => True) fun e _ => ∀ place ∈ e.span?, P place := by
  induction fs generalizing j with
  | nil => trivial
  | cons f fs ih =>
    obtain ⟨name, span, clauses⟩ := f
    obtain ⟨hhead, htyped⟩ := List.forall_mem_cons.1 htyped
    obtain ⟨⟨hspan, hclauses⟩, hfs⟩ := List.forall_mem_cons.1 hfs
    rw [emitFunctions]
    split
    · next hhas =>
      obtain ⟨sig, hsig⟩ := Option.isSome_iff_exists.1 hhas
      refine (Dispatch.function_points hsig (hhead sig hsig) hclauses hspan).bind fun _ t _ => ?_
      exact (ih htyped hfs).bind fun _ _ _ => trivial
    · exact Ends.bind (m := Dispatch.record _) (Q := fun _ _ => True) trivial fun _ t _ =>
        ih htyped hfs

/-- The diagnostics of a compilation, whether it gives a result or not. -/
def diagnosed : Except Failure Output → List Diagnostic
  | .ok out => out.diagnostics
  | .error e => e.diagnostics

/-- The diagnostic of a stop is at its place. -/
theorem within_of_stopped {e : Stop} (h : ∀ place ∈ e.span?, P place) :
    ∀ d ∈ (Failure.stopped e).diagnostics, d.Within P := by
  intro d hd
  cases e with
  | fault f =>
    cases List.mem_singleton.1 hd
    exact Diagnostic.within_about h
  | noFirstClause name => cases hd
  | noArgument index => cases hd
  | noSignature name => cases hd

/-- **A compilation points into its program**: if all places in a program have the property, so have
the places of its diagnostics. -/
theorem program_within {p : Program} (hp : ∀ l ∈ p.lines, l.Within P) :
    ∀ d ∈ diagnosed (program p).1, d.Within P := by
  have hclauses : ∀ c ∈ p.clauses, P c.span := fun c hc =>
    Clause.Within.span (hp _ (Program.mem_clauses.1 hc))
  have hwarning : ∀ {code message} {c : Clause}, c ∈ p.clauses →
      (Diagnostic.warning code message c.span).Within P := fun hc =>
    Diagnostic.within_about (Check.forall_mem_some (hclauses _ hc))
  unfold program
  rcases hcheck : (Check.validate p).run.run initial with ⟨stop | table, s⟩
  · exact within_of_stopped ((Check.validate_points hp).of_error hcheck)
  dsimp only
  rcases hemit : (emit p table).run.run [] with ⟨stop | code, j⟩
  · have haccepted := (Check.validate_accepted p).of_ok hcheck
    have hfs : ∀ f ∈ p.functions, P f.2.1 ∧ ∀ c ∈ f.2.2, P c.span := by
      refine fun f hf => ⟨Program.span_of_mem_functions (fun l hl => (hp l hl).span) hf, ?_⟩
      intro c hc
      rw [Program.clauses_of_mem_functions hf] at hc
      exact hclauses c (Program.mem_clausesOf.1 hc).1
    have hemitted : Ends (emit p table) [] (fun _ _ => True)
        fun e _ => ∀ place ∈ e.span?, P place :=
      (emitFunctions_points (fun f => haccepted.hasSignature) hfs).bind fun _ _ _ => trivial
    exact within_of_stopped (hemitted.of_error hemit)
  · obtain ⟨user, -, -, -, hwarnings⟩ := (emit_assembles []).of_ok hemit
    show ∀ d ∈ (s.journal ++ j).warnings, d.Within P
    rw [Check.warnings_append, Check.validate_warnings hcheck, hwarnings]
    simp only [Journal.warnings, List.filterMap_nil, List.nil_append, List.forall_mem_append,
      List.forall_mem_map]
    refine ⟨fun c hc => ?_, fun q hq => ?_⟩
    · exact hwarning (mem_of_mem_firstsBy (List.mem_filter.1 hc).1)
    · obtain ⟨g, -, hq⟩ := List.mem_flatMap.1 hq
      have hmem : q.1 ∈ (p.unreachable g.name).map Prod.fst := List.mem_map.2 ⟨q, hq, rfl⟩
      rw [Program.map_unreachable] at hmem
      exact hwarning (Program.mem_clausesOf.1 (List.mem_of_mem_drop hmem)).1

/-- **A compilation points into its source text.** -/
theorem source_within (text file : String) :
    ∀ d ∈ diagnosed (source text file).1, d.Within (Span.StartsIn file text.toList) := by
  have hparse := Program.parse_within text file
  unfold source
  cases hp : Program.parse text file with
  | error e =>
    intro d hd
    cases e with
    | batch ds => exact hparse.of_error hp ds rfl d hd
    | aborted a => cases hd
  | ok p =>
    have hprogram := program_within (hparse.of_ok hp)
    dsimp only
    rcases hrun : program p with ⟨e | out, j⟩
    · rw [hrun] at hprogram
      exact hprogram
    · rw [hrun] at hprogram
      exact hprogram

end Compile

end Emission

/-! ## Excerpts -/

/-- A span that starts in a text starts on one of its lines. -/
theorem Span.StartsIn.exists_line {file : String} {cs : List Char} {s : Span}
    (h : s.StartsIn file cs) :
    s.file = file ∧ ∃ (n : Nat) (line : List Char), s.startLine = n + 1 ∧
      (Text.splitOn '\n' cs)[n]? = some line := by
  obtain ⟨i, hi, hfile, hline, -⟩ := h
  obtain ⟨head, first, rest, -, hpos, -, hdrop⟩ := Position.splitOn_drop_line hi
  refine ⟨hfile, (Position.ofIndex cs i).line - 1, head ++ first, by omega, ?_⟩
  rw [← List.head?_drop, hdrop, List.head?_cons]

namespace Render

variable {file : String} {cs shown : List Char} {severity : Severity} {span : Span} {n : Nat}

/-- Different lines give different rows. -/
theorem excerptRow_inj {number : Int} {line line' : List Char}
    (h : excerptRow false number line = excerptRow false number line') : line = line' := by
  simpa [excerptRow, framed, paint] using h

/-- The first row of an excerpt shows a line exactly if it is the line with that number. -/
theorem head?_excerptRows_iff (hfile : span.file = file) (hline : span.startLine = n + 1) :
    (excerptRows false (.ofSources [(file, cs)]) severity span).head? =
        some (excerptRow false span.startLine shown) ↔
      (Text.lines cs)[n]? = some shown := by
  have hlookup : Excerpts.line? (.ofSources [(file, cs)]) span.file span.startLine =
      (Text.lines cs)[n]? := by
    have hn : (span.startLine - 1).toNat = n := by omega
    rw [Excerpts.line?, if_pos (by omega), hn, hfile]
    simp [Excerpts.ofSources, Assoc.value?_cons]
  rw [excerptRows, hlookup]
  cases (Text.lines cs)[n]? with
  | none => simp
  | some line =>
    simp only [List.head?_cons, Option.some.injEq]
    exact ⟨excerptRow_inj, fun h => by rw [h]⟩

end Render

namespace Compile

open Render Text

/-- **When a diagnostic shows the line it is about.** Every label of every diagnostic of a
compilation is in the file that was compiled, and it starts on a line of the text, counted by line
feeds. If that line is not empty, then the excerpt of the label shows it, a carriage return at its
end apart, exactly if the line holds no other character that ends a line of an excerpt, and no piece
of an earlier line has come to stand in its place, or one with the same characters. So it does
whenever no line up to that one holds such a character. -/
theorem source_excerpts (text file : String) (d : Diagnostic) (l : Label)
    (hd : d ∈ diagnosed (source text file).1) (hl : l ∈ d.labels) :
    l.span.file = file ∧ ∃ (n : Nat) (line : List Char), l.span.startLine = n + 1 ∧
      (splitOn '\n' text.toList)[n]? = some line ∧
      (line ≠ [] →
        ((excerptRows false (.ofSources [(file, text.toList)]) d.severity l.span).head? =
            some (excerptRow false l.span.startLine (withoutReturn line)) ↔
          Unbroken line ∧ ∀ shown ∈ (((splitOn '\n' text.toList).take n).flatMap pieces)[n]?,
            shown = withoutReturn line) ∧
        ((∀ line' ∈ (splitOn '\n' text.toList).take (n + 1), Unbroken line') →
          (excerptRows false (.ofSources [(file, text.toList)]) d.severity l.span).head? =
            some (excerptRow false l.span.startLine (withoutReturn line)))) := by
  obtain ⟨hfile, n, line, hstart, hline⟩ := (source_within text file d hd l hl).exists_line
  refine ⟨hfile, n, line, hstart, hline, fun hne => ?_⟩
  rw [head?_excerptRows_iff hfile hstart]
  exact ⟨getElem?_lines_eq_iff hline hne, getElem?_lines_of_unbroken hline hne⟩

/-- The call of a function that does not exist, in columns 8 to 10 of a line. -/
def missing (line : Int) : Diagnostic :=
  .error "E310" "undefined function 'one'" (some ⟨"f", line, 8, line, 10⟩)

/-- A program with a carriage return at the end of a line, and a form feed further down. -/
def feedBelow : String :=
  "main = one\r\n# one\x0ctwo\n"

/-- A program with a form feed in a comment above the line that is reported. -/
def feedAbove : String :=
  "# one\x0ctwo\nmain = one\n"

/-- The text has one diagnostic. -/
theorem diagnosed_feedBelow : diagnosed (source feedBelow "f").1 = [missing 1] := by
  decide +kernel

/-- The line of `feedBelow` that is reported is shown without its carriage return. -/
theorem source_excerpts_feedBelow :
    missing 1 ∈ diagnosed (source feedBelow "f").1 ∧
      ⟨⟨"f", 1, 8, 1, 10⟩, ""⟩ ∈ (missing 1).labels ∧
      (excerptRows false (.ofSources [("f", feedBelow.toList)]) .error ⟨"f", 1, 8, 1, 10⟩).head? =
        some (excerptRow false 1 "main = one".toList) := by
  have hd : missing 1 ∈ diagnosed (source feedBelow "f").1 := by
    rw [diagnosed_feedBelow]
    exact List.mem_singleton.2 rfl
  have hl : ⟨⟨"f", 1, 8, 1, 10⟩, ""⟩ ∈ (missing 1).labels := List.mem_singleton.2 rfl
  obtain ⟨-, n, line, hn, hline, hshown⟩ := source_excerpts feedBelow "f" (missing 1) _ hd hl
  obtain rfl : n = 0 := by
    have hn : (1 : Int) = n + 1 := hn
    omega
  have hfirst : (splitOn '\n' feedBelow.toList)[0]? = some "main = one\r".toList := by decide
  obtain rfl : line = "main = one\r".toList := Option.some.inj (hline.symm.trans hfirst)
  exact ⟨hd, hl, (hshown (by decide)).2 (by decide)⟩

/-- The report on the second line of `feedAbove` shows a piece of the first line. -/
theorem excerpt_misses_line :
    diagnosed (source feedAbove "f").1 = [missing 2] ∧
      (splitOn '\n' feedAbove.toList)[1]? = some "main = one".toList ∧
      (excerptRows false (.ofSources [("f", feedAbove.toList)]) .error ⟨"f", 2, 8, 2, 10⟩).head? =
        some (excerptRow false 2 "two".toList) := by
  decide +kernel

end Compile

end Clausal
