import Mathlib.Data.List.Forall2
import Clausal.Proofs.Grammar.Nesting

/-!
# Lines keep to their rows

The tokens of a text come in rows, one for each line of the program. Over a whole text the spans in
every line nest, each line starts at the name at the front of its row and ends before the next one,
and no token of another row is inside it (`parse_laidOut`). The newline token of the row above
reaches over to the first column of a line, so that it is not apart from the line; but it starts
before it.
-/

namespace Clausal

open Token

namespace Grammar

/-! ## Rows of tokens -/

/-- The segments that hold more than the end of a line or of the file. -/
def tokenRows (ts : List Token) : List (List Token) :=
  (segments ts).filter fun seg => seg.any isSolid

section Rows

variable {used ts : List Token} {stop eof : Token}

/-- Solid tokens are those within a line. -/
theorem isSolid_iff {t : Token} : isSolid t = true ↔ endsLine t.kind = false := by
  rw [endsLine_eq_false_iff]
  simp [isSolid]

/-- A line in front of other tokens is the first segment. -/
theorem segments_line (hused : ∀ t ∈ used, endsLine t.kind = false) (hstop : stop.kind = .newline) :
    segments (used ++ stop :: ts) = (used ++ [stop]) :: segments ts := by
  induction used with
  | nil => rw [List.nil_append, segments, if_pos hstop, List.nil_append]
  | cons t used ih =>
    obtain ⟨ht, hused⟩ := List.forall_mem_cons.1 hused
    rw [List.cons_append, segments, if_neg (endsLine_eq_false_iff.1 ht).1, ih hused,
      List.cons_append]

/-- The segments are all tokens, in order. -/
theorem flatten_segments (ts : List Token) : (segments ts).flatten = ts := by
  have hspec := segments_spec ts
  generalize segments ts = segs at hspec ⊢
  induction hspec with
  | nil => rfl
  | last _ _ => simp
  | line _ _ _ ih => simp [ih]

/-- An empty line is no row. -/
theorem tokenRows_newline (hstop : stop.kind = .newline) :
    tokenRows (stop :: ts) = tokenRows ts := by
  have hblank : [stop].any isSolid = false := by simp [isSolid, hstop]
  rw [tokenRows, segments, if_pos hstop, List.filter_cons, hblank, if_neg Bool.false_ne_true,
    tokenRows]

/-- The end of the file is no row. -/
theorem tokenRows_eof (heof : eof.kind = .eof) : tokenRows [eof] = [] := by
  simp [tokenRows, segments, heof, isSolid]

/-- A line in front of other tokens is the first row. -/
theorem tokenRows_line (hne : used ≠ []) (hused : ∀ t ∈ used, endsLine t.kind = false)
    (hstop : stop.kind = .newline) (ts : List Token) :
    tokenRows (used ++ stop :: ts) = (used ++ [stop]) :: tokenRows ts := by
  obtain ⟨t, ht⟩ := List.exists_mem_of_ne_nil used hne
  have hsolid : (used ++ [stop]).any isSolid = true :=
    List.any_eq_true.2 ⟨t, List.mem_append_left _ ht, isSolid_iff.2 (hused t ht)⟩
  rw [tokenRows, segments_line hused hstop, List.filter_cons, if_pos hsolid, tokenRows]

/-- Earlier rows hold earlier tokens. -/
theorem tokenRows_pairwise {R : Token → Token → Prop} (h : ts.Pairwise R) :
    (tokenRows ts).Pairwise fun row row' => ∀ t ∈ row, ∀ u ∈ row', R t u := by
  rw [← flatten_segments ts, List.pairwise_flatten] at h
  exact h.2.filter _

end Rows

/-! ## Lines over rows -/

/-- The line starts at its name, the first token of the row. -/
def StartsAtName (l : Line) (row : List Token) : Prop :=
  ∃ name rest, row = name :: rest ∧ name.kind = .identifier ∧ name.text = l.name ∧
    l.span.SameStart name.span

/-- The line starts at the name of its row, ends at a token of it, and nests. -/
structure OverRow (l : Line) (row : List Token) : Prop where
  name : StartsAtName l row
  stop : ∃ z ∈ row, isSolid z = true ∧ l.span.SameEnd z.span
  nested : l.Nested

/-- A line is over the row of tokens that are read for it. -/
theorem line_overRow {ts : List Token} (hts : Sequence ts) :
    Gives (line ts) (fun r => ∃ used stop, ts = used ++ stop :: r.rest ∧ used ≠ [] ∧
      (∀ t ∈ used, endsLine t.kind = false) ∧ stop.kind = .newline ∧
      OverRow r.value (used ++ [stop])) fun _ => True := by
  have hdraws := line_draws ts
  have hseals := line_seals ts
  cases hline : line ts with
  | error e => trivial
  | ok l =>
    obtain ⟨name, used, stop, htokens, hname, hstop, hdrawn⟩ := hdraws.of_ok hline
    obtain ⟨used', stop', htokens', hsealed, -⟩ := hseals.of_ok hline
    obtain ⟨rfl, hcons⟩ : name :: used = used' ∧ stop = stop' := by
      have happend := htokens.symm.trans htokens'
      rw [List.append_cons, List.append_cons used'] at happend
      exact List.append_singleton_inj.1 (List.append_cancel_right happend)
    have hsolid : ∀ t ∈ name :: used, isSolid t = true := fun t ht =>
      isSolid_iff.2 (hsealed.inside t ht)
    have horder : InOrder (name :: used) := by
      refine (hts.sublist ?_).inOrder hsolid
      rw [htokens]
      exact List.sublist_append_left _ _
    refine ⟨name :: used, stop, htokens, List.cons_ne_nil _ _, hsealed.inside, hstop, ?_, ?_,
      hdrawn.nested horder⟩
    · exact ⟨name, used ++ [stop], rfl, hname, hdrawn.text.symm, hdrawn.start⟩
    · obtain ⟨z, hz, hend⟩ := hdrawn.stop horder
      exact ⟨z, List.mem_append_left _ hz, hsolid z hz, hend⟩

/-- The lines of tokens in sequence go with the rows of these tokens, one by one. -/
theorem lines_overRow : ∀ ts : List Token, Sequence ts →
    (∀ init eof rest, ts = init ++ eof :: rest → eof.kind = .eof → rest = []) →
    Gives (lines ts) (fun r => r.faults = [] → List.Forall₂ OverRow r.lines (tokenRows ts))
      fun _ => True
  | [], _, _ => by
    rw [lines]
    trivial
  | t :: ts, hts, hend => by
    have hline := line_overRow hts
    rw [lines]
    split
    · next heof =>
      intro _
      rw [hend [] t ts rfl heof, tokenRows_eof heof]
      exact .nil
    next hne =>
    split
    · next hnewline =>
      rw [tokenRows_newline hnewline]
      refine lines_overRow ts (hts.sublist (List.sublist_cons_self t ts)) fun init eof rest h => ?_
      exact hend (t :: init) eof rest (congrArg (t :: ·) h)
    split
    · next l hl =>
      obtain ⟨used, stop, htokens, hcontent, hused, hstop, hover⟩ := hline.of_ok hl
      have hshorter : l.rest.length ≤ ts.length := Nat.le_of_lt_succ l.shorter
      have hrows := tokenRows_line hcontent hused hstop l.rest
      rw [← htokens] at hrows
      rw [htokens, List.append_cons] at hts
      refine gives_map.2 ((lines_overRow l.rest (hts.sublist (List.sublist_append_right _ _))
        fun init eof rest h => ?_).imp fun r hr hfaults => ?_)
      · refine hend ((used ++ [stop]) ++ init) eof rest ?_
        rw [htokens, h, List.append_cons, List.append_assoc (used ++ [stop])]
      · rw [hrows]
        exact .cons hover (hr hfaults)
    · have hshorter : (skipLine (t :: ts)).length ≤ ts.length :=
        Nat.le_of_lt_succ (skipLine_length_lt hne)
      rw [gives_map]
      cases lines (skipLine (t :: ts)) with
      | error a => trivial
      | ok r =>
        intro hfaults
        cases hfaults
    · trivial
termination_by ts => ts.length

/-! ## Lines apart -/

section Apart

variable {l m : Line} {row row' : List Token}

/-- A line ends before the tokens of later rows. -/
theorem OverRow.below (h : OverRow l row)
    (hrows : ∀ t ∈ row, ∀ u ∈ row', Precedes t u) : ∀ u ∈ row', l.span.Before u.span := by
  intro u hu
  obtain ⟨z, hz, hsolid, hline, hcol⟩ := h.stop
  have hbefore := (hrows z hz u hu).solid hsolid
  unfold Span.Before at hbefore ⊢
  rwa [hline, hcol]

/-- A line starts after the tokens of earlier rows do, and those that stand for characters end
before it. -/
theorem OverRow.above (h : OverRow l row)
    (hrows : ∀ t ∈ row', ∀ u ∈ row, Precedes t u) :
    ∀ t ∈ row', t.span.StartsBefore l.span ∧ (isSolid t = true → t.span.Before l.span) := by
  intro t ht
  obtain ⟨name, rest, rfl, hkind, -, hline, hcol⟩ := h.name
  have hsolid : isSolid name = true := isSolid_iff.2 (by rw [hkind]; rfl)
  have hprecedes := hrows t ht name List.mem_cons_self
  unfold Span.StartsBefore Span.Before
  rw [hline, hcol]
  exact ⟨hprecedes.start hsolid, hprecedes.solid⟩

/-- Of two rows in order, the lines are in order. -/
theorem OverRow.before (h : OverRow l row) (h' : OverRow m row')
    (hrows : ∀ t ∈ row, ∀ u ∈ row', Precedes t u) : l.span.Before m.span := by
  obtain ⟨name, rest, rfl, -, -, hline, hcol⟩ := h'.name
  have hbefore := h.below hrows name List.mem_cons_self
  unfold Span.Before at hbefore ⊢
  rwa [hline, hcol]

end Apart

/-- What starts before a span does not start in it. -/
theorem not_holds_of_startsBefore {s t : Span} (h : t.StartsBefore s) :
    ¬ s.Holds t.startLine t.startCol := by
  unfold Span.StartsBefore at h
  unfold Span.Holds
  omega

/-- What comes after a span does not start in it. -/
theorem not_holds_of_before {s t : Span} (h : s.Before t) : ¬ s.Holds t.startLine t.startCol := by
  unfold Span.Before at h
  unfold Span.Holds
  omega

section Index

variable {α β : Type} {i j : Nat} {xs : List α} {ys : List β}

/-- Lists that are related item by item have related items at each index. -/
theorem exists_getElem?_of_forall₂ {R : α → β → Prop} {x : α} (h : List.Forall₂ R xs ys)
    (hx : xs[i]? = some x) : ∃ y, ys[i]? = some y ∧ R x y := by
  obtain ⟨hi, rfl⟩ := List.getElem?_eq_some_iff.1 hx
  have hi' : i < ys.length := h.length_eq ▸ hi
  exact ⟨ys[i], List.getElem?_eq_getElem hi', h.get hi hi'⟩

/-- Of a list that is related in pairs, an earlier item is related to a later one. -/
theorem rel_of_getElem? {P : α → α → Prop} {x y : α} (h : xs.Pairwise P) (hx : xs[i]? = some x)
    (hy : xs[j]? = some y) (hij : i < j) : P x y := by
  obtain ⟨hi, rfl⟩ := List.getElem?_eq_some_iff.1 hx
  obtain ⟨hj, rfl⟩ := List.getElem?_eq_some_iff.1 hy
  exact List.pairwise_iff_getElem.1 h i j hi hj hij

end Index

/-- The spans of lines, laid out over rows of tokens. -/
structure LaidOut (lines : List Line) (rows : List (List Token)) : Prop where
  /-- The spans in every line nest. -/
  nested : ∀ l ∈ lines, l.Nested
  /-- Each line ends before the next one starts. -/
  ordered : lines.Pairwise fun l m => l.span.Before m.span
  /-- Every line has its row, and starts at its name, the first token there. -/
  names : List.Forall₂ StartsAtName lines rows
  /-- No token of another row starts in the span of a line, so that none is inside it; the tokens
  that stand for characters are wholly apart from it. -/
  apart : ∀ (i j : Nat) (l : Line) (row : List Token), lines[i]? = some l → rows[j]? = some row →
    i ≠ j → ∀ t ∈ row, ¬ l.span.Holds t.span.startLine t.span.startCol ∧
      (isSolid t = true → t.span.Before l.span ∨ l.span.Before t.span)

/-- Lines over rows in order are laid out on them. -/
theorem laidOut_of_overRow {ls : List Line} {rows : List (List Token)}
    (h : List.Forall₂ OverRow ls rows)
    (hrows : rows.Pairwise fun row row' => ∀ t ∈ row, ∀ u ∈ row', Precedes t u) :
    LaidOut ls rows where
  nested := fun l hl => by
    obtain ⟨i, hi⟩ := List.mem_iff_getElem?.1 hl
    obtain ⟨row, -, hover⟩ := exists_getElem?_of_forall₂ h hi
    exact hover.nested
  ordered := by
    refine List.pairwise_iff_getElem.2 fun i j hi hj hij => ?_
    obtain ⟨row, hrow, hover⟩ := exists_getElem?_of_forall₂ h (List.getElem?_eq_getElem hi)
    obtain ⟨row', hrow', hover'⟩ := exists_getElem?_of_forall₂ h (List.getElem?_eq_getElem hj)
    exact hover.before hover' (rel_of_getElem? hrows hrow hrow' hij)
  names := h.imp fun l row hover => hover.name
  apart := fun i j l row hl hrow hij t ht => by
    obtain ⟨own, hown, hover⟩ := exists_getElem?_of_forall₂ h hl
    rcases Nat.lt_or_gt_of_ne hij with hlt | hgt
    · have hbelow := hover.below (rel_of_getElem? hrows hown hrow hlt) t ht
      exact ⟨not_holds_of_before hbelow, fun _ => .inr hbelow⟩
    · obtain ⟨hstart, hsolid⟩ := hover.above (rel_of_getElem? hrows hrow hown hgt) t ht
      exact ⟨not_holds_of_startsBefore hstart, fun h => .inl (hsolid h)⟩

end Grammar

namespace Program

open Grammar

/-- **Spans nest.** In the program that a text makes up, the span of every part, at any depth, is
around those of the parts that it is made of, which stand one after the other; and so do the lines,
each of which starts at its name and keeps clear of the tokens of all other lines. -/
theorem parse_laidOut (text file : String) (p : Program) (h : parse text file = .ok p) :
    LaidOut p.lines (tokenRows (scan text file).tokens) := by
  obtain ⟨-, r, hr, hfaults, rfl⟩ := parse_eq_ok_iff.1 h
  have hsequence := scan_sequence text file
  have hlines := lines_overRow _ hsequence fun init eof rest htokens heof => by
    obtain ⟨body, last, hbody, -, hnoeof⟩ := (scan_formed text file).2
    rw [hbody] at htokens
    obtain rfl := eq_of_append_eof hnoeof heof htokens
    exact (List.cons.inj (List.append_cancel_left htokens)).2.symm
  exact laidOut_of_overRow (hlines.of_ok hr hfaults) (tokenRows_pairwise hsequence.precedes)

/-- A declaration, a clause with a literal parameter, and a clause whose body goes on below. -/
def staircase : String :=
  "fib :: int -> int\nfib 0 = 0\nfib n = (n == 1) ? 1 : (fib (n\n  - 1) + (fib (n - 2)))\n"

/-- The three lines are laid out, the last one over two lines of text. -/
theorem parse_laidOut_staircase :
    ∃ p, parse staircase "f" = .ok p ∧
      p.lines.map Line.span = [⟨"f", 1, 1, 1, 17⟩, ⟨"f", 2, 1, 2, 9⟩, ⟨"f", 3, 1, 4, 21⟩] ∧
      LaidOut p.lines (tokenRows (scan staircase "f").tokens) := by
  have hspans : (parse staircase "f").toOption.map (·.lines.map Line.span) =
      some [⟨"f", 1, 1, 1, 17⟩, ⟨"f", 2, 1, 2, 9⟩, ⟨"f", 3, 1, 4, 21⟩] := by decide +kernel
  obtain ⟨p, hp, hlines⟩ := Option.map_eq_some_iff.1 hspans
  have hparse : parse staircase "f" = .ok p := by
    cases hread : parse staircase "f" with
    | error e =>
      rw [hread] at hp
      cases hp
    | ok q =>
      rw [hread] at hp
      cases hp
      rfl
  exact ⟨p, hparse, hlines, parse_laidOut staircase "f" p hparse⟩

end Program

end Clausal
