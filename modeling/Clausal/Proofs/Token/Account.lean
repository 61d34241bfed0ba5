import Clausal.Proofs.Token.Pieces

/-!
# The account of a text

Each piece of a text gives a reason for its characters, so the scanner accounts for all of them
(`scan_accounts`): a character is in a token, or is blank, or is in a comment, or is reported. A
report is made for a tab and for a character that nothing can start with, once for each, and for
nothing else.
-/

namespace Clausal.Token

open Position (ofIndex)

namespace Cut

variable {file : String} {cs : List Char} {ps : List Piece} {p q : Piece} {i j : Nat}

/-! ## Single characters -/

/-- A tab is a fault at its place. -/
theorem fault?_of_tab (file : String) (h : p.Within cs) (hk : p.lexeme = .tab) :
    cs[p.start]? = some '\t' ∧
      p.fault? file cs = some ⟨.ofChar '\t', .single file (ofIndex cs p.start)⟩ := by
  have hfits := h.fits
  rw [hk] at hfits
  rw [h.getElem?_start, show p.text = _ from hfits, Piece.fault?, hk]
  exact ⟨rfl, rfl⟩

/-- A character with which no lexeme starts is a fault at its place. -/
theorem fault?_of_stray (file : String) (h : p.Within cs) (hk : p.lexeme = .stray) :
    Unlexable (cs.drop p.start) ∧ ∃ c, cs[p.start]? = some c ∧
      p.fault? file cs = some ⟨.ofChar c, .single file (ofIndex cs p.start)⟩ := by
  have hfits := h.fits
  rw [hk] at hfits
  obtain ⟨c, rest, hc⟩ := List.exists_cons_of_ne_nil h.nonempty
  have hstart : cs[p.start]? = some c := by rw [h.getElem?_start, hc, List.head?_cons]
  have hgap : c ∉ gaps := hfits.2.1 c (by rw [List.head?_drop, hstart]; rfl)
  have htab : c ≠ '\t' := by
    rintro rfl
    exact hgap (by decide)
  refine ⟨hfits.2, c, hstart, ?_⟩
  rw [Piece.fault?, hk, hc]
  simp [ScanCause.ofChar, htab]

/-- Only tabs and characters that start nothing are faults. -/
theorem lexeme_of_fault? {f : ScanFault} (hf : p.fault? file cs = some f) :
    p.lexeme = .tab ∨ p.lexeme = .stray := by
  unfold Piece.fault? at hf
  split at hf
  · next hk => exact .inl hk
  · next hk => exact .inr hk
  · cases hf

/-- A fault is at the start of its piece. -/
theorem span_of_fault? {f : ScanFault} (hf : p.fault? file cs = some f) :
    f.span = .single file (ofIndex cs p.start) := by
  unfold Piece.fault? at hf
  split at hf
  · cases hf
    rfl
  · obtain ⟨c, -, rfl⟩ := Option.map_eq_some_iff.1 hf
    rfl
  · cases hf

/-- **Every character is accounted for** by the piece that it is in. -/
theorem char_cases (h : Cut cs 0 ps) (file : String) {c : Char} (hc : cs[i]? = some c) :
    (c ∉ gaps ∧ ∃ t ∈ ps.filterMap (Piece.token? file cs), t.span.Covers (ofIndex cs i)) ∨
      c = ' ' ∨ c = '\r' ∨ c = '\n' ∨ InComment cs i ∨
      ⟨.ofChar c, .single file (ofIndex cs i)⟩ ∈ ps.filterMap (Piece.fault? file cs) := by
  have hlt : i < cs.length := (List.getElem?_eq_some_iff.1 hc).1
  obtain ⟨p, hp, hin⟩ := h.exists_piece (Nat.zero_le i) hlt
  have hwithin := (h.within hp).1
  have hfits := hwithin.fits
  have hmem := hwithin.mem_text hin.1 hin.2 hc
  cases hk : p.lexeme with
  | blank =>
    rw [hk] at hfits
    rcases hfits with htext | htext
    · exact .inr (.inl (List.mem_singleton.1 (htext ▸ hmem)))
    · exact .inr (.inr (.inl (List.mem_singleton.1 (htext ▸ hmem))))
  | lineFeed =>
    rw [hk] at hfits
    exact .inr (.inr (.inr (.inl (List.mem_singleton.1 (hfits ▸ hmem)))))
  | comment =>
    exact .inr (.inr (.inr (.inr (.inl (h.inComment_of_comment hp hk hin.1 hin.2)))))
  | tab =>
    rw [hk] at hfits
    obtain rfl := Piece.Within.eq_start (by rw [show p.text = _ from hfits]; rfl) hin.1 hin.2
    obtain ⟨htab, hfault⟩ := fault?_of_tab file hwithin hk
    cases hc.symm.trans htab
    exact .inr (.inr (.inr (.inr (.inr (List.mem_filterMap.2 ⟨p, hp, hfault⟩)))))
  | stray =>
    rw [hk] at hfits
    obtain rfl := Piece.Within.eq_start hfits.1 hin.1 hin.2
    obtain ⟨-, d, hd, hfault⟩ := fault?_of_stray file hwithin hk
    cases hc.symm.trans hd
    exact .inr (.inr (.inr (.inr (.inr (List.mem_filterMap.2 ⟨p, hp, hfault⟩)))))
  | token k =>
    obtain ⟨t, ht⟩ : ∃ t, p.token? file cs = some t := by
      rw [Piece.token?, hk]
      exact ⟨_, rfl⟩
    rw [hk] at hfits
    exact .inl ⟨hfits.2.2 c hmem, t, List.mem_filterMap.2 ⟨p, hp, ht⟩,
      (hwithin.covers_iff ht hlt).2 hin⟩

/-- A comment is in no token. -/
theorem not_covers_of_inComment (h : Cut cs 0 ps) (hi : i < cs.length) (hcomment : InComment cs i)
    {t : Token} (ht : t ∈ ps.filterMap (Piece.token? file cs)) :
    ¬ t.span.Covers (ofIndex cs i) := by
  intro hcovers
  obtain ⟨p, hp, ht⟩ := List.mem_filterMap.1 ht
  obtain ⟨k, hk, -⟩ := Piece.Within.eq_of_token? ht
  have hin := ((h.within hp).1.covers_iff ht hi).1 hcovers
  cases hk.symm.trans (h.comment_of_inComment hp hi hin hcomment)

/-- **The faults of a text**: they are reported at the tabs outside comments, and at the characters
outside comments and tokens that start nothing. -/
theorem mem_faults_iff (h : Cut cs 0 ps) (f : ScanFault) :
    f ∈ ps.filterMap (Piece.fault? file cs) ↔
      ∃ i c, cs[i]? = some c ∧ ¬ InComment cs i ∧
        (c = '\t' ∨ Unlexable (cs.drop i) ∧
          ∀ t ∈ ps.filterMap (Piece.token? file cs), ¬ t.span.Covers (ofIndex cs i)) ∧
        f = ⟨.ofChar c, .single file (ofIndex cs i)⟩ := by
  constructor
  · intro hf
    obtain ⟨p, hp, hf⟩ := List.mem_filterMap.1 hf
    have hwithin := (h.within hp).1
    have hin : p.start ≤ p.start ∧ p.start < p.stop := ⟨Nat.le_refl _, hwithin.start_lt_stop⟩
    have hlt := Nat.lt_of_lt_of_le hwithin.start_lt_stop hwithin.stop_le
    have hcomment : ¬ InComment cs p.start := by
      intro hcomment
      have hk := h.comment_of_inComment hp hlt hin hcomment
      rcases lexeme_of_fault? hf with hk' | hk' <;> cases hk.symm.trans hk'
    rcases lexeme_of_fault? hf with hk | hk
    · obtain ⟨hc, hfault⟩ := fault?_of_tab file hwithin hk
      exact ⟨p.start, '\t', hc, hcomment, .inl rfl, Option.some.inj (hf.symm.trans hfault)⟩
    · obtain ⟨hunlexable, c, hc, hfault⟩ := fault?_of_stray file hwithin hk
      refine ⟨p.start, c, hc, hcomment, .inr ⟨hunlexable, fun t ht hcovers => ?_⟩,
        Option.some.inj (hf.symm.trans hfault)⟩
      obtain ⟨q, hq, ht⟩ := List.mem_filterMap.1 ht
      obtain ⟨k, hk', -⟩ := Piece.Within.eq_of_token? ht
      have hqp := h.eq_of_mem hq hp (((h.within hq).1.covers_iff ht hlt).1 hcovers) hin
      rw [hqp, hk] at hk'
      cases hk'
  · rintro ⟨i, c, hc, hcomment, hbad, rfl⟩
    -- A character that is reported is none of the other things that a character can be.
    have hblank : ∀ d ∈ [' ', '\r', '\n'], c ≠ d := by
      rintro d hd rfl
      rcases hbad with rfl | ⟨hunlexable, -⟩
      · exact absurd hd (by decide)
      · refine hunlexable.1 c (by rw [List.head?_drop, hc]; rfl) ?_
        exact (show ∀ d ∈ [' ', '\r', '\n'], d ∈ gaps by simp [gaps]) c hd
    rcases h.char_cases file hc with ⟨hgap, t, ht, hcovers⟩ | hsp | hcr | hlf | hin | hfault
    · rcases hbad with rfl | ⟨-, huncovered⟩
      · exact absurd (by decide) hgap
      · exact absurd hcovers (huncovered t ht)
    · exact absurd hsp (hblank ' ' (by decide))
    · exact absurd hcr (hblank '\r' (by decide))
    · exact absurd hlf (hblank '\n' (by decide))
    · exact absurd hin hcomment
    · exact hfault

/-! ## Order -/

/-- Tokens are in the order of the text. -/
theorem span_before (h : Cut cs 0 ps) (file : String) :
    (ps.filterMap (Piece.token? file cs)).Pairwise fun t u => t.span.Before u.span := by
  refine List.Pairwise.filterMap _ ?_ h.pairwise
  rintro p q ⟨hp, hq, hle⟩ t ht u hu
  obtain ⟨k, hk, -⟩ := Piece.Within.eq_of_token? ht
  have hlast := hp.ofIndex_token hk (Nat.sub_le p.text.length 1)
  have hlength := List.length_pos_iff.2 hp.nonempty
  have hbefore : (ofIndex cs (p.start + (p.text.length - 1))).Before (ofIndex cs q.start) := by
    refine Position.ofIndex_before ?_ hq.start_le
    unfold Piece.stop at hle
    omega
  rw [hlast] at hbefore
  rw [hp.span_eq ht, hq.span_eq hu]
  unfold Position.Before at hbefore
  unfold Span.Before
  dsimp only at hbefore ⊢
  omega

/-- No two faults are reported alike: they are at different places. -/
theorem faults_nodup (h : Cut cs 0 ps) (file : String) :
    ((ps.filterMap (Piece.fault? file cs)).map ScanFault.diagnostic).Nodup := by
  rw [List.Nodup, List.pairwise_map]
  refine List.Pairwise.filterMap _ ?_ h.pairwise
  rintro p q ⟨hp, hq, hle⟩ f hf g hg heq
  have hspan : f.span = g.span := by
    injection heq with _ _ _ hlabels
    simpa using hlabels
  rw [span_of_fault? hf, span_of_fault? hg] at hspan
  have hindex := Position.ofIndex_inj hp.start_le hq.start_le (Span.single_inj hspan)
  have hlt := hp.start_lt_stop
  omega

/-- A character with a fault has one report. -/
theorem countP_reports (h : Cut cs 0 ps) {c : Char} (hc : cs[i]? = some c)
    (hf : ⟨.ofChar c, .single file (ofIndex cs i)⟩ ∈ ps.filterMap (Piece.fault? file cs)) :
    ((ps.filterMap (Piece.fault? file cs)).map ScanFault.diagnostic).countP
      (fun d => d.labels = [⟨.single file (ofIndex cs i), ""⟩]) = 1 := by
  have hmem := List.mem_map_of_mem (f := ScanFault.diagnostic) hf
  have hone := (h.faults_nodup file).count.trans (if_pos hmem)
  rw [← hone]
  refine List.countP_congr fun d hd => ?_
  rw [decide_eq_true_iff, beq_iff_eq]
  constructor
  · intro hlabels
    obtain ⟨f, hf', rfl⟩ := List.mem_map.1 hd
    obtain ⟨j, b, hb, -, -, rfl⟩ := h.mem_faults_iff f |>.1 hf'
    have hspan : Span.single file (ofIndex cs j) = Span.single file (ofIndex cs i) := by
      simpa [ScanFault.diagnostic, Diagnostic.error, Diagnostic.about] using hlabels
    have hle : ∀ {n : Nat} {x : Char}, cs[n]? = some x → n ≤ cs.length :=
      fun hx => Nat.le_of_lt (List.getElem?_eq_some_iff.1 hx).1
    obtain rfl := Position.ofIndex_inj (hle hb) (hle hc) (Span.single_inj hspan)
    cases hb.symm.trans hc
    rfl
  · rintro rfl
    rfl

end Cut

/-! ## The account of a text -/

/-- The tokens and the reports of a scan account for the characters of a text. -/
structure Accounted (file : String) (cs : List Char) (tokens : List Token)
    (reports : List Diagnostic) : Prop where
  /-- The columns of a token hold its text. -/
  shows : ∀ t ∈ tokens, t.span.file = file ∧ t.Shows cs
  /-- Tokens are in the order of the text and do not overlap. -/
  ordered : tokens.Pairwise fun t u => t.span.Before u.span
  /-- No token reaches into a comment. -/
  comments : ∀ i < cs.length, InComment cs i → ∀ t ∈ tokens, ¬ t.span.Covers (ofIndex cs i)
  /-- A character outside all tokens is blank or in a comment, or it is reported once. -/
  covered : ∀ i c, cs[i]? = some c →
    (∃ t ∈ tokens, t.span.Covers (ofIndex cs i)) ∨ c = ' ' ∨ c = '\r' ∨ c = '\n' ∨
      InComment cs i ∨
      reports.countP (fun d => d.labels = [⟨.single file (ofIndex cs i), ""⟩]) = 1
  /-- Reports are made for the tabs outside comments, and for the characters outside comments and
  tokens that nothing can start with. -/
  reported : ∀ d, d ∈ reports ↔
    ∃ i c, cs[i]? = some c ∧ ¬ InComment cs i ∧
      (c = '\t' ∨ Unlexable (cs.drop i) ∧ ∀ t ∈ tokens, ¬ t.span.Covers (ofIndex cs i)) ∧
      d = .error "E100" (ScanCause.ofChar c).message (Span.single file (ofIndex cs i))
  /-- No report is made twice. -/
  once : reports.Nodup

/-- **The scanner accounts for every character of any text.** -/
theorem scan_accounts (text file : String) :
    Accounted file text.toList ((scan text file).tokens.filter isSolid)
      ((scan text file).faults.map ScanFault.diagnostic) := by
  obtain ⟨ps, hcut, htokens, hfaults⟩ := scanFrom_cut text.toList file {} 0 (Nat.zero_le _) rfl
  rw [List.drop_zero] at htokens hfaults
  unfold scan
  rw [htokens, hfaults]
  constructor
  case shows =>
    intro t ht
    obtain ⟨p, hp, ht⟩ := List.mem_filterMap.1 ht
    have hwithin := (hcut.within hp).1
    exact ⟨by rw [hwithin.span_eq ht], hwithin.shows ht⟩
  case ordered => exact hcut.span_before file
  case comments => exact fun i hi hcomment t ht => hcut.not_covers_of_inComment hi hcomment ht
  case covered =>
    intro i c hc
    rcases hcut.char_cases file hc with ⟨-, htoken⟩ | hsp | hcr | hlf | hcomment | hfault
    · exact .inl htoken
    · exact .inr (.inl hsp)
    · exact .inr (.inr (.inl hcr))
    · exact .inr (.inr (.inr (.inl hlf)))
    · exact .inr (.inr (.inr (.inr (.inl hcomment))))
    · exact .inr (.inr (.inr (.inr (.inr (hcut.countP_reports hc hfault)))))
  case reported =>
    intro d
    rw [List.mem_map]
    constructor
    · rintro ⟨f, hf, rfl⟩
      obtain ⟨i, c, hc, hcomment, hbad, rfl⟩ := (hcut.mem_faults_iff f).1 hf
      exact ⟨i, c, hc, hcomment, hbad, rfl⟩
    · rintro ⟨i, c, hc, hcomment, hbad, rfl⟩
      exact ⟨_, (hcut.mem_faults_iff _).2 ⟨i, c, hc, hcomment, hbad, rfl⟩, rfl⟩
  case once => exact hcut.faults_nodup file

end Clausal.Token
