import Clausal.Proofs.Outcome
import Clausal.Toml.Text

/-!
# What strings of TOML say

`Spells q text value` tells what a text between quotes stands for: each of its characters for
itself, or a backslash and some characters after it for at most one character. Reading a string
finds such a text (`string_spells`).

A text that is put between quotes just as it is need not say itself. It does if it is `Verbatim`,
that is, has only plain characters and neither quotes nor backslashes (`quotedString_verbatim`), and
a text that is not verbatim is never read back (`verbatim_of_quotedString`).
-/

namespace Clausal.Toml

variable {q : Quoting} {multiline : Bool} {c x : Char} {cs ds e text value rest : List Char}

/-- Something is read from the front of a text, and the rest is what follows. -/
def Reads {α : Type} (r : Except Fault (Taken α cs)) (a : α) (rest : List Char) : Prop :=
  ∃ h, r = .ok ⟨a, rest, h⟩

/-! ## Escapes -/

/-- What may stand after a backslash, and the characters that it gives: a letter or the number of a
character, or the end of a line and the blanks around it. -/
inductive Escape (multiline : Bool) : List Char → List Char → Prop
  | letter {c x : Char} : escaped? c = some x → Escape multiline [c] [x]
  | number {c x : Char} {ds : List Char} : c = 'u' ∧ ds.length = 4 ∨ c = 'U' ∧ ds.length = 8 →
      hexChar? ds = some x → Escape multiline (c :: ds) [x]
  | lineBreak {blanks more : List Char} : multiline = true → (∀ c ∈ blanks, isSpace c = true) →
      (∀ c ∈ more, isSpace c = true ∨ c = '\n') → Escape multiline (blanks ++ '\n' :: more) []

/-- What is skipped is blanks. -/
theorem skipSpace_split (cs : List Char) :
    ∃ blanks, (∀ c ∈ blanks, isSpace c = true) ∧ cs = blanks ++ skipSpace cs :=
  ⟨cs.takeWhile isSpace, fun _ h => List.all_eq_true.1 List.all_takeWhile _ h,
    (List.takeWhile_append_dropWhile).symm⟩

/-- A mark that is found is the first character. -/
theorem mark?_eq_some {t : Taken Unit cs} (h : mark? c cs = some t) : cs = c :: t.rest := by
  cases cs with
  | nil => cases h
  | cons d cs =>
    rw [mark?] at h
    split at h
    · next hd =>
      cases h
      rw [hd]
      rfl
    · cases h

/-- The number of an escape spells the character with it. -/
theorem escapedNumber_spells (count : Nat) (cs : List Char) :
    Gives (escapedNumber count cs) (fun t => ∃ ds x, ds.length = count ∧ hexChar? ds = some x ∧
      t.value = [x] ∧ cs = ds ++ t.rest) fun _ => True := by
  rw [escapedNumber]
  split
  · next x hx =>
    split
    · next hcount =>
      exact ⟨cs.take count, x, List.length_take_of_le hcount, hx, rfl,
        (List.take_append_drop count cs).symm⟩
    · trivial
  · trivial

/-- An escaped line break spells nothing. -/
theorem escapedBreak_spells (cs : List Char) : Gives (escapedBreak cs)
    (fun t => ∃ e, Escape true e t.value ∧ cs = e ++ t.rest) fun _ => True := by
  rw [escapedBreak]
  split
  · next t ht =>
    obtain ⟨blanks, hblanks, hcs⟩ := skipSpace_split cs
    rw [mark?_eq_some ht] at hcs
    refine ⟨blanks ++ '\n' :: t.rest.takeWhile (fun c => isSpace c || c = '\n'),
      .lineBreak rfl hblanks fun c hc => ?_, ?_⟩
    · simpa using List.all_eq_true.1 List.all_takeWhile c hc
    · show cs = _ ++ t.rest.dropWhile _
      rw [List.append_assoc, List.cons_append, List.takeWhile_append_dropWhile]
      exact hcs
  · trivial

/-- An escape spells what is read for it. -/
theorem escape_spells (multiline : Bool) (cs : List Char) : Gives (escape multiline cs)
    (fun t => ∃ e, Escape multiline e t.value ∧ cs = e ++ t.rest) fun _ => True := by
  cases cs with
  | nil => trivial
  | cons c cs =>
    have hnumber : ∀ count, c = 'u' ∧ count = 4 ∨ c = 'U' ∧ count = 8 →
        Gives ((escapedNumber count cs).map (·.afterFirst c))
          (fun t => ∃ e, Escape multiline e t.value ∧ c :: cs = e ++ t.rest) fun _ => True := by
      intro count hcount
      refine gives_map.2 ((escapedNumber_spells count cs).imp ?_)
      rintro t ⟨ds, x, rfl, hx, hvalue, hcs⟩
      refine ⟨c :: ds, ?_, congrArg (c :: ·) hcs⟩
      rw [show (t.afterFirst c).value = [x] from hvalue]
      exact .number hcount hx
    rw [escape]
    split
    · next hc => exact hnumber 4 (.inl ⟨hc, rfl⟩)
    · split
      · next hc => exact hnumber 8 (.inr ⟨hc, rfl⟩)
      · split
        · next x hx => exact ⟨[c], .letter hx, rfl⟩
        · split
          · next hmultiline =>
            subst hmultiline
            exact escapedBreak_spells (c :: cs)
          · trivial

/-- An escape is no shorter than what it spells. -/
theorem Escape.length_le (h : Escape multiline e value) : value.length ≤ e.length := by
  cases h with
  | letter => exact Nat.le_refl 1
  | number => exact Nat.succ_le_succ (Nat.zero_le _)
  | lineBreak => exact Nat.zero_le _

/-- The digits of an escape hold no line feed. -/
theorem lineFeed_not_mem_of_hexChar? (h : hexChar? ds = some x) : '\n' ∉ ds := by
  have hdigits : ∀ n m, ds.foldlM (fun n d => (hexValue? d).map (16 * n + ·)) n = some m →
      '\n' ∉ ds := by
    clear h
    induction ds with
    | nil => exact fun _ _ _ => List.not_mem_nil
    | cons d ds ih =>
      intro n m h
      obtain ⟨k, hk, h⟩ := Option.bind_eq_some_iff.1 h
      obtain ⟨v, hv, -⟩ := Option.map_eq_some_iff.1 hk
      have hd : '\n' ≠ d := by
        rintro rfl
        cases hv
      exact List.not_mem_cons_of_ne_of_not_mem hd (ih k m h)
  obtain ⟨n, hn, -⟩ := Option.bind_eq_some_iff.1 h
  exact hdigits 0 n hn

/-- Neither does an escape, outside of strings of several lines. -/
theorem Escape.lineFeed_not_mem (h : Escape false e value) : '\n' ∉ e := by
  cases h with
  | @letter c x h =>
    intro hc
    rw [← List.mem_singleton.1 hc] at h
    cases h
  | @number c ds x hc hx =>
    refine List.not_mem_cons_of_ne_of_not_mem ?_ (lineFeed_not_mem_of_hexChar? hx)
    rintro rfl
    rcases hc with ⟨hc, -⟩ | ⟨hc, -⟩ <;> cases hc
  | lineBreak h => cases h

/-! ## Strings -/

/-- The quotes that close a string. -/
def Quoting.quotes (q : Quoting) : List Char :=
  List.replicate (if q.multiline then 3 else 1) q.mark

/-- What a text between quotes says. -/
inductive Spells (q : Quoting) : List Char → List Char → Prop
  | nil : Spells q [] []
  | char {c : Char} {text value : List Char} : ¬ (c = '\\' ∧ q.mark = '"') →
      (c = q.mark → q.multiline = true) → c = q.mark ∨ q.admits c = true →
      Spells q text value → Spells q (c :: text) (c :: value)
  | escape {e given text value : List Char} : q.mark = '"' → Escape q.multiline e given →
      Spells q text value → Spells q ('\\' :: (e ++ text)) (given ++ value)

/-- In a string of several lines, quotation marks may stand for themselves. -/
theorem spells_marks (hmark : q.mark ≠ '\\') (hmultiline : q.multiline = true) (n : Nat) :
    Spells q (List.replicate n q.mark) (List.replicate n q.mark) := by
  induction n with
  | zero => exact .nil
  | succ n ih => exact .char (fun h => hmark h.1) (fun _ => hmultiline) (.inl rfl) ih

/-- A text is the marks at its front and what is behind them. -/
theorem eq_marks_append_drop {n : Nat} (h : n ≤ (cs.takeWhile (· = c)).length) :
    cs = List.replicate n c ++ cs.drop n := by
  induction n generalizing cs with
  | zero => rfl
  | succ n ih =>
    cases cs with
    | nil => exact absurd h (Nat.not_succ_le_zero n)
    | cons d cs =>
      by_cases hd : d = c
      · subst hd
        rw [List.takeWhile_cons_of_pos (by simp), List.length_cons] at h
        exact congrArg (d :: ·) (ih (Nat.le_of_succ_le_succ h))
      · rw [List.takeWhile_cons_of_neg (by simpa using hd)] at h
        exact absurd h (Nat.not_succ_le_zero n)

/-- Quotation marks before the closing ones stand for themselves. -/
theorem closing?_spells (hmark : q.mark ≠ '\\') {t : Taken (List Char) cs}
    (h : closing? q cs = some t) :
    Spells q t.value t.value ∧ cs = t.value ++ q.quotes ++ t.rest := by
  unfold closing? at h
  dsimp only at h
  split at h
  · next hmultiline =>
    split at h
    · next hn =>
      cases h
      refine ⟨spells_marks hmark hmultiline _, ?_⟩
      rw [Quoting.quotes, if_pos hmultiline, List.replicate_append_replicate, Nat.add_comm]
      exact eq_marks_append_drop (by omega)
    · cases h
  · next hmultiline =>
    split at h
    · next hn =>
      cases h
      refine ⟨.nil, ?_⟩
      rw [Quoting.quotes, if_neg hmultiline]
      exact eq_marks_append_drop hn
    · cases h

/-- A quotation mark that does not close a string is in one of several lines. -/
theorem multiline_of_closing?_eq_none (h : closing? q (q.mark :: cs) = none) :
    q.multiline = true := by
  cases hmultiline : q.multiline with
  | true => rfl
  | false => simp [closing?, hmultiline] at h

/-- **What is read as a string** is what the text up to the closing quotes says. -/
theorem string_spells (hmark : q.mark ≠ '\\') (cs : List Char) : Gives (string q cs)
    (fun t => ∃ text, Spells q text t.value ∧ cs = text ++ q.quotes ++ t.rest) fun _ => True := by
  induction cs using string.induct q with
  | case1 cs t ht =>
    rw [string.eq_def, ht]
    obtain ⟨h, hcs⟩ := closing?_spells hmark ht
    exact ⟨t.value, h, hcs⟩
  | case2 hnone =>
    rw [string.eq_def, hnone]
    trivial
  | case3 c cs hc hnone ih =>
    -- a backslash: the string goes on where its escape ends
    rw [string.eq_def, hnone]
    dsimp only
    rw [if_pos hc]
    refine (escape_spells q.multiline cs).bind ?_
    rintro e ⟨es, hes, hcs⟩
    refine (ih e).bind ?_
    rintro t ⟨text, htext, hrest⟩
    have hread : cs = es ++ (text ++ q.quotes ++ t.rest) := by
      rw [← hrest]
      exact hcs
    refine ⟨'\\' :: (es ++ text), .escape hc.2 hes htext, ?_⟩
    rw [hc.1, List.cons_append, List.cons_append, List.append_assoc es, List.append_assoc es]
    exact congrArg ('\\' :: ·) hread
  | case4 c cs hescape hc hnone ih =>
    rw [string.eq_def, hnone]
    dsimp only
    rw [if_neg hescape, if_pos hc]
    refine ih.bind ?_
    rintro t ⟨text, htext, hcs⟩
    refine ⟨c :: text, .char hescape (fun h => ?_) hc htext, congrArg (c :: ·) hcs⟩
    subst h
    exact multiline_of_closing?_eq_none hnone
  | case5 c cs hescape hc hnone =>
    rw [string.eq_def, hnone]
    dsimp only
    rw [if_neg hescape, if_neg hc]
    trivial

/-- A text is no shorter than what it spells. -/
theorem Spells.length_le (h : Spells q text value) : value.length ≤ text.length := by
  induction h with
  | nil => exact Nat.le_refl 0
  | char _ _ _ _ ih => exact Nat.succ_le_succ ih
  | escape _ he _ ih =>
    have := he.length_le
    simp only [List.length_cons, List.length_append]
    omega

/-- A string of one line holds no line feed. -/
theorem Spells.lineFeed_not_mem (h : Spells q text value) (hmark : q.mark ≠ '\n')
    (hmultiline : q.multiline = false) : '\n' ∉ text := by
  induction h with
  | nil => exact List.not_mem_nil
  | char _ _ hc _ ih =>
    refine List.not_mem_cons_of_ne_of_not_mem ?_ ih
    rintro rfl
    rcases hc with hc | hc
    · exact hmark hc.symm
    · rw [Quoting.admits, hmultiline] at hc
      exact absurd hc (by decide)
  | escape _ he _ ih =>
    rw [hmultiline] at he
    exact List.not_mem_cons_of_ne_of_not_mem (by decide)
      (List.not_mem_append he.lineFeed_not_mem ih)

/-! ## Texts that say themselves -/

/-- A character that stands for itself between double quotes on one line. -/
def IsVerbatim (c : Char) : Prop :=
  isPlain c = true ∧ c ≠ '"' ∧ c ≠ '\\'

instance : DecidablePred IsVerbatim :=
  fun _ => inferInstanceAs (Decidable (_ ∧ _))

/-- A text of such characters. -/
def Verbatim (s : List Char) : Prop :=
  ∀ c ∈ s, IsVerbatim c

instance (s : List Char) : Decidable (Verbatim s) :=
  List.decidableBAll IsVerbatim s

/-- Escapes are longer than what they give, so a text that is as long as what it says has none. -/
theorem Spells.verbatim (h : Spells ⟨'"', false⟩ text value)
    (hlength : text.length ≤ value.length) :
    text = value ∧ Verbatim value := by
  induction h with
  | nil => exact ⟨rfl, fun _ hc => absurd hc List.not_mem_nil⟩
  | @char c text value hescape hmark hc _ ih =>
    obtain ⟨rfl, hvalue⟩ := ih (Nat.le_of_succ_le_succ hlength)
    have hquote : c ≠ '"' := fun h => absurd (hmark h) (by decide)
    have hplain : isPlain c = true := by
      rcases hc with hc | hc
      · exact absurd hc hquote
      · simpa [Quoting.admits] using hc
    exact ⟨rfl, List.forall_mem_cons.2
      ⟨⟨hplain, hquote, fun h => hescape ⟨h, rfl⟩⟩, hvalue⟩⟩
  | escape _ he h _ =>
    have := he.length_le
    have := h.length_le
    simp only [List.length_cons, List.length_append] at hlength
    omega

/-- A verbatim text is read as itself, up to the quotation mark. -/
theorem string_verbatim {s : List Char} (h : Verbatim s) (rest : List Char) :
    Reads (string ⟨'"', false⟩ (s ++ '"' :: rest)) s rest := by
  induction s with
  | nil =>
    rw [List.nil_append, string.eq_def]
    simp [closing?, Reads]
  | cons c s ih =>
    obtain ⟨⟨hplain, hquote, hescape⟩, hs⟩ := List.forall_mem_cons.1 h
    obtain ⟨hshorter, hread⟩ := ih hs
    have hnone : closing? ⟨'"', false⟩ (c :: (s ++ '"' :: rest)) = none := by
      simp [closing?, hquote]
    rw [List.cons_append, string.eq_def, hnone]
    dsimp only
    rw [if_neg fun h => hescape h.1, if_pos (.inr (by simp [Quoting.admits, hplain])), hread]
    exact ⟨Nat.lt_succ_of_lt hshorter, rfl⟩

/-- What is read with its quotes stands on one line, or between three quotes on either side. -/
theorem quotedString_spells (cs : List Char) : Gives (quotedString '"' cs)
    (fun t => (∃ text, Spells ⟨'"', false⟩ text t.value ∧ cs = text ++ '"' :: t.rest) ∨
      ∃ text, t.value.length ≤ text.length ∧
        cs = '"' :: '"' :: text ++ ['"', '"', '"'] ++ t.rest) fun _ => True := by
  have hsingle : Gives (string ⟨'"', false⟩ cs)
      (fun t => ∃ text, Spells ⟨'"', false⟩ text t.value ∧ cs = text ++ '"' :: t.rest)
      fun _ => True := by
    refine (string_spells (by decide) cs).imp ?_
    rintro t ⟨text, htext, hcs⟩
    exact ⟨text, htext, by simpa [Quoting.quotes] using hcs⟩
  have hseveral : ∀ ds, Gives (string ⟨'"', true⟩ ds)
      (fun t => ∃ text, t.value.length ≤ text.length ∧ ds = text ++ ['"', '"', '"'] ++ t.rest)
      fun _ => True := by
    intro ds
    refine (string_spells (by decide) ds).imp ?_
    rintro t ⟨text, htext, hds⟩
    exact ⟨text, htext.length_le, hds⟩
  unfold quotedString
  split
  · next a b ds =>
    split
    · next hmarks =>
      rw [hmarks.1, hmarks.2]
      split
      · next t ht =>
        refine (hseveral t.rest).bind ?_
        rintro s ⟨text, hvalue, hrest⟩
        have hds : ds = '\n' :: (text ++ ['"', '"', '"'] ++ s.rest) := by
          rw [← hrest]
          exact mark?_eq_some ht
        exact .inr ⟨'\n' :: text, Nat.le_succ_of_le hvalue, congrArg ('"' :: '"' :: ·) hds⟩
      · refine (hseveral ds).bind ?_
        rintro s ⟨text, hvalue, hrest⟩
        exact .inr ⟨text, hvalue, congrArg ('"' :: '"' :: ·) hrest⟩
    · refine hsingle.bind fun t h => ?_
      exact Or.inl h
  · refine hsingle.bind fun t h => ?_
    exact Or.inl h

/-- **Only a verbatim text is read back.** If a text that is put between quotes on a line of its own
is read as a string that is not shorter, both are the same text, and it is verbatim. -/
theorem verbatim_of_quotedString {pasted : List Char}
    {t : Taken (List Char) ('"' :: (pasted ++ '"' :: '\n' :: rest))}
    (h : quotedString '"' (pasted ++ '"' :: '\n' :: rest) = .ok t)
    (hlength : pasted.length ≤ t.value.length) (hrest : ¬ ['"', '"', '"'] <:+: rest) :
    pasted = t.value ∧ Verbatim t.value := by
  rcases (quotedString_spells _).of_ok h with ⟨text, htext, hcs⟩ | ⟨text, hvalue, hcs⟩
  · have hfeed := htext.lineFeed_not_mem (by decide) rfl
    -- the string ends on its line, so not after the quote that was meant to close it
    have hshort : text.length ≤ pasted.length := by
      rcases List.append_eq_append_iff.1 hcs with ⟨more, htext, hmore⟩ | ⟨more, hpasted, -⟩
      · rcases more with _ | ⟨a, _ | ⟨b, more⟩⟩
        · exact Nat.le_of_eq (by rw [htext, List.append_nil])
        · cases hmore
        · have hb : '\n' = b := (List.cons.inj (List.cons.inj hmore).2).1
          rw [htext, ← hb] at hfeed
          simp at hfeed
      · rw [hpasted, List.length_append]
        exact Nat.le_add_right _ _
    obtain ⟨heq, hverbatim⟩ := htext.verbatim (Nat.le_trans hshort hlength)
    refine ⟨?_, hverbatim⟩
    rw [← heq]
    rw [← heq] at hlength
    exact List.append_inj_left hcs (Nat.le_antisymm hlength hshort)
  -- the string is too long to end before the closing quote, and after it there are no three quotes
  · refine absurd ?_ hrest
    have hline : pasted ++ ['"', '\n'] <+: pasted ++ '"' :: '\n' :: rest := ⟨rest, by simp⟩
    have hstart : '"' :: '"' :: text <+: pasted ++ '"' :: '\n' :: rest := by
      rw [hcs, List.append_assoc]
      exact List.prefix_append _ _
    obtain ⟨more, hmore⟩ := List.prefix_of_prefix_length_le hline hstart (by simp; omega)
    refine ⟨more, t.rest, ?_⟩
    rw [← hmore] at hcs
    simpa using hcs.symm

/-- So it is at the end of a line. -/
theorem quotedString_verbatim {s : List Char} (h : Verbatim s) (rest : List Char) :
    Reads (quotedString '"' (s ++ '"' :: '\n' :: rest)) s ('\n' :: rest) := by
  obtain ⟨hshorter, hread⟩ := string_verbatim h ('\n' :: rest)
  have hsingle : quotedString '"' (s ++ '"' :: '\n' :: rest) =
      (string ⟨'"', false⟩ (s ++ '"' :: '\n' :: rest)).map (·.after '"') := by
    cases s with
    | nil => rfl
    | cons c s =>
      have hc : c ≠ '"' := (h c List.mem_cons_self).2.1
      cases s with
      | nil => simp [quotedString, hc]; rfl
      | cons d s => simp [quotedString, hc]; rfl
  rw [hsingle, hread]
  exact ⟨Nat.lt_succ_of_lt hshorter, rfl⟩

end Clausal.Toml
