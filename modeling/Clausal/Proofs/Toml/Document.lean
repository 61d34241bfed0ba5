import Clausal.Proofs.Toml.Strings
import Clausal.Toml.Document

/-!
# Reading documents of TOML

What a document has defined stays defined: whatever is read afterwards, a value that the tables of a
key lead to is still there at the end (`lines_grows`). So the first value of a key is the only one.

The equations for the lines of a document (`lines_headerLine`, `lines_settingLine`) take one line
off a text: a header, or a name without quotes with a text that is known to be a value (`Writes`).
-/

namespace Clausal.Text

/-! ## Line ends -/

variable {c : Char} {cs : List Char}

/-- A character that does not start a pair of `\r` and `\n` stays. -/
theorem joinBreaks_cons (h : c = '\r' → cs.head? ≠ some '\n') :
    joinBreaks (c :: cs) = c :: joinBreaks cs := by
  rw [joinBreaks]
  rintro rest rfl rfl
  exact h rfl rfl

/-- Joining line breaks never makes a text longer. -/
theorem length_joinBreaks_le (cs : List Char) : (joinBreaks cs).length ≤ cs.length := by
  fun_induction joinBreaks cs with
  | case1 => exact Nat.le_refl 0
  | case2 cs ih => exact Nat.le_succ_of_le (Nat.succ_le_succ ih)
  | case3 c cs _ ih => exact Nat.succ_le_succ ih

/-- Text without `\r` in front of other text is left alone. -/
theorem joinBreaks_append_of_not_mem (h : '\r' ∉ cs) (ds : List Char) :
    joinBreaks (cs ++ ds) = cs ++ joinBreaks ds := by
  induction cs with
  | nil => rfl
  | cons c cs ih =>
    have hc : c ≠ '\r' := (List.ne_of_not_mem_cons h).symm
    rw [List.cons_append, joinBreaks_cons fun heq => absurd heq hc,
      ih (List.not_mem_of_not_mem_cons h), List.cons_append]

/-- A text without `\r` has no breaks to join. -/
theorem joinBreaks_eq_self (h : '\r' ∉ cs) : joinBreaks cs = cs := by
  simpa [joinBreaks] using joinBreaks_append_of_not_mem h []

/-- A text can be cut before any character but `\n`, and its parts joined one by one. -/
theorem joinBreaks_append_cons (hc : c ≠ '\n') (cs ds : List Char) :
    joinBreaks (cs ++ c :: ds) = joinBreaks cs ++ joinBreaks (c :: ds) := by
  fun_induction joinBreaks cs with
  | case1 => rfl
  | case2 cs ih => exact congrArg ('\n' :: ·) ih
  | case3 b cs hb ih =>
    rw [List.cons_append, joinBreaks_cons, ih, List.cons_append]
    rintro rfl hhead
    cases cs with
    | nil => exact hc (Option.some.inj hhead)
    | cons a cs =>
      cases hhead
      exact hb cs rfl rfl

end Clausal.Text

namespace Clausal.Toml

variable {es es' : Entries} {f : Entries → Except Fault Entries} {n : Node} {name word : String}
  {v : Value} {text rest : List Char}

/-! ## Values that stay -/

namespace Entries

/-- The tables of a path lead to a value. -/
def Holds (last : String) (v : Value) : List String → Entries → Prop
  | [], es => es.value? last = some (.value v)
  | name :: path, es =>
    ∃ part? inner, es.value? name = some (.table part? inner) ∧ Holds last v path inner

/-- The values of some entries are among other ones. -/
def Grows (es es' : Entries) : Prop :=
  ∀ last v path, Holds last v path es → Holds last v path es'

theorem Grows.refl (es : Entries) : Grows es es :=
  fun _ _ _ h => h

theorem Grows.trans {es'' : Entries} (h : Grows es es') (h' : Grows es' es'') : Grows es es'' :=
  fun last v path hv => h' last v path (h last v path hv)

/-- Values stay if a name is given a new meaning that keeps those below it. -/
theorem grows_put (hvalue : ∀ v, es.value? name ≠ some (.value v))
    (htable : ∀ part? inner, es.value? name = some (.table part? inner) →
      ∃ part?' inner', n = .table part?' inner' ∧ Grows inner inner') :
    Grows es (es.put name n) := by
  intro last v path h
  cases path with
  | nil =>
    have hne : name ≠ last := fun heq => hvalue v (heq ▸ h)
    rw [Holds, Assoc.value?_put, if_neg hne]
    exact h
  | cons first path =>
    obtain ⟨part?, inner, hfirst, hinner⟩ := h
    by_cases heq : name = first
    · subst heq
      obtain ⟨part?', inner', rfl, hgrows⟩ := htable part? inner hfirst
      exact ⟨part?', inner', by rw [Assoc.value?_put, if_pos rfl], hgrows last v path hinner⟩
    · exact ⟨part?, inner, by rw [Assoc.value?_put, if_neg heq]; exact hfirst, hinner⟩

/-- An entry under a new name leaves the others as they are. -/
theorem grows_put_new (h : es.value? name = none) : Grows es (es.put name n) := by
  refine grows_put (fun v hv => ?_) fun part? inner hinner => ?_
  · cases h.symm.trans hv
  · cases h.symm.trans hinner

/-- A table may be replaced by one that has grown. -/
theorem grows_put_table {part? part?' : Option Nat} {inner inner' : Entries}
    (h : es.value? name = some (.table part? inner)) (hgrows : Grows inner inner') :
    Grows es (es.put name (.table part?' inner')) := by
  refine grows_put (fun v hv => ?_) fun part? inner hinner => ?_
  · cases h.symm.trans hv
  · cases h.symm.trans hinner
    exact ⟨part?', inner', rfl, hgrows⟩

/-- An array of tables may be replaced by anything: no path of tables leads into it. -/
theorem grows_put_tables {done : List Table} {inner : Entries}
    (h : es.value? name = some (.tables done inner)) : Grows es (es.put name n) := by
  refine grows_put (fun v hv => ?_) fun part? inner hinner => ?_
  · cases h.symm.trans hv
  · cases h.symm.trans hinner

/-- A change of a table that leaves all values in it. -/
def Conserves (f : Entries → Except Fault Entries) : Prop :=
  ∀ es, Gives (f es) (Grows es) fun _ => True

/-- What keeps values keeps them at the end of a path of tables as well. -/
theorem conserves_under (h : Conserves f) (path : List String) : Conserves (under f path) := by
  induction path with
  | nil => exact h
  | cons name path ih =>
    intro es
    rw [under]
    split
    · next hnew => exact (ih []).bind fun _ _ => grows_put_new hnew
    · next hinner => exact (ih _).bind fun _ hgrows => grows_put_table hinner hgrows
    · next hinner => exact (ih _).bind fun _ _ => grows_put_tables hinner
    · trivial

/-- What keeps values keeps them at the end of a dotted key as well. -/
theorem conserves_within (h : Conserves f) (part : Nat) (path : List String) :
    Conserves (within part f path) := by
  induction path with
  | nil => exact h
  | cons name path ih =>
    intro es
    rw [within]
    split
    · next hnew => exact (ih []).bind fun _ _ => grows_put_new hnew
    · next hinner =>
      split
      · exact (ih _).bind fun _ hgrows => grows_put_table hinner hgrows
      · trivial
    · trivial
    · trivial

/-- A value is added under a new name only. -/
theorem conserves_addValue (name : String) (v : Value) : Conserves (addValue name v) := by
  intro es
  rw [addValue]
  split
  · trivial
  · next hnew => exact grows_put_new (by simpa [Assoc.has] using hnew)

/-- Opening a table keeps what is in it already. -/
theorem conserves_openHere (part : Nat) (name : String) : Conserves (openHere part name) := by
  intro es
  rw [openHere]
  split
  · next hnew => exact grows_put_new hnew
  · next hinner => exact grows_put_table hinner (.refl _)
  · trivial

/-- A further table of an array keeps the values around it. -/
theorem conserves_appendHere (name : String) : Conserves (appendHere name) := by
  intro es
  rw [appendHere]
  split
  · next hnew => exact grows_put_new hnew
  · next hinner => exact grows_put_tables hinner
  · trivial

/-- Finishing a draft keeps its names, with each node finished. -/
theorem value?_finish (es : Entries) (name : String) :
    es.finish.value? name = (es.value? name).map Node.finish := by
  induction es with
  | nil => rfl
  | cons e es ih =>
    obtain ⟨k, n⟩ := e
    show Assoc.value? ((k, n.finish) :: finish es) name = _
    rw [Assoc.value?_cons, Assoc.value?_cons, ih]
    split <;> rfl

end Entries

open Entries

namespace Draft

/-- A setting keeps all values of the draft. -/
theorem define_grows (d : Draft) (k : Key) (v : Value) :
    Gives (d.define k v) (fun d' => d.entries.Grows d'.entries) fun _ => True :=
  (conserves_under (conserves_within (conserves_addValue k.last v) d.part k.path) d.header
    d.entries).bind fun _ h => h

/-- A table header keeps all values of the draft. -/
theorem openTable_grows (d : Draft) (k : Key) :
    Gives (d.openTable k) (fun d' => d.entries.Grows d'.entries) fun _ => True :=
  (conserves_under (conserves_openHere (d.part + 1) k.last) k.path d.entries).bind fun _ h => h

/-- The header of a table in an array keeps all values of the draft. -/
theorem appendTable_grows (d : Draft) (k : Key) :
    Gives (d.appendTable k) (fun d' => d.entries.Grows d'.entries) fun _ => True :=
  (conserves_under (conserves_appendHere k.last) k.path d.entries).bind fun _ h => h

end Draft

/-- Reading a setting keeps all values of the draft. -/
theorem pair_grows (d : Draft) (cs : List Char) :
    Gives (pair d cs) (fun t => d.entries.Grows t.value.entries) fun _ => True := by
  refine Gives.any.bind fun k _ => ?_
  split
  · trivial
  · exact Gives.any.bind fun v _ => (d.define_grows k.value v.value).bind fun _ h => h

/-- Reading a table header keeps all values of the draft. -/
theorem tableHeader_grows (d : Draft) (cs : List Char) :
    Gives (tableHeader d cs) (fun t => d.entries.Grows t.value.entries) fun _ => True := by
  refine Gives.any.bind fun k _ => ?_
  split
  · trivial
  · exact (d.openTable_grows k.value).bind fun _ h => h

/-- Reading the header of a table in an array keeps all values of the draft. -/
theorem arrayHeader_grows (d : Draft) (cs : List Char) :
    Gives (arrayHeader d cs) (fun t => d.entries.Grows t.value.entries) fun _ => True := by
  refine Gives.any.bind fun k _ => ?_
  split
  · trivial
  · split
    · trivial
    · exact (d.appendTable_grows k.value).bind fun _ h => h

/-- Reading any statement keeps all values of the draft. -/
theorem statement_grows (d : Draft) (cs : List Char) :
    Gives (statement d cs) (fun s => d.entries.Grows s.value.entries) fun _ => True := by
  unfold statement
  split
  · exact (arrayHeader_grows d _).bind fun _ h => h
  · exact (tableHeader_grows d _).bind fun _ h => h
  · split
    · exact (pair_grows d _).bind fun _ h => h
    · exact Grows.refl _
  · exact Grows.refl _

/-- **What is defined stays defined.** -/
theorem lines_grows (d : Draft) (cs : List Char) :
    Gives (lines d cs) (fun d' => d.entries.Grows d'.entries) fun _ => True := by
  induction d, cs using lines.induct with
  | case1 d cs ih =>
    rw [lines]
    refine (statement_grows d (skipSpace cs)).bind fun s hs => ?_
    refine Gives.any.bind fun t? _ => ?_
    cases t? with
    | none => exact hs
    | some t => exact (ih s t).imp fun _ h => hs.trans h

/-! ## One line after the other -/

/-- A name that needs no quotes. -/
def IsBareWord (word : String) : Prop :=
  word.toList ≠ [] ∧ word.toList.all isBare = true

instance (word : String) : Decidable (IsBareWord word) :=
  inferInstanceAs (Decidable (_ ∧ _))

/-- A bare word has a first character, and all its characters are bare. -/
theorem IsBareWord.exists_cons (h : IsBareWord word) :
    ∃ c cs, word.toList = c :: cs ∧ isBare c = true ∧ ∀ c ∈ cs, isBare c = true := by
  obtain ⟨hne, hbare⟩ := h
  cases hword : word.toList with
  | nil => exact absurd hword hne
  | cons c cs =>
    rw [hword, List.all_eq_true] at hbare
    exact ⟨c, cs, rfl, List.forall_mem_cons.1 hbare⟩

/-- A bare character is none of those that are not. -/
theorem isBare_ne {c d : Char} (hc : isBare c = true) (hd : isBare d = false) : c ≠ d := by
  rintro rfl
  cases hc.symm.trans hd

/-- A bare word does not start with a blank. -/
theorem IsBareWord.skipSpace_eq (h : IsBareWord word) (rest : List Char) :
    skipSpace (word.toList ++ rest) = word.toList ++ rest := by
  obtain ⟨c, cs, hword, hc, -⟩ := h.exists_cons
  have hspace : isSpace c = false := by
    simp [isSpace, isBare_ne hc (rfl : isBare ' ' = false),
      isBare_ne hc (rfl : isBare '\t' = false)]
  rw [hword]
  exact List.dropWhile_cons_of_neg (by simp [hspace])

/-- A bare word is read as a name up to the first character that is not bare. -/
theorem keyName_bare (hword : IsBareWord word) (hrest : rest.takeWhile isBare = []) :
    Reads (keyName (word.toList ++ rest)) word (skipSpace rest) := by
  obtain ⟨c, cs, hcs, hc, hbare⟩ := hword.exists_cons
  have hdrop : rest.dropWhile isBare = rest := by
    have h := rest.takeWhile_append_dropWhile (p := isBare)
    rwa [hrest] at h
  have := skipSpace_length_le rest
  rw [hcs, List.cons_append, keyName, if_pos hc, ← String.ofList_toList (s := word), hcs]
  simp [Reads, List.takeWhile_append_of_pos hbare, List.dropWhile_append_of_pos hbare, hrest,
    hdrop, Rest.allOf, Rest.afterFirst, Taken.beforeSpace]
  omega

/-- A bare word without a point after it is read as a key of one part. -/
theorem key_bare (hword : IsBareWord word) (hrest : rest.takeWhile isBare = [])
    (hpoint : mark? '.' (skipSpace rest) = none) :
    Reads (key (word.toList ++ rest)) ⟨[], word⟩ (skipSpace rest) := by
  obtain ⟨h, hname⟩ := keyName_bare hword hrest
  refine ⟨h, ?_⟩
  rw [key, hname]
  show (moreNames _ (skipSpace rest) >>= _) = _
  rw [moreNames, hpoint]
  rfl

/-- Reads the end of a line, and the lines after it. -/
def linesAfter (d : Draft) (cs : List Char) : Except Fault Draft := do
  match ← lineEnd cs with
  | none => return d
  | some t => lines d t.rest

/-- Reading lines is to read one statement, and to go on after it. -/
theorem lines_eq (d : Draft) (cs : List Char) :
    lines d cs = statement d (skipSpace cs) >>= fun s => linesAfter s.value s.rest := by
  rw [lines]
  refine bind_congr fun s => bind_congr fun t? => ?_
  cases t? <;> rfl

/-- What follows a statement keeps all values of the draft. -/
theorem linesAfter_grows (d : Draft) (cs : List Char) :
    Gives (linesAfter d cs) (fun d' => d.entries.Grows d'.entries) fun _ => True := by
  refine Gives.any.bind fun t? _ => ?_
  cases t? with
  | none => exact Grows.refl _
  | some t => exact lines_grows d t.rest

/-- At the end of the text the draft is what it is. -/
theorem lines_nil (d : Draft) : lines d [] = .ok d := by
  rw [lines_eq]
  rfl

/-- An empty line changes nothing. -/
theorem lines_blank (d : Draft) (rest : List Char) : lines d ('\n' :: rest) = lines d rest := by
  rw [lines_eq]
  rfl

/-- A line that starts with a bracket and a bare word is a table header. -/
theorem statement_header (hword : IsBareWord word) (d : Draft) (rest : List Char) :
    statement d ('[' :: (word.toList ++ rest)) =
      tableHeader d (word.toList ++ rest) >>= fun t => pure (t.after '[').weaken := by
  obtain ⟨c, cs, hcs, hc, -⟩ := hword.exists_cons
  simp [statement, hcs, isBare_ne hc (rfl : isBare '[' = false)]

/-- A line that starts with a bare word is a setting. -/
theorem statement_setting (hword : IsBareWord word) (d : Draft) (rest : List Char) :
    statement d (word.toList ++ rest) =
      pair d (word.toList ++ rest) >>= fun t => pure t.weaken := by
  obtain ⟨c, cs, hcs, hc, -⟩ := hword.exists_cons
  rw [hcs, List.cons_append]
  simp [statement, isKeyStart, hc, isBare_ne hc (rfl : isBare '[' = false)]

/-- The line of the header of a table. -/
def headerLine (word : String) : List Char :=
  '[' :: (word.toList ++ [']', '\n'])

/-- The line of a table header opens the table, and reading goes on with the next line. -/
theorem lines_headerLine (d : Draft) (hword : IsBareWord word) (rest : List Char) :
    lines d (headerLine word ++ rest) = d.openTable ⟨[], word⟩ >>= fun d' => lines d' rest := by
  obtain ⟨h, hkey⟩ : Reads (key (skipSpace (word.toList ++ ']' :: '\n' :: rest)))
      ⟨[], word⟩ (']' :: '\n' :: rest) := by
    rw [hword.skipSpace_eq]
    exact key_bare hword rfl rfl
  rw [headerLine, List.cons_append, List.append_assoc, lines_eq]
  show (statement d ('[' :: (word.toList ++ ']' :: '\n' :: rest)) >>= _) = _
  rw [statement_header hword, tableHeader, hkey]
  show ((d.openTable ⟨[], word⟩ >>= _) >>= _) >>= _ = _
  cases d.openTable ⟨[], word⟩ <;> rfl

/-- A line that starts with a name gives it the value after the sign. -/
theorem lines_setting (d : Draft) (hword : IsBareWord word) (cs : List Char) :
    lines d (word.toList ++ ' ' :: '=' :: ' ' :: cs) = value (skipSpace cs) >>= fun t =>
      d.define ⟨[], word⟩ t.value >>= fun d' => linesAfter d' t.rest := by
  obtain ⟨h, hkey⟩ : Reads (key (word.toList ++ ' ' :: '=' :: ' ' :: cs)) ⟨[], word⟩
      ('=' :: ' ' :: cs) := key_bare hword rfl rfl
  rw [lines_eq, hword.skipSpace_eq, statement_setting hword, pair, hkey]
  show ((value (skipSpace cs) >>= _) >>= _) >>= _ = _
  cases value (skipSpace cs) with
  | error f => rfl
  | ok t =>
    show ((d.define ⟨[], word⟩ t.value >>= _) >>= _) >>= _ = d.define ⟨[], word⟩ t.value >>= _
    cases d.define ⟨[], word⟩ t.value <;> rfl

/-- The value that a document gives a name stays to its end. -/
theorem exists_value_of_lines_setting {d d' : Draft} {cs : List Char} (hword : IsBareWord word)
    (h : lines d (word.toList ++ ' ' :: '=' :: ' ' :: cs) = .ok d') :
    ∃ t defined, value (skipSpace cs) = .ok t ∧ d.define ⟨[], word⟩ t.value = .ok defined ∧
      defined.entries.Grows d'.entries := by
  rw [lines_setting d hword] at h
  cases hvalue : value (skipSpace cs) with
  | error f =>
    rw [hvalue] at h
    cases h
  | ok t =>
    rw [hvalue] at h
    replace h : d.define ⟨[], word⟩ t.value >>= (fun d' => linesAfter d' t.rest) = .ok d' := h
    cases hdefine : d.define ⟨[], word⟩ t.value with
    | error f =>
      rw [hdefine] at h
      cases h
    | ok defined =>
      rw [hdefine] at h
      exact ⟨t, defined, rfl, hdefine, (linesAfter_grows defined t.rest).of_ok h⟩

/-! ## Values on a line -/

/-- A text is a value where a line ends after it. -/
def Writes (text : List Char) (v : Value) : Prop :=
  ∀ rest, Reads (value (skipSpace (text ++ '\n' :: rest))) v ('\n' :: rest)

/-- The line of a setting. -/
def settingLine (word : String) (text : List Char) : List Char :=
  word.toList ++ ' ' :: '=' :: ' ' :: (text ++ ['\n'])

/-- The line of a setting defines it, and reading goes on with the next line. -/
theorem lines_settingLine (d : Draft) (hword : IsBareWord word) (h : Writes text v)
    (rest : List Char) : lines d (settingLine word text ++ rest) =
      d.define ⟨[], word⟩ v >>= fun d' => lines d' rest := by
  obtain ⟨hshorter, hvalue⟩ := h rest
  have hline : settingLine word text ++ rest =
      word.toList ++ ' ' :: '=' :: ' ' :: (text ++ '\n' :: rest) := by
    simp [settingLine]
  rw [hline, lines_setting d hword, hvalue]
  rfl

/-- A text between quotes. -/
def between (s : List Char) : List Char :=
  '"' :: (s ++ ['"'])

/-- A value that starts with a quotation mark is a string. -/
theorem value_quoted (cs : List Char) : value ('"' :: cs) =
    quotedString '"' cs >>= fun t => pure (t.map fun s => .string (String.ofList s)) := by
  rw [value]
  rfl

/-- A text that stands for itself between quotation marks is written as a string. -/
theorem writes_string {s : String} (h : Verbatim s.toList) :
    Writes (between s.toList) (.string s) := by
  intro rest
  obtain ⟨hshorter, hread⟩ := quotedString_verbatim h rest
  rw [between, List.cons_append, List.append_assoc]
  show Reads (value ('"' :: (s.toList ++ '"' :: '\n' :: rest))) _ _
  rw [value_quoted, hread]
  refine ⟨hshorter, ?_⟩
  show Except.ok (Taken.mk (Value.string (String.ofList s.toList)) ('\n' :: rest) hshorter) = _
  rw [String.ofList_toList]

/-- Two brackets write the empty array. -/
theorem writes_emptyArray : Writes ['[', ']'] (.array []) := by
  intro rest
  show Reads (value ('[' :: ']' :: '\n' :: rest)) _ _
  rw [value, items]
  exact ⟨by simp, rfl⟩

theorem writes_four : Writes ['4'] (.integer 4) := by
  intro rest
  show Reads (value ('4' :: '\n' :: rest)) _ _
  rw [value]
  exact ⟨by simp, rfl⟩

theorem writes_false : Writes ['f', 'a', 'l', 's', 'e'] (.boolean false) := by
  intro rest
  show Reads (value ('f' :: 'a' :: 'l' :: 's' :: 'e' :: '\n' :: rest)) _ _
  rw [value]
  exact ⟨by simp, rfl⟩

end Clausal.Toml
