import Mathlib.Data.List.Perm.Subperm
import Clausal.Proofs.Check.Replay
import Clausal.Proofs.Check.Unused
import Clausal.Proofs.Emit.Code

/-!
# Functions that nothing calls

Clauses of new functions are inserted between the lines of a program (`Extension`). No line of the
program is about the new names, so a program that is accepted never comes to call them, and what
the clauses say does not matter: they may be ill typed or call functions that do not exist.

`program_ignores_unused`: the program with the new clauses is accepted too, with the same signatures
and the same module, and it is warned about as before and once more for each new name.

Three things see the new functions. The registration enters them among the others, and the check is
replayed there (`validate_extension`). The reports come in the order of first clauses, among which
the new ones stand (`firstClauses_extension`). Code generation skips them, since they have no
signature, and notes that in the journal, which is no warning (`emitFunctions_alike`).
-/

namespace Clausal

/-! ## Extensions of programs -/

/-- The lines with clauses inserted, at any places and in this order. -/
inductive Inserted : List Line → List Clause → List Line → Prop
  | nil : Inserted [] [] []
  | line {lines lines' : List Line} {added : List Clause} (l : Line) :
    Inserted lines added lines' → Inserted (l :: lines) added (l :: lines')
  | clause {lines lines' : List Line} {added : List Clause} (c : Clause) :
    Inserted lines added lines' → Inserted lines (c :: added) (.clause c :: lines')

namespace Program

/-- `p'` is `p` with clauses of new functions inserted: no line of `p` is about them, and they have
no names of the system. -/
structure Extension (p : Program) (added : List Clause) (p' : Program) : Prop where
  inserted : Inserted p.lines added p'.lines
  fresh : ∀ c ∈ added, ¬ SystemName c.name ∧ ¬ p.Names c.name

variable {p p' : Program} {added : List Clause}

/-- Whether a name is that of none of the clauses. -/
def isOld (added : List Clause) (f : String) : Bool :=
  f ∉ added.map (·.name)

/-- The name of an added clause is new. -/
theorem isOld_eq_false {c : Clause} (hc : c ∈ added) : isOld added c.name = false := by
  simpa [isOld] using ⟨c, hc, rfl⟩

namespace Extension

/-- The names of the program are old. -/
theorem isOld_of_names (h : p.Extension added p') {f : String} (hf : p.Names f) :
    isOld added f = true := by
  suffices hnew : f ∉ added.map (·.name) from decide_eq_true hnew
  rintro hmem
  obtain ⟨c, hc, rfl⟩ := List.mem_map.1 hmem
  exact (h.fresh c hc).2 hf

/-- The lines of the program have old names. -/
theorem isOld_of_mem_lines (h : p.Extension added p') {l : Line} (hl : l ∈ p.lines) :
    isOld added l.name = true :=
  h.isOld_of_names ⟨l, hl, rfl⟩

end Extension

end Program

namespace Inserted

variable {lines lines' : List Line} {added : List Clause} {q : String → Bool}

/-- Inserted clauses leave the signature lines as they are. -/
theorem decls (h : Inserted lines added lines') :
    lines'.filterMap Line.decl? = lines.filterMap Line.decl? := by
  induction h with
  | nil => rfl
  | line l _ ih => rw [List.filterMap_cons, List.filterMap_cons, ih]
  | clause c _ ih => rw [List.filterMap_cons_none rfl, ih]

/-- The lines are the old ones and the inserted clauses. -/
theorem mem_iff (h : Inserted lines added lines') {l : Line} :
    l ∈ lines' ↔ l ∈ lines ∨ ∃ c ∈ added, l = .clause c := by
  induction h with
  | nil => simp
  | line l' _ ih => rw [List.mem_cons, List.mem_cons, ih, or_assoc]
  | clause c _ ih =>
    rw [List.mem_cons, ih]
    simp only [List.mem_cons, exists_eq_or_imp]
    tauto

/-- The clauses with old names are the old ones, and those with new names the inserted ones. -/
theorem clauses (h : Inserted lines added lines') (hold : ∀ l ∈ lines, q l.name = true)
    (hnew : ∀ c ∈ added, q c.name = false) :
    (lines'.filterMap Line.clause?).filter (fun c => q c.name) = lines.filterMap Line.clause? ∧
      (lines'.filterMap Line.clause?).filter (fun c => !q c.name) = added := by
  induction h with
  | nil => exact ⟨rfl, rfl⟩
  | line l _ ih =>
    have hrest := ih (fun l' hl' => hold l' (List.mem_cons_of_mem _ hl')) hnew
    cases l with
    | decl d => exact hrest
    | clause c =>
      have hc : q c.name = true := hold _ List.mem_cons_self
      simpa [Line.clause?, hc] using hrest
  | clause c _ ih =>
    have hc : q c.name = false := hnew c List.mem_cons_self
    have hrest := ih hold fun c' hc' => hnew c' (List.mem_cons_of_mem _ hc')
    simpa [Line.clause?, hc] using hrest

end Inserted

namespace Program.Extension

variable {p p' : Program} {added : List Clause}

/-- An extension has the signature lines of the program. -/
theorem decls (h : p.Extension added p') : p'.decls = p.decls :=
  h.inserted.decls

/-- An extension names what the program names and the added functions. -/
theorem names_iff (h : p.Extension added p') {f : String} :
    p'.Names f ↔ p.Names f ∨ f ∈ added.map (·.name) := by
  unfold Names
  simp only [h.inserted.mem_iff, List.mem_map]
  constructor
  · rintro ⟨l, hl | ⟨c, hc, rfl⟩, rfl⟩
    · exact .inl ⟨l, hl, rfl⟩
    · exact .inr ⟨c, hc, rfl⟩
  · rintro (⟨l, hl, rfl⟩ | ⟨c, hc, rfl⟩)
    · exact ⟨l, .inl hl, rfl⟩
    · exact ⟨.clause c, .inr ⟨c, hc, rfl⟩, rfl⟩

/-- The clauses of an extension with old names are those of the program, and the others the added
ones. -/
theorem clauses (h : p.Extension added p') :
    p'.clauses.filter (fun c => isOld added c.name) = p.clauses ∧
      p'.clauses.filter (fun c => !isOld added c.name) = added :=
  h.inserted.clauses (fun _ hl => h.isOld_of_mem_lines hl) fun _ hc => isOld_eq_false hc

/-- A function of the program keeps its clauses. -/
theorem clausesOf (h : p.Extension added p') {f : String} (hf : isOld added f = true) :
    p'.clausesOf f = p.clausesOf f := by
  unfold Program.clausesOf
  rw [← h.clauses.1, List.filter_filter]
  refine List.filter_congr fun c _ => ?_
  by_cases hc : c.name = f
  · simp [hc, hf]
  · simp [hc]

/-- What can be registered can be with the added clauses. -/
theorem registrable (h : p.Extension added p') (hp : p.Registrable) : p'.Registrable where
  nodup := h.decls ▸ hp.nodup
  free l hl := by
    rcases h.inserted.mem_iff.1 hl with hl | ⟨c, hc, rfl⟩
    · exact hp.free l hl
    · exact (h.fresh c hc).1

end Program.Extension

/-! ## Checking -/

namespace Check

variable {p p' : Program} {added : List Clause} {s : State}

/-- The registration of a registrable program. -/
theorem exists_registered (hp : p.Registrable) :
    ∃ s, (do registerBuiltins; registerProgram p).run.run Compile.initial = (.ok (), s) ∧
      Entered p.decls p.clauses s ∧
      Listed (Builtin.signatures.names ++ p.decls.map (·.name) ++ p.clauses.map (·.name)) s := by
  have hspec := (register_spec p).and (register_listed p)
  rcases hrun : (do registerBuiltins; registerProgram p).run.run Compile.initial with ⟨e | a, s⟩
  · exact absurd hp (hspec.of_error hrun).1.1
  · obtain ⟨⟨-, hentered⟩, hlisted⟩ := hspec.of_ok hrun
    exact ⟨s, hrun, hentered, hlisted⟩

/-- Programs with the same declarations are registered alike but for the functions. -/
theorem Entered.among {s' : State} (h : Entered p.decls p.clauses s) (hj : s.journal = [])
    (h' : Entered p'.decls p'.clauses s') (hj' : s'.journal = []) (hdecls : p'.decls = p.decls) :
    s' = s.among s'.functions := by
  obtain ⟨builtins, functions, signatures, declared, validated, active, journal⟩ := s'
  unfold State.among
  rw [State.mk.injEq]
  refine ⟨?_, rfl, ?_, ?_, ?_, ?_, ?_⟩
  · rw [h.builtins]
    exact h'.builtins
  · rw [h.signatures, ← hdecls]
    exact h'.signatures
  · rw [h.declared, ← hdecls]
    exact h'.declared
  · rw [h.validated]
    exact h'.validated
  · rw [h.active]
    exact h'.active
  · rw [hj]
    exact hj'

/-- An extension has the functions of the program, with the same clauses. -/
theorem Entered.includes {s' : State} (hext : p.Extension added p')
    (h : Entered p.decls p.clauses s) (h' : Entered p'.decls p'.clauses s') :
    Includes s'.functions s.functions := by
  intro f clauses hf
  rw [h'.functions]
  rw [h.functions] at hf
  split at hf
  · next hb => rwa [if_pos hb]
  · next hb =>
    split at hf
    · next hn =>
      have hn := Program.names_iff.2 hn
      rw [if_neg hb, if_pos (Program.names_iff.1 (hext.names_iff.2 (.inl hn)))]
      exact (congrArg some (hext.clausesOf (hext.isOld_of_names hn))).trans hf
    · cases hf

/-- There are no fewer functions in a table that includes another. -/
theorem Includes.length_le {F functions : Assoc (List Clause)} (h : Includes F functions)
    (hnodup : functions.names.Nodup) : functions.length ≤ F.length := by
  have hsub : functions.names ⊆ F.names := fun f hf =>
    Assoc.has_iff_mem_names.1 (h.has (Assoc.has_iff_mem_names.2 hf))
  have hlen := (hnodup.subperm hsub).length_le
  rwa [Assoc.names, Assoc.names, List.length_map, List.length_map] at hlen

end Check

/-! ## First occurrences -/

/-- The first entries of each key can be picked before or after leaving keys out. -/
theorem filter_firstsBy {α : Type} {key : α → String} (q : String → Bool) (xs : List α) :
    (firstsBy key xs).filter (fun x => q (key x)) =
      firstsBy key (xs.filter fun x => q (key x)) := by
  induction xs with
  | nil => rfl
  | cons x xs ih =>
    rw [firstsBy]
    cases hx : q (key x) with
    | true =>
      rw [List.filter_cons_of_pos (by exact hx), List.filter_cons_of_pos (by exact hx), firstsBy,
        ← ih, List.filter_filter, List.filter_filter]
      simp only [Bool.and_comm]
    | false =>
      -- an element with the key of `x` is dropped either way
      rw [List.filter_cons_of_neg (by simp [hx]), List.filter_cons_of_neg (by simp [hx]), ← ih,
        List.filter_filter]
      refine List.filter_congr fun y _ => ?_
      by_cases hy : key y = key x
      · simp [hy, hx]
      · simp [hy]

namespace Check

/-- **An extension of a program is checked alike.** The table is the same, and the journals differ
in the reports only, which are those on the first clauses of functions without a signature. -/
theorem validate_extension {p p' : Program} {added : List Clause} {table : SignatureTable}
    {t : State} (hp : p.Extension added p')
    (h : (validate p).run.run Compile.initial = (.ok table, t)) :
    ∃ j t', (validate p').run.run Compile.initial = (.ok table, t') ∧
      t.journal = j ++ (p.firstClauses.filter fun c => !table.has c.name).map unusedEvent ∧
      t'.journal = j ++ (p'.firstClauses.filter fun c => !table.has c.name).map unusedEvent := by
  have haccepted := (validate_accepted p).of_ok h
  obtain ⟨s, hregister, hs, hlisted⟩ := exists_registered haccepted.registrable
  obtain ⟨s', hregister', hs', hlisted'⟩ := exists_registered (hp.registrable haccepted.registrable)
  have hincludes := hs.includes hp hs'
  have hnodup : s.functions.names.Nodup := hlisted.functions ▸ nodup_firstsBy_id _
  rw [hs.among hlisted.journal hs' hlisted'.journal hp.decls] at hregister'
  have hlines : ∀ q ∈ s.declared, s.functions.has q.2.name = true := by
    intro q hq
    rw [hs.declared] at hq
    obtain ⟨d, hd, rfl⟩ := List.mem_map.1 hq
    exact hs.has_functions_iff.2 (.inr (Program.names_iff.2 (.inl (List.mem_map.2 ⟨d, hd, rfl⟩))))
  obtain ⟨j, t', hrun, hjournal, hjournal'⟩ := validate_replays hregister hregister' hincludes
    (hincludes.length_le hnodup) hlines h
  have hbuiltin : ∀ f, Builtin.signatures.has f = true → table.has f = true := by
    intro f hf
    obtain ⟨sig, hsig⟩ := Option.isSome_iff_exists.1 hf
    exact Assoc.has_of_value? (haccepted.typing.builtins f sig hsig)
  have hdeclared : ∀ d ∈ p.decls, table.has d.name = true := fun d hd =>
    Assoc.has_of_value? (haccepted.typing.declared d hd)
  rw [hs.reports hlisted hbuiltin hdeclared] at hjournal
  rw [hs'.reports hlisted' hbuiltin (hp.decls ▸ hdeclared)] at hjournal'
  exact ⟨j, t', hrun, hjournal, hjournal'⟩

end Check

/-! ## Code generation -/

namespace Assoc

variable {α : Type} {q : String → Bool} {f : String}

/-- Leaving other names out does not change the value of a name. -/
theorem value?_filter (m : Assoc α) (hf : q f = true) :
    value? (m.filter fun x => q x.1) f = value? m f := by
  induction m with
  | nil => rfl
  | cons x m ih =>
    obtain ⟨k, y⟩ := x
    by_cases hk : q k = true
    · rw [List.filter_cons_of_pos (by exact hk), value?_cons, value?_cons, ih]
    · have hne : k ≠ f := fun h => hk (h ▸ hf)
      rw [List.filter_cons_of_neg (by exact hk), ih, value?_cons, if_neg hne]

/-- An entry under a name that stays can be made before or after the others are left out. -/
theorem filter_put_of_pos (m : Assoc α) (x : α) (hf : q f = true) :
    (m.put f x).filter (fun y => q y.1) = put (m.filter fun y => q y.1) f x := by
  induction m with
  | nil => simp [put, hf]
  | cons y m ih =>
    obtain ⟨k, y⟩ := y
    by_cases hkf : k = f
    · subst hkf
      simp [put, hf]
    · by_cases hk : q k = true
      · simp [put, hkf, hk, ih]
      · simp [put, hkf, hk, ih]

/-- An entry under a name that is left out does not matter. -/
theorem filter_put_of_neg (m : Assoc α) (x : α) (hf : q f = false) :
    (m.put f x).filter (fun y => q y.1) = m.filter fun y => q y.1 := by
  induction m with
  | nil => simp [put, hf]
  | cons y m ih =>
    obtain ⟨k, y⟩ := y
    by_cases hkf : k = f
    · subst hkf
      simp [put, hf]
    · simp [put, hkf, List.filter_cons, ih]

end Assoc

namespace Program

/-- One more line among the functions of a program. -/
def enter (m : Assoc (Span × List Clause)) (l : Line) : Assoc (Span × List Clause) :=
  m.put l.name (((m.value? l.name).getD (l.span, [])).1,
    ((m.value? l.name).getD (l.span, [])).2 ++ l.clause?.toList)

theorem functions_eq (p : Program) : p.functions = p.lines.foldl enter [] := rfl

end Program

/-- The functions with old names are those of the old lines, in the same order. -/
theorem Inserted.functions {lines lines' : List Line} {added : List Clause} {q : String → Bool}
    (h : Inserted lines added lines') (hold : ∀ l ∈ lines, q l.name = true)
    (hnew : ∀ c ∈ added, q c.name = false) (m : Assoc (Span × List Clause)) :
    (lines'.foldl Program.enter m).filter (fun x => q x.1) =
      lines.foldl Program.enter (m.filter fun x => q x.1) := by
  induction h generalizing m with
  | nil => rfl
  | line l _ ih =>
    have hl := hold l List.mem_cons_self
    have henter : (Program.enter m l).filter (fun x => q x.1) =
        Program.enter (m.filter fun x => q x.1) l := by
      unfold Program.enter
      rw [Assoc.filter_put_of_pos m _ hl, Assoc.value?_filter m hl]
    rw [List.foldl_cons, List.foldl_cons,
      ih (fun l' hl' => hold l' (List.mem_cons_of_mem _ hl')) hnew, henter]
  | clause c _ ih =>
    have henter : (Program.enter m (.clause c)).filter (fun x => q x.1) =
        m.filter fun x => q x.1 := Assoc.filter_put_of_neg m _ (hnew c List.mem_cons_self)
    rw [List.foldl_cons, ih hold fun c' hc' => hnew c' (List.mem_cons_of_mem _ hc'), henter]

/-- The old functions of an extension are those of the program, in order. -/
theorem Program.Extension.functions {p p' : Program} {added : List Clause}
    (h : p.Extension added p') :
    p'.functions.filter (fun x => isOld added x.1) = p.functions := by
  rw [functions_eq, functions_eq]
  exact h.inserted.functions (fun _ hl => h.isOld_of_mem_lines hl)
    (fun _ hc => isOld_eq_false hc) []

/-- Two steps of code generation that end alike: from journals with the same warnings they come to
the same result and to journals with the same warnings. -/
def Alike {α : Type} (m m' : EmitM α) : Prop :=
  ∀ j j' : Journal, j.warnings = j'.warnings →
    (m.run.run j).1 = (m'.run.run j').1 ∧ (m.run.run j).2.warnings = (m'.run.run j').2.warnings

namespace Alike

variable {α β : Type} {m m' : EmitM α}

theorem pure (a : α) : Alike (Pure.pure a) (Pure.pure a) := fun _ _ h => ⟨rfl, h⟩

theorem throw (e : Stop) : Alike (throw e : EmitM α) (MonadExcept.throw e) := fun _ _ h => ⟨rfl, h⟩

/-- A lifted result leaves the journal alone. -/
theorem liftM (x : Except Stop α) : Alike (liftM x) (MonadLiftT.monadLift x) := by
  intro j j' h
  cases x <;> exact ⟨rfl, h⟩

/-- Steps that are alike, one after the other. -/
theorem bind {f f' : α → EmitM β} (h : Alike m m') (hf : ∀ a, Alike (f a) (f' a)) :
    Alike (m >>= f) (m' >>= f') := by
  intro j j' hj
  obtain ⟨hresult, hwarnings⟩ := h j j' hj
  rw [run_bind, run_bind]
  rcases hrun : m.run.run j with ⟨e | a, k⟩ <;> rcases hrun' : m'.run.run j' with ⟨e' | a', k'⟩ <;>
    rw [hrun, hrun'] at hresult hwarnings
  · cases hresult
    exact ⟨rfl, hwarnings⟩
  · cases hresult
  · cases hresult
  · cases hresult
    exact hf a k k' hwarnings

/-- Adding an event to two journals with the same warnings. -/
theorem record (e : Event) : Alike (Dispatch.record e) (Dispatch.record e) := by
  intro j j' hj
  refine ⟨rfl, ?_⟩
  show Journal.warnings (j ++ [e]) = Journal.warnings (j' ++ [e])
  rw [Check.warnings_append, Check.warnings_append, hj]

/-- An event that is no warning may be missing. -/
theorem record_bind {e : Event} (he : e.warning? = none) {f : PUnit → EmitM α}
    (h : Alike m (f ⟨⟩)) : Alike m (Dispatch.record e >>= f) := by
  intro j j' hj
  have hquiet : Journal.warnings (j' ++ [e]) = j'.warnings := by
    rw [Check.warnings_append, show Journal.warnings [e] = [] from List.filterMap_cons_none he,
      List.append_nil]
  rw [run_bind]
  exact h j (j' ++ [e]) (hj.trans hquiet.symm)

end Alike

namespace Dispatch

/-- Making a body does not look at the journal. -/
theorem body_alike (table : SignatureTable) (name : String) (clauses : List Clause)
    (sig : Signature) (span : Option Span) :
    Alike (body table name clauses sig span) (body table name clauses sig span) := by
  unfold body
  split
  · exact .throw _
  · next split _ =>
    have hdropped : ∀ cs : List Clause, Alike (cs.forM fun c => record (.unreachable name c.span))
        (cs.forM fun c => record (.unreachable name c.span)) := by
      intro cs
      induction cs with
      | nil => exact .pure _
      | cons c cs ih => exact (Alike.record _).bind fun _ => ih
    refine (hdropped _).bind fun _ => (Alike.liftM _).bind fun otherwise => ?_
    exact (Alike.liftM _).bind fun code => (Alike.record _).bind fun _ => .pure code

/-- Nor does making a function. -/
theorem function_alike (table : SignatureTable) (name : String) (clauses : List Clause)
    (span : Option Span) :
    Alike (function table name clauses span) (function table name clauses span) := by
  unfold function
  split
  · exact .throw _
  · next sig _ => exact (body_alike table name clauses sig span).bind fun code => .pure _

end Dispatch

namespace Compile

/-- Functions without a signature do not matter. -/
theorem emitFunctions_alike {table : SignatureTable} {q : String → Bool}
    {fs : List (String × Span × List Clause)}
    (h : ∀ f ∈ fs, q f.1 = false → table.has f.1 = false) :
    Alike (emitFunctions table (fs.filter fun f => q f.1)) (emitFunctions table fs) := by
  induction fs with
  | nil => exact .pure _
  | cons f fs ih =>
    have hrest := ih fun g hg => h g (List.mem_cons_of_mem _ hg)
    obtain ⟨name, span, clauses⟩ := f
    cases hq : q name with
    | true =>
      rw [List.filter_cons_of_pos (by exact hq), emitFunctions, emitFunctions]
      split
      · refine (Dispatch.function_alike table name clauses span).bind fun g => ?_
        exact hrest.bind fun gs => .pure _
      · exact (Alike.record _).bind fun _ => hrest
    | false =>
      have hnone : ¬ table.has name = true := by simp [h _ List.mem_cons_self hq]
      rw [List.filter_cons_of_neg (by simp [hq]), emitFunctions, if_neg hnone]
      exact .record_bind rfl hrest

/-- An extension has the same code, if the added functions have no signature. -/
theorem emit_alike {p p' : Program} {added : List Clause} (hp : p.Extension added p')
    {table : SignatureTable} (h : ∀ c ∈ added, table.has c.name = false) :
    Alike (emit p table) (emit p' table) := by
  have hfunctions : Alike (emitFunctions table p.functions) (emitFunctions table p'.functions) := by
    rw [← hp.functions]
    refine emitFunctions_alike fun f _ hf => ?_
    obtain ⟨c, hc, hname⟩ : ∃ c ∈ added, c.name = f.1 := by simpa [Program.isOld] using hf
    exact hname ▸ h c hc
  exact hfunctions.bind fun user => .pure _

/-! ## Compilation -/

/-- The warning about a function that is never used, at its first clause. -/
def unusedWarning (c : Clause) : Diagnostic :=
  .warning "W300" ("function '" ++ c.name ++ "' is never used") c.span

/-- The reports of unused functions are warnings. -/
theorem warnings_unused (cs : List Clause) :
    Journal.warnings (cs.map Check.unusedEvent) = cs.map unusedWarning := by
  unfold Journal.warnings
  rw [List.filterMap_map, ← List.filterMap_eq_map]
  rfl

/-- The functions to warn about in an extension: those of the program, in their order, and among
them the new ones. -/
theorem firstClauses_extension {p p' : Program} {added : List Clause} (hp : p.Extension added p')
    {table : SignatureTable} (h : ∀ c ∈ added, table.has c.name = false) :
    (p.firstClauses.filter fun c => !table.has c.name).Sublist
        (p'.firstClauses.filter fun c => !table.has c.name) ∧
      (p'.firstClauses.filter fun c => !table.has c.name).Perm
        ((p.firstClauses.filter fun c => !table.has c.name) ++ firstsBy (·.name) added) := by
  have hold : (p'.firstClauses.filter fun c => !table.has c.name).filter
      (fun c => Program.isOld added c.name) = p.firstClauses.filter fun c => !table.has c.name := by
    rw [List.filter_comm]
    unfold Program.firstClauses
    rw [filter_firstsBy, hp.clauses.1]
  have hnew : (p'.firstClauses.filter fun c => !table.has c.name).filter
      (fun c => !Program.isOld added c.name) = firstsBy (·.name) added := by
    rw [List.filter_comm]
    unfold Program.firstClauses
    rw [filter_firstsBy fun f => !Program.isOld added f, hp.clauses.2]
    refine List.filter_eq_self.2 fun c hc => ?_
    rw [h c (mem_of_mem_firstsBy hc)]
    rfl
  constructor
  · rw [← hold]
    exact List.filter_sublist
  · rw [← hold, ← hnew]
    exact (List.filter_append_perm _ _).symm

/-- A check that returns and a code generation that does make a compilation. -/
theorem program_of_steps {p : Program} {table : SignatureTable} {t : Check.State}
    {code : Wasm.Module} {k : Journal}
    (hcheck : (Check.validate p).run.run initial = (.ok table, t))
    (hemit : (emit p table).run.run [] = (.ok code, k)) :
    program p = (.ok ⟨p, code, table, (t.journal ++ k).warnings⟩, t.journal ++ k) := by
  unfold program
  rw [hcheck]
  dsimp only
  rw [hemit]

/-- The same clauses compile to the same code, and with the same warnings. -/
theorem emit_extension {p p' : Program} {added : List Clause} (hp : p.Extension added p')
    {table : SignatureTable} (h : ∀ c ∈ added, table.has c.name = false) {code : Wasm.Module}
    {k : Journal} (hemit : (emit p table).run.run [] = (.ok code, k)) :
    ∃ k' : Journal, (emit p' table).run.run [] = (.ok code, k') ∧ k'.warnings = k.warnings := by
  obtain ⟨hcode, hwarnings⟩ := emit_alike hp h [] [] rfl
  rw [hemit] at hcode hwarnings
  exact ⟨((emit p' table).run.run []).2, Prod.ext hcode.symm rfl, hwarnings.symm⟩

/-- **Functions that nothing calls do not influence the output.** Clauses of new functions may be
inserted anywhere into a program that compiles: the result compiles too, to the same module and with
the same signatures. Its diagnostics are those of the program, in their order, and one more for each
new name. -/
theorem program_ignores_unused {p p' : Program} {added : List Clause} {out : Output} {j : Journal}
    (hp : p.Extension added p') (h : program p = (.ok out, j)) :
    ∃ out' j', program p' = (.ok out', j') ∧ out'.program = p' ∧ out'.code = out.code ∧
      out'.signatures = out.signatures ∧ out.diagnostics.Sublist out'.diagnostics ∧
      out'.diagnostics.Perm (out.diagnostics ++ (firstsBy (·.name) added).map unusedWarning) := by
  obtain ⟨⟨t, hcheck⟩, k, hemit⟩ := program_steps h
  have hunsigned : ∀ c ∈ added, out.signatures.has c.name = false := by
    intro c hc
    obtain ⟨hsystem, hnames⟩ := hp.fresh c hc
    have hscope := ((Check.validate_accepted p).of_ok hcheck).scope c.name
    rw [Bool.eq_false_iff]
    exact fun hhas => (hscope hhas).elim (fun hb => hsystem (.inl hb)) hnames
  obtain ⟨j₀, t', hcheck', hjournal, hjournal'⟩ := Check.validate_extension hp hcheck
  obtain ⟨k', hemit', hwarnings⟩ := emit_extension hp hunsigned hemit
  obtain ⟨hsublist, hperm⟩ := firstClauses_extension hp hunsigned
  have hdiagnostics : out.diagnostics = (t.journal ++ k).warnings := by
    rw [program_of_steps hcheck hemit] at h
    exact (congrArg Output.diagnostics (Except.ok.inj (congrArg Prod.fst h))).symm
  refine ⟨_, _, program_of_steps hcheck' hemit', rfl, rfl, rfl, ?_⟩
  rw [hdiagnostics, hjournal, hjournal']
  simp only [Check.warnings_append, warnings_unused, hwarnings]
  refine ⟨((hsublist.map _).append_left _).append_right _, ?_⟩
  refine (((hperm.map unusedWarning).append_left _).append_right _).trans ?_
  simp only [List.map_append, List.append_assoc]
  exact (List.perm_append_comm.append_left _).append_left _

/-- Clauses of two functions, of which one is ill typed and calls a function that does not exist,
and the other calls itself only. -/
def ghosts : List Clause :=
  let on (row : Nat) : Span := ⟨"house", row, 1, row, 1⟩
  let call (row : Nat) (f : String) (args : List Expr) : Expr := .call f args (on row)
  [⟨"ghost", [.lit (.bool true) (on 1)],
      .binary (call 1 "ghost" []) .add (.lit (.bool true) (on 1)) (on 1), on 1⟩,
    ⟨"ghost", [.name "n" (on 3)], call 3 "nowhere" [call 3 "n" []], on 3⟩,
    ⟨"shade", [], call 5 "shade" [], on 5⟩]

/-- A program with an unused function that calls `ghost`, without and with the clauses. -/
def house (haunted : Bool) : Program where
  file := "house"
  lines :=
    let on (row : Nat) : Span := ⟨"house", row, 1, row, 1⟩
    let main : Line := .clause ⟨"main", [], .lit (.int 7) (on 2), on 2⟩
    let idle : Line := .clause ⟨"idle", [], .call "ghost" [] (on 4), on 4⟩
    match haunted, ghosts with
    | true, [g, g', h] => [.clause g, main, .clause g', idle, .clause h]
    | _, _ => [main, idle]

/-- The second house has the ghosts in addition. -/
theorem house_extension : (house false).Extension ghosts (house true) where
  inserted := .clause _ (.line _ (.clause _ (.line _ (.clause _ .nil))))
  fresh := by decide +kernel

/-- The ghosts change nothing but the warnings. -/
theorem program_ignores_unused_house :
    (house false).Extension ghosts (house true) ∧
      ∃ out j, program (house false) = (.ok out, j) ∧
        ∃ out' j', program (house true) = (.ok out', j') ∧ out'.program = house true ∧
          out'.code = out.code ∧ out'.signatures = out.signatures ∧
          out.diagnostics.Sublist out'.diagnostics ∧
          out'.diagnostics.Perm (out.diagnostics ++
            [.warning "W300" "function 'ghost' is never used" (some ⟨"house", 1, 1, 1, 1⟩),
              .warning "W300" "function 'shade' is never used" (some ⟨"house", 5, 1, 5, 1⟩)]) := by
  have haccepted : (program (house false)).1.toOption.isSome = true := by decide +kernel
  obtain ⟨out, hout⟩ := Option.isSome_iff_exists.1 haccepted
  have h := run_eq_of_toOption hout
  exact ⟨house_extension, out, _, h, program_ignores_unused house_extension h⟩

end Compile

end Clausal
