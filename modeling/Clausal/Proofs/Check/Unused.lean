import Mathlib.Data.List.Basic
import Clausal.Proofs.Check.Complete
import Clausal.Proofs.Check.Stops

/-!
# Functions that are never used

`validate_reports_unused`: a check that returns gives a signature to exactly the built-in, the
declared and the reachable functions, and it reports exactly the other functions that have clauses,
in the order of their first clauses.

The reports come in the order in which the functions were registered: the built-in ones, then the
declared ones, then the others as their first clauses come (`register_listed`). The first two kinds
have a signature and are never reported, so what remains is the order of the first clauses. No
other warning is in the journal, because checking calls never enters one (`validate_runs`).
-/

namespace Clausal

/-! ## First occurrences -/

section FirstsBy
variable {α β : Type} {key : α → String}

/-- The elements of a list whose key no element before them has, in order. -/
def firstsBy (key : α → String) : List α → List α
  | [] => []
  | x :: xs => x :: (firstsBy key xs).filter fun y => key y ≠ key x

/-- The first entries of each key are among the entries. -/
theorem mem_of_mem_firstsBy {x : α} {xs : List α} (h : x ∈ firstsBy key xs) : x ∈ xs := by
  induction xs with
  | nil => exact h
  | cons y ys ih =>
    rcases List.mem_cons.1 h with rfl | h
    · exact List.mem_cons_self
    · exact List.mem_cons_of_mem _ (ih (List.mem_filter.1 h).1)

/-- The keys of the first entries are the first of the keys. -/
theorem map_firstsBy (xs : List α) : (firstsBy key xs).map key = firstsBy id (xs.map key) := by
  induction xs with
  | nil => rfl
  | cons x xs ih =>
    rw [firstsBy, List.map_cons, List.map_cons, firstsBy, ← ih, List.filter_map]
    rfl

/-- An element whose key comes first is the first of all elements with that key. -/
theorem head?_filter_of_mem_firstsBy {x : α} {xs : List α} (h : x ∈ firstsBy key xs) :
    (xs.filter fun y => key y = key x).head? = some x := by
  induction xs with
  | nil => cases h
  | cons y ys ih =>
    rcases List.mem_cons.1 h with rfl | h
    · simp
    · obtain ⟨h, hne⟩ := List.mem_filter.1 h
      have hne : ¬ key y = key x := fun heq => of_decide_eq_true hne heq.symm
      rw [List.filter_cons_of_neg (by simpa using hne)]
      exact ih h

/-- Each name is among the first ones. -/
theorem mem_firstsBy_id {x : String} {xs : List String} : x ∈ firstsBy id xs ↔ x ∈ xs := by
  refine ⟨mem_of_mem_firstsBy, fun h => ?_⟩
  induction xs with
  | nil => exact h
  | cons y ys ih =>
    by_cases hxy : x = y
    · exact hxy ▸ List.mem_cons_self
    · have hx := ih ((List.mem_cons.1 h).resolve_left hxy)
      exact List.mem_cons_of_mem _ (List.mem_filter.2 ⟨hx, decide_eq_true hxy⟩)

/-- The first ones are all different. -/
theorem nodup_firstsBy_id (xs : List String) : (firstsBy id xs).Nodup := by
  induction xs with
  | nil => exact List.nodup_nil
  | cons x xs ih =>
    refine List.nodup_cons.2 ⟨fun h => ?_, ih.filter _⟩
    simpa using (List.mem_filter.1 h).2

/-- One more name comes last, unless it occurs already. -/
theorem firstsBy_id_snoc (xs : List String) (x : String) :
    firstsBy id (xs ++ [x]) = if x ∈ xs then firstsBy id xs else firstsBy id xs ++ [x] := by
  induction xs with
  | nil => rfl
  | cons y ys ih =>
    rw [List.cons_append, firstsBy, ih, firstsBy]
    by_cases hmem : x ∈ ys
    · rw [if_pos hmem, if_pos (List.mem_cons_of_mem _ hmem)]
    · by_cases hxy : x = y
      · rw [if_neg hmem, if_pos (hxy ▸ List.mem_cons_self), List.filter_append]
        simp [hxy]
      · rw [if_neg hmem, if_neg fun h => hmem ((List.mem_cons.1 h).resolve_left hxy),
          List.filter_append, List.cons_append]
        simp [hxy]

/-- Names of which nothing is wanted can be left out in front. -/
theorem filterMap_firstsBy_append {f : String → Option β} {xs : List String}
    (h : ∀ x ∈ xs, f x = none) (ys : List String) :
    (firstsBy id (xs ++ ys)).filterMap f = (firstsBy id ys).filterMap f := by
  induction xs with
  | nil => rfl
  | cons x xs ih =>
    rw [List.cons_append, firstsBy, List.filterMap_cons_none (h x List.mem_cons_self),
      ← ih fun y hy => h y (List.mem_cons_of_mem _ hy), List.filterMap_filter]
    refine List.filterMap_congr fun y _ => ?_
    by_cases hxy : y = x
    · rw [hxy, h x List.mem_cons_self]
      simp
    · simp [hxy]

end FirstsBy

/-- Giving names values in some order keeps the order of their first occurrences. -/
theorem Assoc.names_put_firstsBy {α : Type} {m : Assoc α} {names : List String}
    (h : m.names = firstsBy id names) (f : String) (x : α) :
    (m.put f x).names = firstsBy id (names ++ [f]) := by
  have hmem : m.has f = true ↔ f ∈ names := by
    rw [has_iff_mem_names, h, mem_firstsBy_id]
  rw [names_put, firstsBy_id_snoc, h]
  simp only [hmem]

/-- A map without repeated names is given by its names and their values. -/
theorem Assoc.eq_map_names {α : Type} {m : Assoc α} (h : m.names.Nodup) (default : α) :
    m = m.names.map fun f => (f, (m.value? f).getD default) := by
  have hpair : ∀ q ∈ m, (q.1, (m.value? q.1).getD default) = q := by
    rintro ⟨f, x⟩ hmem
    rw [(Assoc.value?_eq_some_iff h).2 hmem]
    rfl
  unfold Assoc.names
  rw [List.map_map]
  exact (List.map_id m).symm.trans (List.map_congr_left fun q hq => (hpair q hq).symm)

namespace Program

/-- The first clause of every function that has one, in order. -/
def firstClauses (p : Program) : List Clause :=
  firstsBy (·.name) p.clauses

/-- A first clause is the first clause of its function. -/
theorem head?_clausesOf {p : Program} {c : Clause} (h : c ∈ p.firstClauses) :
    (p.clausesOf c.name).head? = some c :=
  head?_filter_of_mem_firstsBy h

end Program

namespace Check

variable {s t : State}

/-! ## The order of registration -/

/-- The functions are registered in the order in which their names come. -/
structure Listed (names : List String) (s : State) : Prop where
  functions : s.functions.names = firstsBy id names
  journal : s.journal = []

/-- A signature line adds its name at the end, unless it is listed. -/
theorem registerDecl_listed {names : List String} {d : Decl} (h : Listed names s) :
    Ends (registerDecl d) s (fun _ t => Listed (names ++ [d.name]) t) fun _ _ => True := by
  unfold registerDecl
  rw [ends_bind, ends_get]
  split
  · trivial
  · unfold define
    rw [ends_bind, ends_bind, ends_get]
    split
    · exact ⟨Assoc.names_put_firstsBy h.functions d.name _, h.journal⟩
    · trivial

/-- So does a clause. -/
theorem registerClause_listed {names : List String} {c : Clause} (h : Listed names s) :
    Ends (registerClause c) s (fun _ t => Listed (names ++ [c.name]) t) fun _ _ => True := by
  unfold registerClause
  rw [ends_bind, ends_get]
  split
  · trivial
  · exact ⟨Assoc.names_put_firstsBy h.functions c.name _, h.journal⟩

/-- Functions are registered in order: built-in ones, declared ones, and those with clauses. -/
theorem register_listed (p : Program) :
    Ends (do registerBuiltins; registerProgram p) Compile.initial
      (fun _ s => Listed
        (Builtin.signatures.names ++ p.decls.map (·.name) ++ p.clauses.map (·.name)) s)
      fun _ _ => True := by
  have hbuiltins : Ends registerBuiltins Compile.initial
      (fun _ s => Listed (Builtin.signatures.names ++ [].map Decl.name) s) fun _ _ => True :=
    ⟨rfl, rfl⟩
  refine hbuiltins.bind fun _ s₀ h₀ => ?_
  unfold registerProgram
  refine Ends.bind (Ends.forM
    (I := fun ds s => Listed (Builtin.signatures.names ++ ds.map Decl.name) s) ?_ h₀)
    fun _ s₁ h₁ => ?_
  · intro ds d rest s _ h
    rw [List.map_append, ← List.append_assoc]
    exact registerDecl_listed h
  · refine Ends.forM (I := fun cs s => Listed
      (Builtin.signatures.names ++ p.decls.map (·.name) ++ cs.map Clause.name) s) ?_ ?_
    · intro cs c rest s _ h
      rw [List.map_append, ← List.append_assoc]
      exact registerClause_listed h
    · rwa [List.map_nil, List.append_nil]

/-! ## The reports -/

/-- The report on a function, by its first clause. -/
def unusedEvent (c : Clause) : Event :=
  .unused c.name c.span

/-- In a table with all built-in and declared functions, the reports are those on first clauses of
functions without a signature. -/
theorem Entered.reports {p : Program} {table : SignatureTable} (h : Entered p.decls p.clauses s)
    (hlisted : Listed
      (Builtin.signatures.names ++ p.decls.map (·.name) ++ p.clauses.map (·.name)) s)
    (hbuiltin : ∀ f, Builtin.signatures.has f = true → table.has f = true)
    (hdeclared : ∀ d ∈ p.decls, table.has d.name = true) :
    s.functions.filterMap (report? table) =
      (p.firstClauses.filter fun c => !table.has c.name).map unusedEvent := by
  have hknown : ∀ f ∈ Builtin.signatures.names ++ p.decls.map (·.name),
      report? table (f, p.clausesOf f) = none := by
    intro f hf
    have hhas : table.has f = true := by
      rcases List.mem_append.1 hf with hb | hmem
      · exact hbuiltin f (Assoc.has_iff_mem_names.2 hb)
      · obtain ⟨d, hd, rfl⟩ := List.mem_map.1 hmem
        exact hdeclared d hd
    unfold report?
    rw [if_pos hhas]
  have hfunctions : s.functions = s.functions.names.map fun f => (f, p.clausesOf f) := by
    refine (Assoc.eq_map_names (hlisted.functions ▸ nodup_firstsBy_id _) []).trans ?_
    exact List.map_congr_left fun f _ => congrArg (Prod.mk f) (h.clausesOf f)
  calc s.functions.filterMap (report? table)
      = s.functions.names.filterMap fun f => report? table (f, p.clausesOf f) := by
        conv_lhs => rw [hfunctions, List.filterMap_map]
        rfl
    _ = (firstsBy id (p.clauses.map (·.name))).filterMap
          fun f => report? table (f, p.clausesOf f) := by
        rw [hlisted.functions, filterMap_firstsBy_append hknown]
    _ = p.firstClauses.filterMap fun c => report? table (c.name, p.clausesOf c.name) := by
        rw [← map_firstsBy, List.filterMap_map]
        rfl
    _ = (p.firstClauses.filter fun c => !table.has c.name).map unusedEvent := by
        rw [← List.filterMap_eq_map, List.filterMap_filter]
        refine List.filterMap_congr fun c hc => ?_
        unfold report?
        rw [p.head?_clausesOf hc]
        cases table.has c.name <;> rfl

/-- Nothing that has happened is a warning. -/
def Quiet (s : State) : Prop :=
  s.journal.warnings = []

/-- The warnings of two journals are those of both. -/
theorem warnings_append (j j' : Journal) :
    Journal.warnings (j ++ j') = Journal.warnings j ++ Journal.warnings j' :=
  List.filterMap_append

/-- No step of a check warns. -/
theorem stable_quiet : Stable Quiet where
  checking c h := by
    unfold Quiet at h ⊢
    rw [warnings_append, h]
    rfl
  enter _ h := h
  leave h := h
  mark _ _ _ h := h
  infer name sig _ h := by
    unfold Quiet at h
    show Journal.warnings (_ ++ [.inferred name sig]) = []
    rw [warnings_append, h]
    rfl

/-- A check that returns has warned of the functions with a clause and without a signature, and of
nothing else. -/
theorem validate_warnings {p : Program} {table : SignatureTable}
    (h : (validate p).run.run Compile.initial = (.ok table, t)) :
    t.journal.warnings = (p.firstClauses.filter fun c => !table.has c.name).map fun c =>
      .warning "W300" ("function '" ++ c.name ++ "' is never used") c.span := by
  have hdomain := (validate_domain p).of_ok h
  have hruns := (validate_runs (stable_grounded.and stable_quiet) (fun s hs => hs.1)
    (fun s hs => ⟨hs.1.journal _, ?_⟩) (register_listed p)
    fun s hs hlisted => ⟨hs.grounded, ?_⟩).of_ok h
  · obtain ⟨s, u, hs, hlisted, hsu, ⟨-, hquiet⟩, rfl, rfl⟩ := hruns
    unfold Quiet at hquiet
    show Journal.warnings (u.journal ++ u.reports) = _
    rw [warnings_append, hquiet, List.nil_append]
    unfold State.reports
    rw [hsu.functions, hs.reports hlisted (fun f hf => (hdomain f).2 (.inl hf))
      fun d hd => (hdomain d.name).2 (.inr (.declared hd))]
    unfold Journal.warnings
    rw [List.filterMap_map, ← List.filterMap_eq_map]
    rfl
  · have hquiet := hs.2
    unfold Quiet at hquiet ⊢
    rw [warnings_append, hquiet]
    rfl
  · unfold Quiet
    rw [hlisted.journal]
    rfl

/-- **Exactly the functions in use have a signature, and exactly the others are reported.** A check
that returns gives a signature to the built-in and the declared functions and to those that can be
reached from `main` or from a declared function. Its warnings are one for each function that has a
clause and no signature, in the order of the first clauses, each at the place of that clause. -/
theorem validate_reports_unused {p : Program} {table : SignatureTable}
    (h : (validate p).run.run Compile.initial = (.ok table, t)) :
    (∀ f, table.has f = true ↔
      Builtin.signatures.has f = true ∨ f ∈ p.decls.map (·.name) ∨ p.Reachable f) ∧
    t.journal.warnings = (p.firstClauses.filter fun c => !table.has c.name).map fun c =>
      .warning "W300" ("function '" ++ c.name ++ "' is never used") c.span := by
  have hdomain := (validate_domain p).of_ok h
  refine ⟨fun f => (hdomain f).trans (or_congr_right ?_), validate_warnings h⟩
  refine ⟨.inr, fun hf => hf.elim (fun hmem => ?_) id⟩
  obtain ⟨d, hd, rfl⟩ := List.mem_map.1 hmem
  exact .declared hd

/-- A program in which `spare` is called by itself only, and `loft` by nothing. -/
def attic : Program where
  file := "attic"
  lines :=
    let on (row : Nat) : Span := ⟨"attic", row, 1, row, 1⟩
    let int (row : Nat) (n : Int) : Expr := .lit (.int n) (on row)
    let call (row : Nat) (f : String) (args : List Expr) : Expr := .call f args (on row)
    let clause (row : Nat) (f : String) (params : List Pattern) (body : Expr) : Line :=
      .clause ⟨f, params, body, on row⟩
    [clause 1 "spare" [.name "n" (on 1)] (call 1 "spare" [call 1 "n" []]),
      clause 2 "kept" [] (int 2 7),
      clause 3 "main" [] (call 3 "twice" [int 3 2]),
      clause 4 "loft" [.name "twice" (on 4)] (call 4 "twice" []),
      clause 5 "spare" [.lit (.int 0) (on 5)] (int 5 0),
      clause 6 "twice" [.name "n" (on 6)] (.binary (call 6 "n" []) .add (call 6 "n" []) (on 6)),
      .decl ⟨"kept", ⟨[], .int⟩, on 7⟩]

/-- The signatures of the functions of `attic` that are in use. -/
def atticSignatures : SignatureTable :=
  Builtin.signatures ++ [("kept", ⟨[], .int⟩), ("twice", ⟨[.int], .int⟩), ("main", ⟨[], .int⟩)]

/-- The program is accepted with these signatures. -/
theorem validate_attic :
    ((validate attic).run.run Compile.initial).1.toOption = some atticSignatures := by
  decide +kernel

/-- The two functions that are never called are reported, in the order of their lines. -/
theorem validate_reports_unused_attic :
    ((validate attic).run.run Compile.initial).1.toOption = some atticSignatures ∧
      (∀ f, atticSignatures.has f = true ↔
        Builtin.signatures.has f = true ∨ f ∈ attic.decls.map (·.name) ∨ attic.Reachable f) ∧
      ((validate attic).run.run Compile.initial).2.journal.warnings =
        [.warning "W300" "function 'spare' is never used" (some ⟨"attic", 1, 1, 1, 1⟩),
          .warning "W300" "function 'loft' is never used" (some ⟨"attic", 4, 1, 4, 1⟩)] := by
  have h := validate_reports_unused (run_eq_of_toOption validate_attic)
  exact ⟨validate_attic, h.1, h.2.trans (by decide +kernel)⟩

end Check

end Clausal
