import Clausal.Proofs.Emit.Code

/-!
# Coverage

The only thing that code generation can refuse in a checked program is a function that no clause of
its own covers: one that has a signature while every clause of it has a literal parameter
(`Program.Uncovered`). A declared function without clauses is such a function.

* `emitFunctions_covered`: functions are emitted one after another up to the first uncovered one.
* `emit_covered`: the same for a program, whose functions come in the order of the first line that
  names them.
* `emit_fails_iff_uncovered`: code generation of a checked program fails exactly if some function is
  uncovered, and the refusal names the first one.
-/

namespace Clausal

/-! ## Functions without a clause that takes everything -/

/-- Some clause has no literal among its parameters. -/
def Covered (clauses : List Clause) : Prop :=
  ∃ c ∈ clauses, ∀ q ∈ c.params, q.isLiteral = false

instance : DecidablePred Covered := fun clauses =>
  inferInstanceAs (Decidable (∃ c ∈ clauses, ∀ q ∈ c.params, q.isLiteral = false))

/-- A function of the program that has a signature and no clause without literal parameters. -/
structure Program.Uncovered (p : Program) (table : SignatureTable) (f : String) : Prop where
  signed : table.has f = true
  user : Builtin.signatures.has f = false
  literals : ¬ Covered (p.clausesOf f)

instance (p : Program) (table : SignatureTable) : DecidablePred (p.Uncovered table) := fun f =>
  decidable_of_iff (table.has f = true ∧ Builtin.signatures.has f = false ∧
      ¬ Covered (p.clausesOf f))
    ⟨fun h => ⟨h.1, h.2.1, h.2.2⟩, fun h => ⟨h.signed, h.user, h.literals⟩⟩

/-- A clause takes everything if none of its parameters is a literal. -/
theorem Clause.isCatchAll_iff {c : Clause} :
    c.isCatchAll = true ↔ ∀ q ∈ c.params, q.isLiteral = false := by
  simp [Clause.isCatchAll]

/-- Clauses are covered by the first one or by the others. -/
theorem covered_cons {c : Clause} {cs : List Clause} :
    Covered (c :: cs) ↔ c.isCatchAll = true ∨ Covered cs := by
  simp [Covered, Clause.isCatchAll_iff]

/-- Clauses are cut exactly if one of them takes everything. -/
theorem Dispatch.split?_eq_none_iff {clauses : List Clause} :
    split? clauses = none ↔ ¬ Covered clauses := by
  induction clauses with
  | nil => simp [split?, Covered]
  | cons c cs ih =>
    rw [split?, covered_cons, not_or]
    split
    · next hall =>
      constructor
      · intro h
        cases h
      · exact fun h => absurd hall h.1
    · next hall =>
      rw [Option.map_eq_none_iff, ih]
      exact ⟨fun h => ⟨hall, h⟩, fun h => h.2⟩

/-- Clauses that have code are covered. -/
theorem Dispatched.covered {S : String → Option Signature} {sig : Signature}
    {clauses : List Clause} {code : Wasm.Instr} (h : Dispatched S sig clauses code) :
    Covered clauses := by
  induction h with
  | catchAll hall => exact covered_cons.2 (.inl hall)
  | guarded _ _ _ ih => exact covered_cons.2 (.inr ih)

/-! ## The order of functions -/

/-- Giving a name a value does not change which name is the first one with a property, unless the
name is new and the first one itself. -/
theorem Assoc.find?_names_put {α : Type} (m : Assoc α) (f : String) (x : α) (q : String → Bool) :
    (m.put f x).names.find? q = (m.names ++ [f]).find? q := by
  rw [names_put]
  split
  · next hhas =>
    rw [List.find?_append]
    cases hfirst : m.names.find? q with
    | some g => rfl
    | none =>
      have hf : q f = false := by
        simpa using List.find?_eq_none.1 hfirst f (has_iff_mem_names.1 hhas)
      simp [hf]
  · rfl

/-- The functions of a program come in the order of the first line that names them. -/
theorem Program.find?_names_functions (p : Program) (q : String → Bool) :
    p.functions.names.find? q = (p.lines.map Line.name).find? q := by
  have key : ∀ (rest : List Line) (m : Assoc (Span × List Clause)),
      (Assoc.names (rest.foldl (fun m l =>
        m.put l.name (((m.value? l.name).getD (l.span, [])).1,
          ((m.value? l.name).getD (l.span, [])).2 ++ l.clause?.toList)) m)).find? q =
        (m.names ++ rest.map Line.name).find? q := by
    intro rest
    induction rest with
    | nil =>
      intro m
      rw [List.map_nil, List.append_nil]
      rfl
    | cons l rest ih =>
      intro m
      rw [List.foldl_cons, ih, List.find?_append, Assoc.find?_names_put, ← List.find?_append,
        List.append_assoc, List.map_cons, List.singleton_append]
  exact key p.lines []

/-! ## Code generation -/

namespace Compile

/-- Functions are emitted one after another, up to the first one that is not covered. -/
theorem emitFunctions_covered {table : SignatureTable} {fs : List (String × Span × List Clause)}
    {j : Journal}
    (hfs : ∀ f ∈ fs, ∀ sig, table.lookup f.1 = some sig →
      ∀ c ∈ f.2.2, c.HasSignature table.lookup sig) :
    Ends (emitFunctions table fs) j
      (fun _ _ => ∀ f ∈ fs, table.has f.1 = true → Covered f.2.2)
      (fun e _ => ∃ done f rest at?, fs = done ++ f :: rest ∧
        (∀ g ∈ done, table.has g.1 = true → Covered g.2.2) ∧ table.has f.1 = true ∧
        ¬ Covered f.2.2 ∧ e = .fault ⟨.notCovered f.1, at?⟩) := by
  induction fs generalizing j with
  | nil => exact fun f hf => nomatch hf
  | cons f fs ih =>
    obtain ⟨name, span, clauses⟩ := f
    have hrest : ∀ f ∈ fs, ∀ sig, table.lookup f.1 = some sig →
        ∀ c ∈ f.2.2, c.HasSignature table.lookup sig :=
      fun f hf => hfs f (List.mem_cons_of_mem _ hf)
    -- what the rest of the functions gives, once this one is covered or skipped
    have hstep : (table.has name = true → Covered clauses) → ∀ j,
        Ends (emitFunctions table fs) j
          (fun _ _ => ∀ f ∈ (name, span, clauses) :: fs, table.has f.1 = true → Covered f.2.2)
          (fun e _ => ∃ done f rest at?, (name, span, clauses) :: fs = done ++ f :: rest ∧
            (∀ g ∈ done, table.has g.1 = true → Covered g.2.2) ∧ table.has f.1 = true ∧
            ¬ Covered f.2.2 ∧ e = .fault ⟨.notCovered f.1, at?⟩) := by
      intro hhead j
      refine (ih hrest).mono (fun _ _ hall => List.forall_mem_cons.2 ⟨hhead, hall⟩) ?_
      rintro e t ⟨done, f, rest, at?, rfl, hdone, hf⟩
      exact ⟨(name, span, clauses) :: done, f, rest, at?, rfl,
        List.forall_mem_cons.2 ⟨hhead, hdone⟩, hf⟩
    rw [emitFunctions]
    split
    · next hhas =>
      obtain ⟨sig, hsig⟩ := Option.isSome_iff_exists.1 hhas
      have hsig : table.lookup name = some sig := hsig
      refine Ends.bind ((Dispatch.function_spec hsig (hfs _ List.mem_cons_self sig hsig)).mono
        (fun _ _ h => h) ?_) ?_
      · rintro e t ⟨hnone, at?, rfl⟩
        refine ⟨[], (name, span, clauses), fs, at?, rfl, ?_, hhas,
          Dispatch.split?_eq_none_iff.1 hnone, rfl⟩
        intro g hg
        cases hg
      · rintro g t ⟨-, hg⟩
        obtain ⟨code, -, hcode⟩ := hg.body
        exact (hstep (fun _ => hcode.covered) t).bind fun _ u hu => hu
    · next hhas =>
      exact Ends.bind (m := Dispatch.record _) (Q := fun _ _ => True) trivial fun _ t _ =>
        hstep (fun h => absurd h hhas) t

/-- **Code generation of an accepted program** stops at the first function that is not covered,
and only there. -/
theorem emit_covered {p : Program} {table : SignatureTable} (h : p.Accepted table) {j : Journal} :
    Ends (emit p table) j (fun _ _ => ∀ f, ¬ p.Uncovered table f)
      (fun e _ => ∃ f at?, (p.lines.map Line.name).find? (p.Uncovered table ·) = some f ∧
        e = .fault ⟨.notCovered f, at?⟩) := by
  have huser : ∀ f ∈ p.functions, Builtin.signatures.has f.1 = false := by
    intro f hf
    obtain ⟨l, hl, hname⟩ := Program.mem_names_functions.1 (List.mem_map.2 ⟨f, hf, rfl⟩)
    rw [← Bool.not_eq_true, ← hname]
    exact fun hb => h.registrable.free l hl (.inl hb)
  refine Ends.bind
    ((emitFunctions_covered fun f => h.hasSignature).mono (fun _ _ hall f hf => ?_) ?_)
    fun _ t ht => ht
  · -- an uncovered function is one of the program, since it has a signature and is not built in
    have hname : p.Names f := (h.scope f hf.signed).resolve_left fun hb => by
      rw [hf.user] at hb
      cases hb
    obtain ⟨g, hg, rfl⟩ := List.mem_map.1 (Program.mem_names_functions.2 hname)
    have hcov := hall g hg hf.signed
    rw [Program.clauses_of_mem_functions hg] at hcov
    exact hf.literals hcov
  · rintro e t ⟨done, f, rest, at?, heq, hdone, hsigned, hlit, rfl⟩
    have hmem : f ∈ p.functions := heq ▸ List.mem_append_right _ List.mem_cons_self
    have hf : p.Uncovered table f.1 :=
      ⟨hsigned, huser f hmem, Program.clauses_of_mem_functions hmem ▸ hlit⟩
    refine ⟨f.1, at?, ?_, rfl⟩
    rw [← Program.find?_names_functions, Assoc.names, heq, List.map_append, List.map_cons,
      List.find?_eq_some_iff_append]
    refine ⟨decide_eq_true hf, _, _, rfl, fun name hname => ?_⟩
    obtain ⟨g, hg, rfl⟩ := List.mem_map.1 hname
    have hgmem : g ∈ p.functions := heq ▸ List.mem_append_left _ hg
    rw [Bool.not_eq_true', decide_eq_false_iff_not]
    intro hbad
    exact hbad.literals (Program.clauses_of_mem_functions hgmem ▸ hdone g hg hbad.signed)

/-- **Code generation of a checked program fails only for coverage.** From the table that the check
of a program returns it makes a module or refuses a function that is not covered; it refuses one
exactly if there is one, and the refused function is the one that the first line naming an uncovered
function names. So no call is found without a signature and no parameter beyond the arguments. -/
theorem emit_fails_iff_uncovered {p : Program} {table : SignatureTable} {s : Check.State}
    (h : (Check.validate p).run.run initial = (.ok table, s)) (j : Journal) :
    ((∃ m t, (emit p table).run.run j = (.ok m, t)) ∨
      ∃ f span t, (emit p table).run.run j = (.error (.fault ⟨.notCovered f, span⟩), t)) ∧
    ((∃ e t, (emit p table).run.run j = (.error e, t)) ↔ ∃ f, p.Uncovered table f) ∧
    (∀ e t, (emit p table).run.run j = (.error e, t) →
      ∃ before l after span, p.lines = before ++ l :: after ∧
        (∀ l' ∈ before, ¬ p.Uncovered table l'.name) ∧ p.Uncovered table l.name ∧
        e = .fault ⟨.notCovered l.name, span⟩) := by
  have hends := emit_covered ((Check.validate_accepted p).of_ok h) (j := j)
  rcases hrun : (emit p table).run.run j with ⟨e | m, t⟩
  · obtain ⟨f, span, hfirst, rfl⟩ := hends.of_error hrun
    obtain ⟨hf, before, after, hlines, hbefore⟩ := List.find?_eq_some_iff_append.1 hfirst
    have hf : p.Uncovered table f := of_decide_eq_true hf
    refine ⟨.inr ⟨f, span, t, rfl⟩, ⟨fun _ => ⟨f, hf⟩, fun _ => ⟨_, t, rfl⟩⟩, ?_⟩
    rintro e t' heq
    cases heq
    obtain ⟨before, rest, hsplit, rfl, hrest⟩ := List.map_eq_append_iff.1 hlines
    obtain ⟨l, after, rfl, rfl, rfl⟩ := List.map_eq_cons_iff.1 hrest
    refine ⟨before, l, after, span, hsplit, fun l' hl' => ?_, hf, rfl⟩
    simpa using hbefore l'.name (List.mem_map.2 ⟨l', hl', rfl⟩)
  · have hall := hends.of_ok hrun
    refine ⟨.inl ⟨m, t, rfl⟩, ⟨?_, fun ⟨f, hf⟩ => absurd hf (hall f)⟩, ?_⟩
    · rintro ⟨e, t', heq⟩
      cases heq
    · rintro e t' heq
      cases heq

/-- A program with two uncovered functions: `shade` has literals in all of its clauses, and `lamp`
is only declared. -/
def lamps : Program where
  file := "lamps"
  lines :=
    let here : Span := ⟨"lamps", 1, 1, 1, 1⟩
    let int (n : Int) : Expr := .lit (.int n) here
    [.clause ⟨"main", [], .call "shade" [int 1] here, here⟩,
      .clause ⟨"shade", [.lit (.int 0) here], int 1, here⟩,
      .decl ⟨"lamp", ⟨[.int], .bool⟩, here⟩,
      .clause ⟨"shade", [.lit (.int 1) here], int 2, here⟩]

/-- The signatures of the functions of `lamps`. -/
def lampsSignatures : SignatureTable :=
  Builtin.signatures ++ [("lamp", ⟨[.int], .bool⟩), ("shade", ⟨[.int], .int⟩), ("main", ⟨[], .int⟩)]

/-- The program is accepted with these signatures. -/
theorem validate_lamps :
    ((Check.validate lamps).run.run initial).1.toOption = some lampsSignatures := by
  decide +kernel

/-- Two functions are not covered, and no code is generated. -/
theorem emit_fails_iff_uncovered_lamps :
    ((Check.validate lamps).run.run initial).1.toOption = some lampsSignatures ∧
      lamps.Uncovered lampsSignatures "shade" ∧ lamps.Uncovered lampsSignatures "lamp" ∧
      ∃ e t, (emit lamps lampsSignatures).run.run [] = (.error e, t) := by
  have hshade : lamps.Uncovered lampsSignatures "shade" := by decide +kernel
  have hlamp : lamps.Uncovered lampsSignatures "lamp" := by decide +kernel
  exact ⟨validate_lamps, hshade, hlamp,
    (emit_fails_iff_uncovered (run_eq_of_toOption validate_lamps) []).2.1.2 ⟨"shade", hshade⟩⟩

end Compile

end Clausal
