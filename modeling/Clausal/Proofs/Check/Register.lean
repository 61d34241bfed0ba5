import Clausal.Compile
import Clausal.Proofs.Check.Steps

/-!
# Registration

`register_spec`: registration succeeds exactly on the programs without a second signature line for
a name and without a line for a name that belongs to the system (`Program.Registrable`), and it
leaves a state in which every name has the clauses and the signature that the lines give it
(`Entered`). Both loops of the registration are followed by one invariant, which speaks of the
lines entered so far.
-/

namespace Clausal

namespace Assoc

variable {α : Type}

/-- A name with a value is there. -/
theorem has_of_value? {m : Assoc α} {f : String} {x : α} (h : m.value? f = some x) :
    m.has f = true := by
  unfold has
  rw [h]
  rfl

/-- A value stands in an entry under its name. -/
theorem mem_of_value? {m : Assoc α} {f : String} {x : α} (h : m.value? f = some x) :
    (f, x) ∈ m := by
  induction m with
  | nil => cases h
  | cons p m ih =>
    obtain ⟨k, y⟩ := p
    rw [value?_cons] at h
    split at h
    · next hk =>
      cases h
      exact hk ▸ List.mem_cons_self
    · exact List.mem_cons_of_mem _ (ih h)

/-- In a map without repeated names the value of a name is the one it is paired with. -/
theorem value?_eq_some_iff {m : Assoc α} (hnd : m.names.Nodup) {f : String} {x : α} :
    m.value? f = some x ↔ (f, x) ∈ m := by
  refine ⟨mem_of_value?, fun h => ?_⟩
  induction m with
  | nil => cases h
  | cons p m ih =>
    obtain ⟨k, y⟩ := p
    rw [names, List.map_cons, List.nodup_cons] at hnd
    rw [value?_cons]
    rcases List.mem_cons.1 h with heq | h
    · cases heq
      rw [if_pos rfl]
    · have hk : k ≠ f := fun hk => hnd.1 (hk ▸ List.mem_map.2 ⟨_, h, rfl⟩)
      rw [if_neg hk]
      exact ih hnd.2 h

/-- Changing all values changes that of a name. -/
theorem value?_map {β : Type} (m : Assoc α) (g : α → β) (f : String) :
    value? (m.map fun p => (p.1, g p.2)) f = (value? m f).map g := by
  induction m with
  | nil => rfl
  | cons p m ih =>
    obtain ⟨k, y⟩ := p
    rw [List.map_cons, value?_cons, value?_cons, ih]
    split <;> rfl

/-- A new name comes last. -/
theorem put_of_not_mem {m : Assoc α} {f : String} (h : f ∉ m.names) (x : α) :
    m.put f x = m ++ [(f, x)] := by
  induction m with
  | nil => rfl
  | cons p m ih =>
    obtain ⟨k, y⟩ := p
    rw [names, List.map_cons, List.mem_cons, not_or] at h
    rw [put, if_neg fun hk => h.1 hk.symm, ih h.2, List.cons_append]

end Assoc

/-- Whether a name belongs to the system: a built-in function or a name of the module frame. -/
def SystemName (f : String) : Prop :=
  Builtin.signatures.has f = true ∨ f ∈ Check.reservedNames

instance : DecidablePred SystemName := fun f =>
  inferInstanceAs (Decidable (Builtin.signatures.has f = true ∨ f ∈ Check.reservedNames))

namespace Program

/-- No function has two signature lines, and no line is about a name of the system. -/
structure Registrable (p : Program) : Prop where
  nodup : (p.decls.map (·.name)).Nodup
  free : ∀ l ∈ p.lines, ¬ SystemName l.name

instance (p : Program) : Decidable p.Registrable :=
  decidable_of_iff ((p.decls.map (·.name)).Nodup ∧ ∀ l ∈ p.lines, ¬ SystemName l.name)
    ⟨fun h => ⟨h.1, h.2⟩, fun h => ⟨h.nodup, h.free⟩⟩

/-- The signature lines are those among the lines. -/
theorem mem_decls {p : Program} {d : Decl} : d ∈ p.decls ↔ Line.decl d ∈ p.lines := by
  unfold decls
  rw [List.mem_filterMap]
  refine ⟨?_, fun h => ⟨_, h, rfl⟩⟩
  rintro ⟨l, hl, hd⟩
  cases l with
  | decl d' => cases hd; exact hl
  | clause c => cases hd

/-- The clauses are those among the lines. -/
theorem mem_clauses {p : Program} {c : Clause} : c ∈ p.clauses ↔ Line.clause c ∈ p.lines := by
  unfold clauses
  rw [List.mem_filterMap]
  refine ⟨?_, fun h => ⟨_, h, rfl⟩⟩
  rintro ⟨l, hl, hc⟩
  cases l with
  | decl d => cases hc
  | clause c' => cases hc; exact hl

/-- A line is about a function if a declaration or a clause is. -/
theorem names_iff {p : Program} {f : String} :
    p.Names f ↔ f ∈ p.decls.map (·.name) ∨ f ∈ p.clauses.map (·.name) := by
  constructor
  · rintro ⟨l, hl, rfl⟩
    cases l with
    | decl d => exact .inl (List.mem_map.2 ⟨d, mem_decls.2 hl, rfl⟩)
    | clause c => exact .inr (List.mem_map.2 ⟨c, mem_clauses.2 hl, rfl⟩)
  · rintro (h | h)
    · obtain ⟨d, hd, rfl⟩ := List.mem_map.1 h
      exact ⟨_, mem_decls.1 hd, rfl⟩
    · obtain ⟨c, hc, rfl⟩ := List.mem_map.1 h
      exact ⟨_, mem_clauses.1 hc, rfl⟩

end Program

namespace Check

/-- The names that a program may not define are those of the system. -/
theorem isReserved_iff {s : State} (hs : s.builtins = Builtin.signatures) {f : String} :
    isReserved s f = true ↔ SystemName f := by
  unfold isReserved SystemName
  rw [hs, Bool.or_eq_true, List.contains_iff_mem]

/-- The state after some declarations and clauses have been entered. -/
structure Entered (ds : List Decl) (cs : List Clause) (s : State) : Prop where
  builtins : s.builtins = Builtin.signatures
  signatures : s.signatures = Builtin.signatures ++ ds.map fun d => (d.name, d.signature)
  declared : s.declared = ds.map fun d => (d.name, d)
  functions : ∀ f, s.functions.value? f =
    if Builtin.signatures.has f then some []
    else if f ∈ ds.map (·.name) ∨ f ∈ cs.map (·.name) then some (cs.filter fun c => c.name = f)
    else none
  validated : s.validated = []
  active : s.active = []
  nodup : (ds.map (·.name)).Nodup
  free : ∀ f, f ∈ ds.map (·.name) ∨ f ∈ cs.map (·.name) → ¬ SystemName f

namespace Entered

variable {ds : List Decl} {cs : List Clause} {s : State}

/-- A name with a signature is a built-in function or declared, and the signature is that one. -/
theorem lookup_eq_some_iff (h : Entered ds cs s) {f : String} {sig : Signature} :
    s.signatures.lookup f = some sig ↔
      Builtin.signatures.value? f = some sig ∨ ∃ d ∈ ds, d.name = f ∧ d.signature = sig := by
  have hnames : Assoc.names (ds.map fun d => (d.name, d.signature)) = ds.map (·.name) := by
    unfold Assoc.names
    rw [List.map_map]
    rfl
  have hds : Assoc.value? (ds.map fun d => (d.name, d.signature)) f = some sig ↔
      ∃ d ∈ ds, d.name = f ∧ d.signature = sig := by
    rw [Assoc.value?_eq_some_iff (hnames ▸ h.nodup), List.mem_map]
    simp only [Prod.mk.injEq]
  unfold SignatureTable.lookup
  rw [h.signatures, Assoc.value?_append]
  cases hb : Builtin.signatures.value? f with
  | none =>
    rw [Option.none_or, hds]
    exact ⟨.inr, fun h => h.elim nofun id⟩
  | some sig' =>
    rw [Option.some_or]
    refine ⟨.inl, fun h' => h'.elim id ?_⟩
    rintro ⟨d, hd, rfl, -⟩
    have hfree := h.free d.name (.inl (List.mem_map.2 ⟨d, hd, rfl⟩))
    exact absurd (.inl (Assoc.has_of_value? hb)) hfree

/-- The declared names are those of the signature lines entered so far. -/
theorem has_declared (h : Entered ds cs s) {f : String} :
    s.declared.has f = true ↔ f ∈ ds.map (·.name) := by
  rw [Assoc.has_iff_mem_names, h.declared]
  simp [Assoc.names]

end Entered

/-- The built-in functions are entered first. -/
theorem registerBuiltins_spec {E : Stop → State → Prop} :
    Ends registerBuiltins Compile.initial (fun _ s => Entered [] [] s) E := by
  have hrun : registerBuiltins.run.run Compile.initial =
      (.ok (), { Compile.initial with
        functions := Builtin.signatures.map fun p => (p.1, [])
        signatures := Builtin.signatures }) := rfl
  unfold Ends
  rw [hrun]
  refine ⟨rfl, rfl, rfl, fun f => ?_, rfl, rfl, List.nodup_nil, fun f hf => hf.elim nofun nofun⟩
  show Assoc.value? (Builtin.signatures.map fun p => (p.1, ([] : List Clause))) f = _
  rw [Assoc.value?_map Builtin.signatures (fun _ => []) f]
  unfold Assoc.has
  cases Builtin.signatures.value? f <;> simp

/-- One more signature line: it is refused for a name of the system and for a second one. -/
theorem registerDecl_spec {ds : List Decl} {d : Decl} {s : State} (h : Entered ds [] s) :
    Ends (registerDecl d) s (fun _ t => Entered (ds ++ [d]) [] t)
      (fun e _ => (SystemName d.name ∨ d.name ∈ ds.map (·.name)) ∧
        e = .fault ⟨.alreadyDefined d.name, d.span⟩) := by
  unfold registerDecl
  rw [ends_bind, ends_get]
  split
  · next hbad =>
    rw [Bool.or_eq_true, isReserved_iff h.builtins, h.has_declared] at hbad
    exact ⟨hbad, rfl⟩
  · next hgood =>
    rw [Bool.or_eq_true, isReserved_iff h.builtins, h.has_declared, not_or] at hgood
    obtain ⟨hsys, hnew⟩ := hgood
    have hnone : s.signatures.lookup d.name = none := by
      cases hl : s.signatures.lookup d.name with
      | none => rfl
      | some sig =>
        rcases h.lookup_eq_some_iff.1 hl with hb | ⟨d', hd', hname, -⟩
        · exact absurd (.inl (Assoc.has_of_value? hb)) hsys
        · exact absurd (List.mem_map.2 ⟨d', hd', hname⟩) hnew
    have hput : s.declared.put d.name d = s.declared ++ [(d.name, d)] := by
      refine Assoc.put_of_not_mem (fun hmem => hnew ?_) d
      rwa [← Assoc.has_iff_mem_names, h.has_declared] at hmem
    refine (define_spec.mono (fun _ _ h => h) ?_).bind ?_
    · rintro e t ⟨-, -, sig, hl⟩
      exact nomatch hnone.symm.trans hl
    rintro - t ⟨-, rfl⟩
    refine ⟨h.builtins, ?_, ?_, fun f => ?_, h.validated, h.active, ?_, ?_⟩
    · show s.signatures ++ _ = _
      rw [h.signatures, List.map_append, List.append_assoc]
      rfl
    · show s.declared.put d.name d = _
      rw [hput, h.declared, List.map_append]
      rfl
    · -- entered without clauses, or again with the clauses it has, which are none
      have hfresh : s.functions.value? d.name = none := by
        rw [h.functions, if_neg fun hb => hsys (.inl hb), if_neg]
        rintro (hmem | hmem)
        · exact hnew hmem
        · cases hmem
      show (s.functions.put d.name _).value? f = _
      rw [Assoc.value?_put, hfresh, h.functions]
      simp only [List.map_append, List.mem_append]
      by_cases hf : d.name = f
      · subst hf
        rw [if_pos rfl, if_neg fun hb => hsys (.inl hb),
          if_pos (.inl (.inr (List.mem_singleton.2 rfl)))]
        rfl
      · have hne : f ∉ [d].map (·.name) := fun hmem => hf (List.mem_singleton.1 hmem).symm
        simp only [hf, hne, if_false, or_false]
    · rw [List.map_append]
      refine List.nodup_append.2 ⟨h.nodup, by simp, ?_⟩
      rintro f hf g hg rfl
      rw [List.mem_singleton.1 hg] at hf
      exact hnew hf
    · rintro f (hf | hf)
      · rw [List.map_append, List.mem_append] at hf
        rcases hf with hf | hf
        · exact h.free f (.inl hf)
        · rw [List.mem_singleton.1 hf]
          exact hsys
      · cases hf

/-- One more clause: it is refused for a name of the system. -/
theorem registerClause_spec {ds : List Decl} {cs : List Clause} {c : Clause} {s : State}
    (h : Entered ds cs s) :
    Ends (registerClause c) s (fun _ t => Entered ds (cs ++ [c]) t)
      (fun e _ => SystemName c.name ∧ e = .fault ⟨.alreadyDefined c.name, c.span⟩) := by
  unfold registerClause
  rw [ends_bind, ends_get]
  split
  · next hbad => exact ⟨(isReserved_iff h.builtins).1 hbad, rfl⟩
  · next hgood =>
    have hsys : ¬ SystemName c.name := fun hsys => hgood ((isReserved_iff h.builtins).2 hsys)
    refine ⟨h.builtins, h.signatures, h.declared, fun f => ?_, h.validated, h.active, h.nodup, ?_⟩
    · have hold : (s.functions.value? c.name).getD [] = cs.filter fun c' => c'.name = c.name := by
        rw [h.functions, if_neg fun hb => hsys (.inl hb)]
        split
        · rfl
        · next hno =>
          refine (List.filter_eq_nil_iff.2 fun c' hc' hname => hno (.inr ?_)).symm
          exact List.mem_map.2 ⟨c', hc', of_decide_eq_true hname⟩
      show (s.functions.put c.name _).value? f = _
      rw [Assoc.value?_put, hold, h.functions]
      simp only [List.map_append, List.mem_append, List.filter_append]
      by_cases hf : c.name = f
      · subst hf
        rw [if_pos rfl, if_neg fun hb => hsys (.inl hb),
          if_pos (.inr (.inr (List.mem_singleton.2 rfl)))]
        simp
      · have hne : f ∉ [c].map (·.name) := fun hmem => hf (List.mem_singleton.1 hmem).symm
        have hnil : [c].filter (fun c' => c'.name = f) = [] := by simp [hf]
        simp only [hf, hne, hnil, if_false, or_false, List.append_nil]
    · rintro f (hf | hf)
      · exact h.free f (.inl hf)
      · rw [List.map_append, List.mem_append] at hf
        rcases hf with hf | hf
        · exact h.free f (.inr hf)
        · rw [List.mem_singleton.1 hf]
          exact hsys

/-- **Registration.** It succeeds exactly on registrable programs, and then every name has the
signature and the clauses that its lines give it. It stops at a line for a name that is taken. -/
theorem register_spec (p : Program) :
    Ends (do registerBuiltins; registerProgram p) Compile.initial
      (fun _ s => p.Registrable ∧ Entered p.decls p.clauses s)
      (fun e _ => ¬ p.Registrable ∧
        ∃ l ∈ p.lines, e = .fault ⟨.alreadyDefined l.name, l.span⟩) := by
  refine registerBuiltins_spec.bind fun _ s₀ h₀ => ?_
  unfold registerProgram
  refine Ends.bind (Ends.forM (I := fun ds s => Entered ds [] s) ?_ h₀) fun _ s₁ h₁ => ?_
  · intro ds d rest s hl h
    refine (registerDecl_spec h).mono (fun _ _ h => h) ?_
    rintro e t ⟨hbad, rfl⟩
    have hd : d ∈ p.decls := by
      rw [hl]
      exact List.mem_append_right _ List.mem_cons_self
    refine ⟨fun hreg => ?_, .decl d, Program.mem_decls.1 hd, rfl⟩
    rcases hbad with hsys | hdup
    · exact hreg.free _ (Program.mem_decls.1 hd) hsys
    · have hnd := hreg.nodup
      rw [hl, List.map_append, List.map_cons] at hnd
      exact (List.nodup_append.1 hnd).2.2 _ hdup _ List.mem_cons_self rfl
  · refine (Ends.forM (I := fun cs s => Entered p.decls cs s) ?_ h₁).mono (fun _ s h => ?_)
      fun _ _ h => h
    · intro cs c rest s hl h
      refine (registerClause_spec h).mono (fun _ _ h => h) ?_
      rintro e t ⟨hsys, rfl⟩
      have hc : c ∈ p.clauses := by
        rw [hl]
        exact List.mem_append_right _ List.mem_cons_self
      exact ⟨fun hreg => hreg.free _ (Program.mem_clauses.1 hc) hsys, .clause c,
        Program.mem_clauses.1 hc, rfl⟩
    · exact ⟨⟨h.nodup, fun l hl => h.free l.name (Program.names_iff.1 ⟨l, hl, rfl⟩)⟩, h⟩

/-! ## The whole check -/

/-- After registration a name of the program has its clauses. -/
theorem Entered.value?_functions {p : Program} {s : State} (h : Entered p.decls p.clauses s)
    {f : String} (hf : p.Names f) : s.functions.value? f = some (p.clausesOf f) := by
  have hf := Program.names_iff.1 hf
  rw [h.functions, if_neg fun hb => h.free f hf (.inl hb), if_pos hf]
  rfl

/-- The registered functions are the built-in ones and those that a line is about. -/
theorem Entered.has_functions_iff {p : Program} {s : State} (h : Entered p.decls p.clauses s)
    {f : String} : s.functions.has f = true ↔ Builtin.signatures.has f = true ∨ p.Names f := by
  unfold Assoc.has
  rw [h.functions, Program.names_iff, ← Assoc.has]
  split
  · next hb => exact ⟨fun _ => .inl hb, fun _ => rfl⟩
  · next hb =>
    split
    · next hn => exact ⟨fun _ => .inr hn, fun _ => rfl⟩
    · next hn =>
      exact ⟨fun h => absurd h Bool.false_ne_true, fun h => absurd (h.resolve_left hb) hn⟩

/-- After registration every function has the clauses of the program. -/
theorem Entered.clausesOf {p : Program} {s : State} (h : Entered p.decls p.clauses s) (f : String) :
    s.clausesOf f = p.clausesOf f := by
  by_cases hf : p.Names f
  · unfold State.clausesOf
    rw [h.value?_functions hf]
    rfl
  · have hnil : p.clausesOf f = [] := by
      refine List.filter_eq_nil_iff.2 fun c hc hname => hf ?_
      exact Program.names_iff.2 (.inr (List.mem_map.2 ⟨c, hc, of_decide_eq_true hname⟩))
    unfold State.clausesOf
    rw [h.functions, hnil]
    split
    · rfl
    · rw [if_neg fun hn => hf (Program.names_iff.2 hn)]
      rfl

/-- All that checking the entry point can do. -/
theorem checkEntryPoint_ends {p : Program} {s : State} (h : Entered p.decls p.clauses s)
    {Q : Ty → State → Prop} {E : Stop → State → Prop}
    (hmissing : ¬ p.Names entryPoint → E (.fault ⟨.notFound entryPoint, none⟩) s)
    (hcall : ∀ l ∈ p.lines, l.name = entryPoint → Ends (call entryPoint [] l.span) s
      (fun ty t => (ty = .int → Q ty t) ∧
        (ty ≠ .int → E (.fault ⟨.typeMismatch .int ty, l.span⟩) t)) E) :
    Ends checkEntryPoint s Q E := by
  have hbuiltin : Builtin.signatures.has entryPoint = false := rfl
  unfold checkEntryPoint
  rw [ends_bind, ends_get]
  by_cases hmain : p.Names entryPoint
  · rw [h.value?_functions hmain]
    have hspan : Ends (entrySpan s (p.clausesOf entryPoint)) s
        (fun span t => t = s ∧ ∃ l ∈ p.lines, l.name = entryPoint ∧ l.span = span) E := by
      unfold entrySpan
      split
      · next d hdecl =>
        have hd := Assoc.mem_of_value? hdecl
        rw [h.declared] at hd
        obtain ⟨d', hd', heq⟩ := List.mem_map.1 hd
        obtain ⟨hname, rfl⟩ := Prod.mk.inj heq
        exact ⟨rfl, .decl d', Program.mem_decls.1 hd', hname, rfl⟩
      · next c rest _ hclauses =>
        have hc : c ∈ p.clausesOf entryPoint := hclauses ▸ List.mem_cons_self
        obtain ⟨hc, hname⟩ := Program.mem_clausesOf.1 hc
        exact ⟨rfl, .clause c, Program.mem_clauses.1 hc, hname, rfl⟩
      · next hdecl hclauses =>
        -- the entry point has a line, and neither a declaration nor a clause
        rcases Program.names_iff.1 hmain with hd | hc
        · rw [← h.has_declared, Assoc.has, hdecl] at hd
          cases hd
        · obtain ⟨c, hc, hname⟩ := List.mem_map.1 hc
          rw [List.eq_nil_iff_forall_not_mem] at hclauses
          exact absurd (Program.mem_clausesOf.2 ⟨hc, hname⟩) (hclauses c)
    dsimp only
    rw [h.builtins, hbuiltin]
    refine hspan.bind ?_
    rintro - t ⟨rfl, l, hl, hname, rfl⟩
    refine (hcall l hl hname).bind fun ty u hu => ?_
    split
    · next hne => exact hu.2 hne
    · next heq => exact hu.1 (Classical.not_not.1 heq)
  · have hnone : s.functions.value? entryPoint = none := by
      rw [h.functions, hbuiltin, if_neg Bool.false_ne_true,
        if_neg fun hn => hmain (Program.names_iff.2 hn)]
    rw [hnone]
    exact hmissing hmain

/-- The report on a function with clauses and without a signature, at its first clause. -/
def report? (table : SignatureTable) (f : String × List Clause) : Option Event :=
  if table.has f.1 then none else f.2.head?.map fun c => .unused f.1 c.span

/-- The reports at the end of a check. -/
def State.reports (s : State) : List Event :=
  s.functions.filterMap (report? s.signatures)

/-- Reports are entered in the journal and nowhere else. -/
theorem reportUnused_spec {s : State} {E : Stop → State → Prop} :
    Ends reportUnused s (fun _ t => t = { s with journal := s.journal ++ s.reports }) E := by
  unfold reportUnused
  rw [ends_bind, ends_get]
  refine Ends.forM (I := fun done t =>
    t = { s with journal := s.journal ++ done.filterMap (report? s.signatures) }) ?_ ?_
  · rintro done ⟨name, clauses⟩ rest t - rfl
    cases clauses with
    | nil => simp [ends_pure, report?]
    | cons c clauses =>
      dsimp only
      split
      · next hhas => simp [ends_pure, report?, hhas]
      · next hhas => simp [ends_record, report?, hhas]
  · rw [List.filterMap_nil, List.append_nil]

/-- The signatures of all declarations are in the table. -/
def Declares (p : Program) (s : State) : Prop :=
  ∀ d ∈ p.decls, s.signatures.lookup d.name = some d.signature

/-- After registration the declared functions are those of the program, with their signatures. -/
theorem Entered.declares {p : Program} {s : State} (h : Entered p.decls p.clauses s) :
    Declares p s :=
  fun d hd => h.lookup_eq_some_iff.2 (.inr ⟨d, hd, rfl, rfl⟩)

/-- No call takes a signature away. -/
theorem Declares.call {p : Program} {s : State} (h : Declares p s) {name : String}
    {args : List Ty} {span : Option Span} :
    Ends (call name args span) s (fun _ t => Declares p t) fun _ _ => True := by
  exact (call_keeps name args span s).mono
    (fun _ _ hst d hd => hst.signatures _ _ (h d hd)) fun _ _ _ => trivial

/-- All that the check of a program can do: stop at the registration, miss the entry point, or
check the entry point and then the declared functions one by one, and report. `R` is what is known
of the state after the registration, and the invariant `I` speaks of the declarations that have
been checked. -/
theorem validate_run {p : Program} {R : State → Prop} {I : List Decl → State → Prop}
    {Q : SignatureTable → State → Prop} {E : Stop → State → Prop}
    (hregister : Ends (do registerBuiltins; registerProgram p) Compile.initial
      (fun _ s => Entered p.decls p.clauses s ∧ R s) E)
    (hmissing : ∀ s, Entered p.decls p.clauses s → R s → ¬ p.Names entryPoint →
      E (.fault ⟨.notFound entryPoint, none⟩) s)
    (hentry : ∀ s, Entered p.decls p.clauses s → R s → ∀ l ∈ p.lines, l.name = entryPoint →
      Ends (call entryPoint [] l.span) s
        (fun ty t => (ty = .int → I [] { t with journal := t.journal ++ [.entryReturns .int] }) ∧
          (ty ≠ .int → E (.fault ⟨.typeMismatch .int ty, l.span⟩) t)) E)
    (hdecl : ∀ done d rest t, p.decls = done ++ d :: rest → I done t → d.name ∉ t.validated →
      Ends (call d.name d.signature.params d.span) t (fun _ u => I (done ++ [d]) u) E)
    (hskip : ∀ done d rest t, p.decls = done ++ d :: rest → I done t → d.name ∈ t.validated →
      I (done ++ [d]) t)
    (hdeclared : ∀ t, I [] t → t.declared = p.decls.map fun d => (d.name, d))
    (hdone : ∀ t, I p.decls t → Q t.signatures { t with journal := t.journal ++ t.reports }) :
    Ends (validate p) Compile.initial Q E := by
  have hshape : validate p = (do registerBuiltins; registerProgram p) >>= fun _ => do
      let ty ← checkEntryPoint
      record (.entryReturns ty)
      (← get).declared.forM fun q => checkDeclared q.2
      reportUnused
      return (← get).signatures := by
    unfold validate
    rw [bind_assoc]
  rw [hshape]
  refine hregister.bind ?_
  rintro - s₀ ⟨hs₀, hR⟩
  refine (checkEntryPoint_ends
    (Q := fun ty t => ty = .int ∧ I [] { t with journal := t.journal ++ [.entryReturns .int] } ∧
      Declares p t)
    hs₀ (hmissing s₀ hs₀ hR) fun l hl hname => ?_).bind ?_
  · exact ((hentry s₀ hs₀ hR l hl hname).and hs₀.declares.call).mono
      (fun ty t h => ⟨fun hty => ⟨hty, h.1.1 hty, h.2⟩, h.1.2⟩) fun _ _ h => h.1
  rintro ty t ⟨rfl, ht, hdeclares⟩
  rw [ends_bind, ends_record, ends_bind, ends_get]
  have hloop : Ends (t.declared.forM fun q => checkDeclared q.2)
      { t with journal := t.journal ++ [.entryReturns .int] }
      (fun _ u => I (t.declared.map (·.2)) u ∧ Declares p u) E := by
    refine Ends.forM
      (I := fun (done : List (String × Decl)) u => I (done.map (·.2)) u ∧ Declares p u)
      ?_ ⟨ht, hdeclares⟩
    rintro done ⟨name, d⟩ rest u hl ⟨hu, hdeclares⟩
    rw [hdeclared _ ht] at hl
    have hl := congrArg (List.map Prod.snd) hl
    rw [List.map_map, List.map_append, List.map_cons] at hl
    have hid : (Prod.snd ∘ fun d : Decl => (d.name, d)) = id := rfl
    rw [hid, List.map_id] at hl
    rw [List.map_append]
    unfold checkDeclared
    rw [ends_bind, ends_get]
    split
    · next hv => exact ⟨hskip _ d _ u hl hu hv, hdeclares⟩
    · next hv =>
      have hd : d ∈ p.decls := by
        rw [hl]
        exact List.mem_append_right _ List.mem_cons_self
      rw [hdeclares d hd]
      exact ends_discard.2 (((hdecl _ d _ u hl hu hv).and hdeclares.call).mono (fun _ _ h => h)
        fun _ _ h => h.1)
  refine hloop.bind ?_
  rintro - u ⟨hu, -⟩
  rw [hdeclared _ ht, List.map_map] at hu
  have hid : ((·.2) ∘ fun d : Decl => (d.name, d)) = id := rfl
  rw [hid, List.map_id] at hu
  refine reportUnused_spec.bind ?_
  rintro - v rfl
  exact hdone u hu

/-- `validate_run` for what is said of the signatures alone: the journal is no part of it, and
neither is the way in which a check stops before the first call. -/
theorem validate_ends {p : Program} {I : List Decl → State → Prop} {Q : SignatureTable → Prop}
    {E : Stop → Prop}
    (hregister : ¬ p.Registrable → ∀ e, E e)
    (hmissing : ¬ p.Names entryPoint → ∀ e, E e)
    (hentry : ∀ s span, Entered p.decls p.clauses s → p.Names entryPoint →
      Ends (call entryPoint [] span) s
        (fun ty t => (ty = .int → I [] t) ∧ (ty ≠ .int → ∀ e, E e)) fun e _ => E e)
    (hdecl : ∀ done d rest t span, p.decls = done ++ d :: rest → I done t → d.name ∉ t.validated →
      Ends (call d.name d.signature.params span) t (fun _ u => I (done ++ [d]) u) fun e _ => E e)
    (hskip : ∀ done d rest t, p.decls = done ++ d :: rest → I done t → d.name ∈ t.validated →
      I (done ++ [d]) t)
    (hdeclared : ∀ t, I [] t → t.declared = p.decls.map fun d => (d.name, d))
    (hjournal : ∀ done t j, I done t → I done { t with journal := j })
    (hdone : ∀ t, I p.decls t → Q t.signatures) :
    Ends (validate p) Compile.initial (fun table _ => Q table) fun e _ => E e := by
  refine validate_run (R := fun _ => True) (I := I) ?_ (fun _ _ _ hno => hmissing hno _)
    (fun s hs _ l hl hname => ?_) (fun done d rest t => hdecl done d rest t d.span) hskip hdeclared
    hdone
  · exact (register_spec p).mono (fun _ _ h => ⟨h.2, trivial⟩) fun e _ h => hregister h.1 e
  · exact (hentry s l.span hs ⟨l, hl, hname⟩).mono
      (fun ty t h => ⟨fun hty => hjournal [] t _ (h.1 hty), fun hty => h.2 hty _⟩) fun _ _ h => h

end Check

end Clausal
