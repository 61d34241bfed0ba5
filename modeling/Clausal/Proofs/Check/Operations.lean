import Clausal.Proofs.Check.Stops

/-!
# Runs of operations

A check keeps its state from one operation to the next, also after an operation that stopped in the
middle of a nested inference. `operations_keep` is what holds of every such run, with any built-in
functions and any programs: after each operation no function is active, every validated function has
a signature, and every signature belongs to a built-in, a declared or a validated function; and no
operation changes or takes away a signature or a validated function.

A step is `Safe` if it keeps all that from any consistent state, however it ends, and safe steps
compose (`Safe.bind`, `Safe.forM`). Checking calls is safe because it keeps the frame
(`checkCall_keeps`) and because only functions with a signature are marked (`stable_signed`);
registration is safe line by line.
-/

namespace Clausal.Check

variable {α β γ : Type} {s t u : State}

/-! ## Consistent states -/

/-- A state between two operations: no function is active, every validated function has a signature,
and every signature belongs to a built-in, a declared or a validated function. -/
structure Consistent (s : State) : Prop where
  idle : s.active = []
  signed : Signed s
  origin : ∀ f sig, s.signatures.lookup f = some sig →
    s.builtins.has f = true ∨ s.declared.has f = true ∨ f ∈ s.validated

/-- A later state of a check: it has the same built-in functions, and all signatures and validated
functions of the earlier one. -/
structure Later (s t : State) : Prop where
  builtins : t.builtins = s.builtins
  signatures : Extends s.signatures.lookup t.signatures.lookup
  validated : s.validated ⊆ t.validated

theorem Later.refl (s : State) : Later s s :=
  ⟨rfl, Extends.refl _, List.Subset.refl _⟩

theorem Later.trans (h : Later s t) (h' : Later t u) : Later s u :=
  ⟨h'.builtins.trans h.builtins, h.signatures.trans h'.signatures,
    List.Subset.trans h.validated h'.validated⟩

/-- At first nothing is known, and that is consistent. -/
theorem consistent_initial (externals : Assoc Signature) : Consistent { builtins := externals } :=
  ⟨rfl, fun f hf => absurd hf List.not_mem_nil, fun f sig hf => by cases hf⟩

/-- From a consistent state the step comes to a later consistent state, however it ends. -/
def Safe (m : CheckM α) : Prop :=
  ∀ s, Consistent s → Ends m s (fun _ t => Consistent t ∧ Later s t)
    fun _ t => Consistent t ∧ Later s t

namespace Safe

theorem pure (a : α) : Safe (Pure.pure a) := fun s hs => ⟨hs, Later.refl s⟩

/-- A step that stops leaves the state as it is. -/
theorem stop (e : Stop) : Safe (throw e : CheckM α) := fun s hs => ⟨hs, Later.refl s⟩

/-- One safe step after the other. -/
theorem bind {m : CheckM α} {f : α → CheckM β} (h : Safe m) (hf : ∀ a, Safe (f a)) :
    Safe (m >>= f) := by
  intro s hs
  refine (h s hs).bind ?_
  rintro a t ⟨ht, hst⟩
  exact (hf a t ht).mono (fun _ u hu => ⟨hu.1, hst.trans hu.2⟩) fun _ u hu => ⟨hu.1, hst.trans hu.2⟩

/-- A step that first looks at the state is safe if it is safe from the state it has seen. -/
theorem look {f : State → CheckM α}
    (h : ∀ s, Consistent s → Ends (f s) s (fun _ t => Consistent t ∧ Later s t)
      fun _ t => Consistent t ∧ Later s t) : Safe (get >>= f) := by
  intro s hs
  rw [ends_bind, ends_get]
  exact h s hs

/-- A safe step repeated over a list. -/
theorem forM {l : List γ} {f : γ → CheckM PUnit} (h : ∀ x ∈ l, Safe (f x)) : Safe (l.forM f) := by
  intro s hs
  refine Ends.forM (I := fun _ t => Consistent t ∧ Later s t) ?_ ⟨hs, Later.refl s⟩
  rintro done x rest t rfl ⟨ht, hst⟩
  exact (h x (List.mem_append_right _ List.mem_cons_self) t ht).mono
    (fun _ u hu => ⟨hu.1, hst.trans hu.2⟩) fun _ u hu => ⟨hu.1, hst.trans hu.2⟩

end Safe

/-- A step that changes nothing but the journal. -/
theorem record_safe (e : Event) : Safe (record e) := fun _ hs =>
  ⟨⟨hs.idle, hs.signed, hs.origin⟩, rfl, Extends.refl _, List.Subset.refl _⟩

/-! ## Calls, clauses and expressions -/

/-- A step that keeps the frame and the signatures of validated functions is safe. -/
theorem safe_of_keeps {m : CheckM α} (hkeeps : ∀ s, Keeps Any m s)
    (hsigned : ∀ s, Signed s → Runs Signed (fun _ => True) m s) : Safe m := by
  intro s hs
  have hframe : ∀ t, Signed t → Frame Any s t → Consistent t ∧ Later s t := by
    refine fun t ht hst => ⟨⟨hst.active.trans hs.idle, ht, fun f sig hf => ?_⟩,
      hst.builtins, hst.signatures, hst.validated⟩
    rcases hst.fresh f sig hf with hf | ⟨-, -, hv⟩
    · rw [hst.builtins, hst.declared]
      exact (hs.origin f sig hf).imp id (Or.imp id (hst.validated f))
    · exact .inr (.inr hv)
  exact ((hsigned s hs.signed).and (hkeeps s)).mono (fun _ t h => hframe t h.1 h.2)
    fun _ t h => hframe t h.1.1 h.2

/-- Calls keep every checked function signed. -/
theorem call_runs_signed : RunsCall Signed (fun _ => True) call := by
  intro g args span s hs _
  unfold Runs
  rw [ends_call]
  exact checkCall_runs stable_signed mayStop_any _ g args span s hs fun _ => trivial

/-- A call from outside is safe. -/
theorem call_safe (name : String) (args : List Ty) (span : Option Span) :
    Safe (call name args span) :=
  safe_of_keeps (call_keeps name args span)
    fun s hs => call_runs_signed name args span s hs fun _ => trivial

/-- The check of a clause from outside is safe. -/
theorem clause_safe (c : Clause) (args : List Ty) : Safe (clause c args) :=
  safe_of_keeps
    (fun _ => checkClause_keeps (fun g _ args span t _ => call_keeps g args span t)
      fun _ _ => trivial)
    fun _ hs => checkClause_runs stable_signed mayStop_any call_runs_signed hs

/-- The check of an expression from outside is safe. -/
theorem expr_safe (e : Expr) (locals : Assoc Ty) : Safe (expr e locals) :=
  safe_of_keeps
    (fun _ => inferExpr_keeps e (fun g _ args span t _ => call_keeps g args span t)
      fun _ _ _ => trivial)
    fun _ hs => inferExpr_runs mayStop_any call_runs_signed e hs

/-! ## Registration -/

/-- A first signature takes nothing away. -/
theorem Later.define {name : String} {sig : Signature} (h : s.signatures.lookup name = none) :
    Later s { s with signatures := s.signatures ++ [(name, sig)] } where
  builtins := rfl
  signatures f sig' hf := by
    show SignatureTable.lookup (s.signatures ++ [(name, sig)]) f = some sig'
    rw [lookup_append_new h, if_neg]
    · exact hf
    · rintro rfl
      exact nomatch h.symm.trans hf
  validated := List.Subset.refl _

/-- The state with one more signature is consistent if the name is now built in or declared; the
functions and their clauses do not matter. -/
theorem Consistent.define {name : String} {sig : Signature} {declared : Assoc Decl}
    {functions : Assoc (List Clause)} (hs : Consistent s) (h : s.signatures.lookup name = none)
    (hname : s.builtins.has name = true ∨ declared.has name = true)
    (hdeclared : ∀ f, s.declared.has f = true → declared.has f = true) :
    Consistent { s with signatures := s.signatures ++ [(name, sig)]
                        declared := declared
                        functions := functions } where
  idle := hs.idle
  signed f hf := by
    obtain ⟨sig', hsig⟩ := hs.signed f hf
    exact ⟨sig', (Later.define h).signatures f sig' hsig⟩
  origin f sig' hf := by
    have hf : SignatureTable.lookup (s.signatures ++ [(name, sig)]) f = some sig' := hf
    rw [lookup_append_new h] at hf
    split at hf
    · next heq =>
      subst heq
      exact hname.imp id .inl
    · exact (hs.origin f sig' hf).imp id (Or.imp (hdeclared f) id)

/-- Entering the built-in functions is safe. -/
theorem registerBuiltins_safe : Safe registerBuiltins := by
  refine Safe.look fun s hs => ?_
  refine Ends.forM (I := fun _ t => Consistent t ∧ Later s t) ?_ ⟨hs, Later.refl s⟩
  rintro done ⟨name, sig⟩ rest t hl ⟨ht, hst⟩
  have hname : t.builtins.has name = true := by
    rw [hst.builtins, hl, Assoc.has_iff_mem_names, Assoc.names, List.map_append]
    exact List.mem_append_right _ List.mem_cons_self
  refine (define_spec.mono (fun _ _ h => h) ?_).bind ?_
  · rintro e u ⟨rfl, -, -⟩
    exact ⟨ht, hst⟩
  · rintro - u ⟨hnone, rfl⟩
    refine ⟨ht.define hnone (.inl hname) fun _ h => h, hst.trans ?_⟩
    exact ⟨rfl, (Later.define hnone).signatures, List.Subset.refl _⟩

/-- Entering a signature line is safe. -/
theorem registerDecl_safe (d : Decl) : Safe (registerDecl d) := by
  refine Safe.look fun s hs => ?_
  split
  · exact ⟨hs, Later.refl s⟩
  · refine (define_spec.mono (fun _ _ h => h) ?_).bind ?_
    · rintro e t ⟨rfl, -, -⟩
      exact ⟨hs, Later.refl _⟩
    · rintro - t ⟨hnone, rfl⟩
      have hput : ∀ f, s.declared.has f = true ∨ f = d.name →
          (s.declared.put d.name d).has f = true := by
        intro f hf
        unfold Assoc.has at hf ⊢
        rw [Assoc.value?_put]
        split
        · rfl
        · next hne => exact hf.resolve_right fun heq => hne heq.symm
      refine ⟨hs.define hnone (.inr (hput _ (.inr rfl))) fun f hf => hput f (.inl hf), rfl,
        (Later.define hnone).signatures, List.Subset.refl _⟩

/-- Entering a clause is safe. -/
theorem registerClause_safe (c : Clause) : Safe (registerClause c) := by
  refine Safe.look fun s hs => ?_
  split
  · exact ⟨hs, Later.refl s⟩
  · exact ⟨⟨hs.idle, hs.signed, hs.origin⟩, rfl, Extends.refl _, List.Subset.refl _⟩

/-- Entering a program is safe. -/
theorem registerProgram_safe (p : Program) : Safe (registerProgram p) :=
  (Safe.forM fun d _ => registerDecl_safe d).bind fun _ =>
    Safe.forM fun c _ => registerClause_safe c

/-! ## Programs -/

/-- Looking for the place of the entry point is safe. -/
theorem entrySpan_safe (s : State) (clauses : List Clause) : Safe (entrySpan s clauses) := by
  unfold entrySpan
  split
  · exact Safe.pure _
  · exact Safe.pure _
  · exact Safe.stop _

/-- The check of the entry point is safe. -/
theorem checkEntryPoint_safe : Safe checkEntryPoint := by
  refine Safe.look fun s => ?_
  split
  · exact Safe.stop _ s
  · split
    · exact Safe.stop _ s
    · refine (entrySpan_safe s _).bind (fun span => ?_) s
      refine (call_safe _ _ _).bind fun ty => ?_
      split
      · exact Safe.stop _
      · exact Safe.pure _

/-- The check of a declared function is safe. -/
theorem checkDeclared_safe (d : Decl) : Safe (checkDeclared d) := by
  refine Safe.look fun s => ?_
  split
  · exact Safe.pure _ s
  split
  · exact fun hs => ends_discard.2 (call_safe _ _ _ s hs)
  · exact Safe.stop _ s

/-- Reporting unused functions is safe. -/
theorem reportUnused_safe : Safe reportUnused := by
  refine Safe.look fun s => Safe.forM ?_ s
  rintro ⟨name, clauses⟩ -
  cases clauses with
  | nil => exact Safe.pure _
  | cons c clauses =>
    dsimp only
    split
    · exact Safe.pure _
    · exact record_safe _

/-- The check of a program is safe. -/
theorem validate_safe (p : Program) : Safe (validate p) := by
  refine registerBuiltins_safe.bind fun _ => ?_
  refine (registerProgram_safe p).bind fun _ => ?_
  refine checkEntryPoint_safe.bind fun ty => ?_
  refine (record_safe _).bind fun _ => ?_
  refine Safe.look fun s => ?_
  refine (Safe.forM fun d _ => checkDeclared_safe d.2).bind (fun _ => ?_) s
  refine reportUnused_safe.bind fun _ => ?_
  exact Safe.look fun s => Safe.pure _ s

/-! ## Runs -/

/-- What a check can be asked to do. -/
inductive Operation where
  /-- Check a whole program. -/
  | validate (p : Program)
  /-- Enter the built-in functions. -/
  | registerBuiltins
  /-- Enter the lines of a program. -/
  | registerProgram (p : Program)
  /-- Check a call. -/
  | call (name : String) (args : List Ty) (span : Option Span)
  /-- Check a clause. -/
  | clause (c : Clause) (args : List Ty)
  /-- Find the type of an expression. -/
  | expr (e : Expr) (locals : Assoc Ty)

namespace Operation

/-- An operation as a step whose result is dropped. -/
def step : Operation → CheckM Unit
  | .validate p => discard (Check.validate p)
  | .registerBuiltins => Check.registerBuiltins
  | .registerProgram p => Check.registerProgram p
  | .call name args span => discard (Check.call name args span)
  | .clause c args => discard (Check.clause c args)
  | .expr e locals => discard (Check.expr e locals)

/-- The state that an operation leaves behind, whether it returns or stops. -/
def after (op : Operation) (s : State) : State :=
  (op.step.run.run s).2

/-- The state after several operations, one after another. -/
def afterAll (ops : List Operation) (s : State) : State :=
  ops.foldl (fun s op => op.after s) s

/-- Every operation is safe. -/
theorem step_safe : ∀ op : Operation, Safe op.step
  | .validate p => fun s hs => ends_discard.2 (validate_safe p s hs)
  | .registerBuiltins => registerBuiltins_safe
  | .registerProgram p => registerProgram_safe p
  | .call name args span => fun s hs => ends_discard.2 (call_safe name args span s hs)
  | .clause c args => fun s hs => ends_discard.2 (clause_safe c args s hs)
  | .expr e locals => fun s hs => ends_discard.2 (expr_safe e locals s hs)

/-- One operation comes to a later consistent state. -/
theorem after_safe (op : Operation) (hs : Consistent s) :
    Consistent (op.after s) ∧ Later s (op.after s) := by
  have hsafe := op.step_safe s hs
  unfold after
  rcases hrun : op.step.run.run s with ⟨e | a, t⟩
  · exact hsafe.of_error hrun
  · exact hsafe.of_ok hrun

/-- Several operations come to a later consistent state. -/
theorem afterAll_safe (ops : List Operation) (hs : Consistent s) :
    Consistent (afterAll ops s) ∧ Later s (afterAll ops s) := by
  induction ops generalizing s with
  | nil => exact ⟨hs, Later.refl s⟩
  | cons op ops ih =>
    obtain ⟨ht, hst⟩ := op.after_safe hs
    obtain ⟨hu, htu⟩ := ih ht
    exact ⟨hu, hst.trans htu⟩

end Operation

/-- **What every run of operations keeps.** Start with any built-in functions and let some
operations go before, each of which returned or stopped. After one more operation no function is
active, every validated function has a signature, and a function with a signature is built in,
declared or validated. The operation, whether it returned or stopped, has changed or taken away no
signature, and no function is validated no longer. -/
theorem operations_keep (externals : Assoc Signature) (before : List Operation) (op : Operation) :
    let s := Operation.afterAll before { builtins := externals }
    let t := op.after s
    t.active = [] ∧
    (∀ f ∈ t.validated, ∃ sig, t.signatures.lookup f = some sig) ∧
    (∀ f sig, t.signatures.lookup f = some sig →
      externals.has f = true ∨ t.declared.has f = true ∨ f ∈ t.validated) ∧
    (∀ f sig, s.signatures.lookup f = some sig → t.signatures.lookup f = some sig) ∧
    s.validated ⊆ t.validated := by
  intro s t
  obtain ⟨hs, hstart⟩ := Operation.afterAll_safe before (consistent_initial externals)
  obtain ⟨ht, hst⟩ := op.after_safe hs
  refine ⟨ht.idle, ht.signed, fun f sig hf => ?_, hst.signatures, hst.validated⟩
  have hbuiltins : t.builtins = externals := hst.builtins.trans hstart.builtins
  exact hbuiltins ▸ ht.origin f sig hf

/-- A program that is refused after one of its functions has been checked: `lost` is not defined. -/
def broken : Program where
  file := "broken"
  lines :=
    let here : Span := ⟨"broken", 1, 1, 1, 1⟩
    let int (n : Int) : Expr := .lit (.int n) here
    let call (f : String) (args : List Expr) : Expr := .call f args here
    [.clause ⟨"main", [], .binary (call "twice" [int 2]) .add (call "lost" [int 1]) here, here⟩,
      .clause ⟨"twice", [.name "n" here],
        .binary (call "n" []) .add (call "n" []) here, here⟩]

/-- After a check that stops, further operations keep what it has found. -/
theorem operations_keep_broken :
    let s := Operation.afterAll [.validate broken] { builtins := Builtin.signatures }
    let t := (Operation.call "twice" [.float] none).after s
    ((validate broken).run.run { builtins := Builtin.signatures }).1.toOption = none ∧
      s.validated = ["twice"] ∧ t.active = [] ∧ "twice" ∈ t.validated ∧
      t.signatures.lookup "twice" = some ⟨[.int], .int⟩ := by
  intro s t
  have hvalidated : s.validated = ["twice"] := by decide +kernel
  have htwice : s.signatures.lookup "twice" = some ⟨[.int], .int⟩ := by decide +kernel
  obtain ⟨hidle, -, -, hsignatures, hkept⟩ := operations_keep Builtin.signatures [.validate broken]
    (.call "twice" [.float] none)
  refine ⟨by decide +kernel, hvalidated, hidle, hkept ?_, hsignatures _ _ htwice⟩
  exact hvalidated ▸ List.mem_singleton.2 rfl

end Clausal.Check
