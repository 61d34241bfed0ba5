import Clausal.Proofs.Check.Sound

/-!
# What a check leaves behind and where it stops

Checking a call changes the state in five ways only: it enters the check of a clause in the journal,
makes a function active and inactive again, marks a function with a signature as checked, and gives
a function its first signature. A property that each of these keeps (`Stable`) holds after the whole
check, however it ends (`checkCall_runs`).

The same walk shows which faults can end a check: refusals, and the fault of a function without
clauses that has no signature either. A function is not given a signature while it is active, so
none is defined twice, in whatever state a call is checked (`call_not_alreadyDefined`), and only
functions with a signature are marked as checked, so the signature of a checked function is there
when it is asked for (`call_signed`). In the check of a program a function without clauses has a
signature from the registration (`Grounded`), so there only refusals remain (`validate_runs`).
-/

namespace Clausal.Check

variable {α : Type} {I J : State → Prop} {E : Stop → Prop} {s t : State} {name : String}
  {args : List Ty} {span : Option Span} {onCall : OnCall}

/-- A property of states that no step of a check takes away. -/
structure Stable (I : State → Prop) : Prop where
  checking : ∀ {s} c, I s → I { s with journal := s.journal ++ [.checking c] }
  enter : ∀ {s} name, I s → I { s with active := name :: s.active }
  leave : ∀ {s}, I s → I { s with active := s.active.tail }
  mark : ∀ {s} name sig, s.signatures.lookup name = some sig → I s → I (s.mark name)
  infer : ∀ {s} name sig, s.signatures.lookup name = none → I s → I (s.infer name sig)

/-- Two properties that no step takes away. -/
theorem Stable.and (hI : Stable I) (hJ : Stable J) : Stable fun s => I s ∧ J s where
  checking c h := ⟨hI.checking c h.1, hJ.checking c h.2⟩
  enter name h := ⟨hI.enter name h.1, hJ.enter name h.2⟩
  leave h := ⟨hI.leave h.1, hJ.leave h.2⟩
  mark name sig hsig h := ⟨hI.mark name sig hsig h.1, hJ.mark name sig hsig h.2⟩
  infer name sig hnone h := ⟨hI.infer name sig hnone h.1, hJ.infer name sig hnone h.2⟩

/-- A function without clauses and without a signature: nothing is there to infer its type from. -/
def Baseless (s : State) (f : String) : Prop :=
  s.clausesOf f = [] ∧ s.signatures.lookup f = none

/-- What may stop a check: a refusal, a function that can be called and is baseless, and a function
that is checked and has lost its signature. -/
structure MayStop (I : State → Prop) (E : Stop → Prop) : Prop where
  refusal : ∀ e, Refusal e → E e
  noClause : ∀ s f span, I s → s.functions.has f = true → Baseless s f →
    E (.fault ⟨.noClause f, span⟩)
  noSignature : ∀ s f, I s → f ∈ s.validated → s.signatures.lookup f = none → E (.noSignature f)

theorem mayStop_any : MayStop I fun _ => True :=
  ⟨fun _ _ => trivial, fun _ _ _ _ _ _ => trivial, fun _ _ _ _ _ => trivial⟩

/-- The step keeps the property however it ends, and it stops with `E` only. -/
def Runs (I : State → Prop) (E : Stop → Prop) (m : CheckM α) (s : State) : Prop :=
  Ends m s (fun _ t => I t) fun e t => I t ∧ E e

/-- Calls keep the property and stop with `E` only, if that may stop the call of a baseless
function. -/
def RunsCall (I : State → Prop) (E : Stop → Prop) (onCall : OnCall) : Prop :=
  ∀ g args span s, I s → (Baseless s g → E (.fault ⟨.noClause g, span⟩)) →
    Runs I E (onCall g args span) s

/-! ## Expressions and clauses -/

/-- Calls that keep the property are steady in it. -/
theorem RunsCall.steady (hE : MayStop I E) (hcall : RunsCall I E onCall) (g : String) :
    Steady I (fun e t => I t ∧ E e) onCall g := fun args span s hs hhas =>
  hcall g args span s hs (hE.noClause s g span hs hhas)

/-- A plain refusal may stop a check. -/
theorem MayStop.plain (hE : MayStop I E) (e : Stop) (s : State) (he : Plain e) (hs : I s) :
    I s ∧ E e :=
  ⟨hs, hE.refusal e he.1⟩

/-- Typing an expression keeps the property. -/
theorem inferExpr_runs {locals : Assoc Ty} (hE : MayStop I E) (hcall : RunsCall I E onCall)
    (e : Expr) (hs : I s) : Runs I E (inferExpr onCall locals e) s :=
  inferExpr_traverses hE.plain e (fun g _ _ => hcall.steady hE g) s hs

/-- So does checking a clause. -/
theorem checkClause_runs {c : Clause} (hI : Stable I) (hE : MayStop I E)
    (hcall : RunsCall I E onCall) (hs : I s) : Runs I E (checkClause onCall c args) s :=
  checkClause_traverses hE.plain (fun _ => hI.checking c) (fun g _ => hcall.steady hE g) hs

/-- There is one result for each clause. -/
theorem checkClauses_runs {clauses : List Clause} (hI : Stable I) (hE : MayStop I E)
    (hcall : RunsCall I E onCall) (hs : I s) :
    Ends (checkClauses onCall args clauses) s
      (fun results t => results.map (·.1) = clauses ∧ I t) fun e t => I t ∧ E e :=
  checkClauses_traverses hE.plain (fun _ c => hI.checking c) (fun _ _ g _ => hcall.steady hE g) hs

/-! ## Calls -/

/-- Visiting a function keeps the property, and what stops it is a refusal, unless the function is
baseless: it has no signature after its clauses are checked if it had none before. -/
theorem visit_runs (hI : Stable I) (hE : MayStop I E) (hcall : RunsCall I E onCall)
    (hkeeps : ∀ g, Any g → ∀ args span t, t.functions = s.functions →
      Keeps Any (onCall g args span) t)
    (hs : I s) (hbaseless : Baseless s name → E (.fault ⟨.noClause name, span⟩)) :
    Runs I E (visit onCall name (s.signatures.lookup name) args span (s.clausesOf name)) s := by
  have hruns : Ends (withActive name (checkClauses onCall args (s.clausesOf name))) s
      (fun results t => results.map (·.1) = s.clausesOf name ∧ I t)
      (fun e t => I t ∧ E e) :=
    ends_withActive.2 <| (checkClauses_runs hI hE hcall (hI.enter name hs)).mono
      (fun _ _ h => ⟨h.1, hI.leave h.2⟩) fun _ _ h => ⟨hI.leave h.1, h.2⟩
  have hkept : Keeps Any (checkClauses onCall args (s.clausesOf name))
      { s with active := name :: s.active } :=
    checkClauses_keeps hkeeps (fun _ _ _ _ => trivial) rfl
  refine Ends.bind ((hruns.and hkept.withActive).mono (fun _ _ h => h) fun _ _ h => h.1) ?_
  rintro results t ⟨⟨hresults, ht⟩, -, hsame⟩
  refine settle_run (fun _ _ _ => ht) (fun ty _ _ hnone => hI.infer name _ hnone ht)
    (fun sig _ hsig => hI.mark name sig (hsame.trans hsig) ht) (fun hnil hnone => ?_)
    (fun sig hnone hsig => ?_) fun _ e he => hE.plain e t he ht
  · rw [hnil] at hresults
    exact ⟨ht, hbaseless ⟨hresults.symm, hnone⟩⟩
  · rw [hsame, hnone] at hsig
    cases hsig

/-- **A check keeps what its steps keep**, at any depth and however it ends. -/
theorem checkCall_runs (hI : Stable I) (hE : MayStop I E) (depth : Nat) :
    RunsCall I E (checkCall depth) := by
  induction depth with
  | zero => exact fun g args span s hs _ => ⟨hs, hE.refusal _ .untyped⟩
  | succ depth ih =>
    intro g args span s hs hbaseless
    refine checkCall_run (fun _ _ _ e he => hE.plain e s he hs) (fun _ _ _ _ => hs)
      (fun hnone hv => ⟨hs, hE.noSignature s g hs hv hnone⟩)
      (fun _ _ => ⟨hs, hE.refusal _ .untyped⟩) fun _ _ _ => ?_
    exact visit_runs hI hE ih (checkCall_keeps (closed_any s.functions) depth) hs hbaseless

/-- No call defines a function twice, in whatever state it is checked. -/
theorem call_not_alreadyDefined (name : String) (args : List Ty) (span : Option Span) (s : State) :
    Ends (call name args span) s (fun _ _ => True)
      fun e _ => ∀ f at?, e ≠ .fault ⟨.alreadyDefined f, at?⟩ := by
  have hstable : Stable fun _ => True :=
    ⟨fun _ _ => trivial, fun _ _ => trivial, fun _ => trivial, fun _ _ _ _ => trivial,
      fun _ _ _ _ => trivial⟩
  have hstop : MayStop (fun _ => True) fun e => ∀ f at?, e ≠ .fault ⟨.alreadyDefined f, at?⟩ := by
    refine ⟨fun e he f at? => ?_, fun s f span _ _ _ g at? => ?_, fun s f _ _ _ g at? => ?_⟩
    · cases he <;> simp
    · simp
    · simp
  rw [ends_call]
  refine (checkCall_runs hstable hstop _ name args span s trivial fun _ f at? => ?_).mono
    (fun _ _ h => h) fun _ _ h => h.2
  simp

/-- Only functions with a signature are marked as validated. -/
theorem stable_signed : Stable Signed where
  checking _ h := h
  enter _ h := h
  leave h := h
  mark _ _ hsig h := h.mark hsig
  infer _ _ hnone h := h.infer hnone

/-- Where every checked function has a signature, no call stops for want of one, and it leaves such
a state. -/
theorem call_signed (name : String) (args : List Ty) (span : Option Span) (hs : Signed s) :
    Ends (call name args span) s (fun _ t => Signed t)
      fun e t => Signed t ∧ ∀ f, e ≠ .noSignature f := by
  have hstop : MayStop Signed fun e => ∀ f, e ≠ .noSignature f := by
    refine ⟨fun e he f => ?_, fun s f span _ _ _ g => ?_, fun s f hs hv hnone => ?_⟩
    · cases he <;> simp
    · simp
    · obtain ⟨sig, hsig⟩ := hs f hv
      rw [hnone] at hsig
      cases hsig
  rw [ends_call]
  exact checkCall_runs stable_signed hstop _ name args span s hs fun _ f => by simp

/-! ## Programs -/

/-- Every function that can be called has clauses or a signature, and every function that is checked
has a signature. -/
structure Grounded (s : State) : Prop where
  based : ∀ f, s.functions.has f = true → ¬ Baseless s f
  signed : Signed s

/-- The journal does not matter. -/
theorem Grounded.journal (h : Grounded s) (j : Journal) : Grounded { s with journal := j } :=
  ⟨h.based, h.signed⟩

/-- A check leaves no function that can be called without a base. -/
theorem stable_grounded : Stable Grounded where
  checking _ h := h.journal _
  enter _ h := ⟨h.based, h.signed⟩
  leave h := ⟨h.based, h.signed⟩
  mark _ _ hsig h := ⟨h.based, h.signed.mark hsig⟩
  infer name sig hnone h := by
    refine ⟨fun f hf => ?_, h.signed.infer hnone⟩
    rintro ⟨hnil, hlookup⟩
    rw [State.lookup_infer hnone] at hlookup
    split at hlookup
    · cases hlookup
    · exact h.based f hf ⟨hnil, hlookup⟩

/-- Where every function has clauses or a signature, and a signature if it is checked, only refusals
stop a check. -/
theorem mayStop_refusal (hground : ∀ s, I s → Grounded s) : MayStop I Refusal where
  refusal _ he := he
  noClause s f _ hs hf hbaseless := absurd hbaseless ((hground s hs).based f hf)
  noSignature s f hs hv hnone := by
    obtain ⟨sig, hsig⟩ := (hground s hs).signed f hv
    cases hnone.symm.trans hsig

/-- A call from outside keeps the property, and stops with a refusal only. -/
theorem call_runs (hI : Stable I) (hground : ∀ s, I s → Grounded s) (hs : I s)
    (hhas : s.functions.has name = true) :
    Ends (call name args span) s (fun _ t => I t ∧ Frame Any s t) fun e _ => Refusal e := by
  have hkeeps := checkCall_keeps (closed_any s.functions) (s.functions.length + 1) name trivial
    args span s rfl
  have hruns := checkCall_runs hI (mayStop_refusal hground) (s.functions.length + 1) name args span
    s hs fun hbaseless => absurd hbaseless ((hground s hs).based name hhas)
  rw [ends_call]
  exact (hruns.and hkeeps).mono (fun _ _ h => h) fun _ _ h => h.1.2

/-- After the registration a function without clauses is built in or declared. -/
theorem Entered.grounded {p : Program} (h : Entered p.decls p.clauses s) : Grounded s := by
  refine ⟨?_, fun f hf => absurd (h.validated ▸ hf) List.not_mem_nil⟩
  rintro f hf ⟨hnil, hnone⟩
  have hsome : ∃ sig, s.signatures.lookup f = some sig := by
    rcases h.has_functions_iff.1 hf with hb | hnames
    · obtain ⟨sig, hsig⟩ := Option.isSome_iff_exists.1 hb
      exact ⟨sig, h.lookup_eq_some_iff.2 (.inl hsig)⟩
    · rcases Program.names_iff.1 hnames with hd | hc
      · obtain ⟨d, hd, hname⟩ := List.mem_map.1 hd
        exact ⟨d.signature, h.lookup_eq_some_iff.2 (.inr ⟨d, hd, hname, rfl⟩)⟩
      · obtain ⟨c, hc, hname⟩ := List.mem_map.1 hc
        rw [h.clausesOf, List.eq_nil_iff_forall_not_mem] at hnil
        exact absurd (Program.mem_clausesOf.2 ⟨hc, hname⟩) (hnil c)
  obtain ⟨sig, hsig⟩ := hsome
  exact nomatch hnone.symm.trans hsig

/-- **The check of a program keeps what its steps keep.** From the state `s` after the registration
it comes to a state `u` with the property and then reports on functions without a signature, or it
stops with a refusal, or at a line for a name that is taken. `R` is what is known of `s` besides. -/
theorem validate_runs {p : Program} {R : State → Prop} (hI : Stable I)
    (hground : ∀ s, I s → Grounded s)
    (hreturns : ∀ s, I s → I { s with journal := s.journal ++ [.entryReturns .int] })
    (hregister : Ends (do registerBuiltins; registerProgram p) Compile.initial (fun _ s => R s)
      fun _ _ => True)
    (hstart : ∀ s, Entered p.decls p.clauses s → R s → I s) :
    Ends (validate p) Compile.initial
      (fun table t => ∃ s u, Entered p.decls p.clauses s ∧ R s ∧ Frame Any s u ∧ I u ∧
        table = u.signatures ∧ t = { u with journal := u.journal ++ u.reports })
      fun e _ => Refusal e ∨
        ¬ p.Registrable ∧ ∃ l ∈ p.lines, e = .fault ⟨.alreadyDefined l.name, l.span⟩ := by
  refine validate_run (R := R)
    (I := fun _ t => I t ∧ ∃ s, Entered p.decls p.clauses s ∧ R s ∧ Frame Any s t)
    ?_ (fun _ _ _ _ => .inl .notFound) (fun s hs hR l hline hname => ?_)
    (fun done d rest t hl ht _ => ?_) (fun _ _ _ _ _ ht _ => ht) (fun t ht => ?_)
    fun t ht => ?_
  · exact ((register_spec p).and hregister).mono (fun _ _ h => ⟨h.1.2, h.2⟩) fun _ _ h => .inr h.1
  · have hhas := hs.has_functions_iff.2 (.inr ⟨l, hline, hname⟩)
    refine (call_runs hI hground (hstart s hs hR) hhas).mono ?_ fun _ _ h => .inl h
    rintro ty t ⟨ht, hst⟩
    refine ⟨fun _ => ⟨hreturns t ht, s, hs, hR, hst.trans (Frame.journal t _)⟩, fun _ => ?_⟩
    exact .inl .typeMismatch
  · obtain ⟨ht, s, hs, hR, hst⟩ := ht
    have hd : d ∈ p.decls := by
      rw [hl]
      exact List.mem_append_right _ List.mem_cons_self
    have hhas : t.functions.has d.name = true := by
      rw [hst.functions, hs.has_functions_iff]
      exact .inr (Program.names_iff.2 (.inl (List.mem_map.2 ⟨d, hd, rfl⟩)))
    refine (call_runs hI hground ht hhas).mono ?_ fun _ _ h => .inl h
    rintro ty u ⟨hu, htu⟩
    exact ⟨hu, s, hs, hR, hst.trans htu⟩
  · obtain ⟨-, s, hs, -, hst⟩ := ht
    exact hst.declared.trans hs.declared
  · obtain ⟨ht, s, hs, hR, hst⟩ := ht
    exact ⟨s, t, hs, hR, hst, ht, rfl, rfl⟩

end Clausal.Check
