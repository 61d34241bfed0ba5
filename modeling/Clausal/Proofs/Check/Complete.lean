import Clausal.Proofs.Check.Sound

/-!
# Completeness of type inference

`validate_complete`: if a registrable program with an entry point has any typing `T` of its
reachable functions, the check of the program returns exactly `T` on the built-in and the reachable
functions, or refuses an undeclared function that calls itself. So inference never guesses: the
types that flow into the first call of an undeclared function are the ones every typing gives it.

The induction carries that the signatures found so far are part of `T` (`Below`). Then every call
that is met has the argument types that `T` demands, and a check against a known signature cannot
fail. That nothing but reachable functions gets a signature is `checkCall_keeps` at reachability,
and that all of them get one follows from soundness (`validate_domain`).
-/

namespace Clausal

/-- An assignment of signatures to functions of a program; what is no function of the program has
no signature. -/
structure Program.Assignment (p : Program) where
  signature : String → Option Signature
  scope : ∀ f sig, signature f = some sig → p.HasFunction f

/-- A table that types the functions in it has every reachable function. -/
theorem Program.Typing.has_of_reachable {p : Program} {table : SignatureTable}
    (h : p.Typing (fun f => table.has f = true) table.lookup) {f : String} (hf : p.Reachable f) :
    table.has f = true := by
  induction hf with
  | entry => exact Assoc.has_of_value? h.entry
  | declared hd => exact Assoc.has_of_value? (h.declared _ hd)
  | call _ hc hg ih =>
    obtain ⟨sig, -, hsig⟩ := h.clauses _ ih _ hc
    obtain ⟨sig', hsig'⟩ := hsig.known_of_mem_callees hg
    exact Assoc.has_of_value? hsig'

namespace Check

variable {s t : State} {args : List Ty} {span : Option Span} {onCall : OnCall} {p : Program}

/-! ## The functions with a signature -/

/-- Reachability is closed under the calls in registered clauses. -/
theorem closed_reachable (h : Entered p.decls p.clauses s) : Closed p.Reachable s.functions := by
  intro f clauses hf hclauses c hc g hg
  have hsame := h.clausesOf f
  unfold State.clausesOf at hsame
  rw [hclauses] at hsame
  exact .call hf (hsame ▸ hc) hg

/-- A check gives signatures to reachable functions only. -/
theorem validate_reachable (p : Program) :
    Ends (validate p) Compile.initial
      (fun table _ => ∀ f, table.has f = true → Builtin.signatures.has f = true ∨ p.Reachable f)
      fun _ _ => True := by
  refine validate_ends
    (I := fun _ t => ∃ s, Entered p.decls p.clauses s ∧ Frame p.Reachable s t)
    (fun _ _ => trivial) (fun _ _ => trivial) (fun s span hs _ => ?_)
    (fun done d rest t span hl ⟨s, hs, hst⟩ _ => ?_) (fun done d rest t _ ht _ => ht)
    (fun t ⟨s, hs, hst⟩ => hst.declared.trans hs.declared)
    (fun done t j ⟨s, hs, hst⟩ => ⟨s, hs, hst.trans (Frame.journal t j)⟩)
    (fun t ⟨s, hs, hst⟩ f hf => ?_)
  · rw [ends_call]
    refine (checkCall_keeps (closed_reachable hs) _ entryPoint .entry [] span s rfl).mono
      (fun ty t hst => ?_) fun _ _ _ => trivial
    exact ⟨fun _ => ⟨s, hs, hst⟩, fun _ _ => trivial⟩
  · have hd : d ∈ p.decls := hl ▸ List.mem_append_right _ List.mem_cons_self
    rw [ends_call]
    exact (checkCall_keeps (closed_reachable hs) _ d.name (.declared hd) _ span t
      hst.functions).mono (fun ty u htu => ⟨s, hs, hst.trans htu⟩) fun _ _ _ => trivial
  · obtain ⟨sig, hsig⟩ := Option.isSome_iff_exists.1 hf
    rcases hst.fresh f sig hsig with hsig | ⟨hreach, -, -⟩
    · rcases hs.lookup_eq_some_iff.1 hsig with hb | ⟨d, hd, rfl, -⟩
      · exact .inl (Assoc.has_of_value? hb)
      · exact .inr (.declared hd)
    · exact .inr hreach

/-- The functions that get a signature are exactly the built-in and the reachable ones. -/
theorem validate_domain (p : Program) :
    Ends (validate p) Compile.initial
      (fun table _ => ∀ f, table.has f = true ↔ Builtin.signatures.has f = true ∨ p.Reachable f)
      fun _ _ => True := by
  refine ((validate_accepted p).and (validate_reachable p)).mono (fun table t h f => ?_)
    fun _ _ _ => trivial
  refine ⟨h.2 f, fun hf => hf.elim (fun hb => ?_) h.1.typing.has_of_reachable⟩
  obtain ⟨sig, hsig⟩ := Option.isSome_iff_exists.1 hb
  exact Assoc.has_of_value? (h.1.typing.builtins f sig hsig)

/-- A table that the check of a program returns types the reachable functions. -/
theorem typing_reachable_of_validate {table : SignatureTable}
    (h : ((validate p).run.run Compile.initial).1.toOption = some table) :
    p.Typing p.Reachable table.lookup := by
  have htyping := ((validate_accepted p).of_ok (run_eq_of_toOption h)).typing
  exact ⟨htyping.builtins, htyping.declared, htyping.entry,
    fun f hf => htyping.clauses f (htyping.has_of_reachable hf)⟩

/-! ## Expressions -/

/-- The refusal of an undeclared function that calls itself. -/
def Untyped (e : Stop) : Prop :=
  ∃ name span, e = .fault ⟨.untyped name, span⟩

/-- The signatures found so far lie between those of registration and a typing, and no function that
is checked has none. -/
structure Below (T : String → Option Signature) (s₀ s : State) : Prop where
  functions : s.functions = s₀.functions
  declared : s.declared = s₀.declared
  lower : Extends s₀.signatures.lookup s.signatures.lookup
  upper : Extends s.signatures.lookup T
  signed : Signed s

/-- A call with the arguments that a typing demands returns the result that it gives. -/
def CompleteCall (T : String → Option Signature) (P : String → Prop) (s₀ : State)
    (onCall : OnCall) : Prop :=
  ∀ g, P g → ∀ args ty span s, Below T s₀ s → T g = some ⟨args, ty⟩ →
    Ends (onCall g args span) s (fun ty' t => ty' = ty ∧ Below T s₀ t) fun e _ => Untyped e

section Expressions
variable {T : String → Option Signature} {P : String → Prop} {s₀ : State} {locals : Assoc Ty}

mutual

/-- The type that a typing gives an expression is the one that is inferred. -/
theorem inferExpr_complete (hcall : CompleteCall T P s₀ onCall)
    (hknown : ∀ g sig, T g = some sig → s₀.functions.has g = true) {e : Expr} {ty : Ty} :
    HasType T locals.value? e ty → (∀ g ∈ e.heads, locals.value? g = none → P g) →
      ∀ s, Below T s₀ s → Ends (inferExpr onCall locals e) s
        (fun ty' t => ty' = ty ∧ Below T s₀ t) fun e _ => Untyped e
  | .lit, _, s, hs => ⟨rfl, hs⟩
  | .param hx, _, s, hs => by
    rw [inferExpr, inferArgs, ends_bind, ends_pure]
    rw [hx]
    exact ⟨rfl, hs⟩
  | .call hnone hsig hargs, hP, s, hs => by
    rw [Expr.heads] at hP
    rw [inferExpr]
    refine (inferArgs_complete hcall hknown hargs (fun g hg => hP g (List.mem_cons_of_mem _ hg))
      s hs).bind ?_
    rintro types t ⟨rfl, ht⟩
    rw [hnone]
    dsimp only
    rw [ends_bind, ends_get, ht.functions, hknown _ _ hsig]
    exact hcall _ (hP _ List.mem_cons_self hnone) _ _ _ t ht hsig
  | .arithmetic hop hne hleft hright, hP, s, hs => by
    rw [Expr.heads] at hP
    rw [inferExpr]
    refine (inferExpr_complete hcall hknown hleft (fun g hg => hP g (List.mem_append_left _ hg))
      s hs).bind ?_
    rintro leftType t ⟨rfl, ht⟩
    refine (inferExpr_complete hcall hknown hright (fun g hg => hP g (List.mem_append_right _ hg))
      t ht).bind ?_
    rintro rightType u ⟨rfl, hu⟩
    unfold operatorType
    rw [if_neg fun h => h rfl, hop, if_neg nofun, if_neg hne]
    exact ⟨rfl, hu⟩
  | .comparison hop hleft hright, hP, s, hs => by
    rw [Expr.heads] at hP
    rw [inferExpr]
    refine (inferExpr_complete hcall hknown hleft (fun g hg => hP g (List.mem_append_left _ hg))
      s hs).bind ?_
    rintro leftType t ⟨rfl, ht⟩
    refine (inferExpr_complete hcall hknown hright (fun g hg => hP g (List.mem_append_right _ hg))
      t ht).bind ?_
    rintro rightType u ⟨rfl, hu⟩
    unfold operatorType
    rw [if_neg fun h => h rfl, hop]
    exact ⟨rfl, hu⟩
  | .cond htest hyes hno, hP, s, hs => by
    rw [Expr.heads] at hP
    have hrest := fun g hg => hP g (List.mem_append_right _ hg)
    rw [inferExpr]
    refine (inferExpr_complete hcall hknown htest (fun g hg => hP g (List.mem_append_left _ hg))
      s hs).bind ?_
    rintro testType t ⟨rfl, ht⟩
    rw [if_neg fun h => h rfl]
    refine (inferExpr_complete hcall hknown hyes (fun g hg => hrest g (List.mem_append_left _ hg))
      t ht).bind ?_
    rintro yesType u ⟨rfl, hu⟩
    refine (inferExpr_complete hcall hknown hno (fun g hg => hrest g (List.mem_append_right _ hg))
      u hu).bind ?_
    rintro noType v ⟨rfl, hv⟩
    rw [if_neg fun h => h rfl]
    exact ⟨rfl, hv⟩

/-- The types that a typing gives arguments are those that are inferred. -/
theorem inferArgs_complete (hcall : CompleteCall T P s₀ onCall)
    (hknown : ∀ g sig, T g = some sig → s₀.functions.has g = true) {es : List Expr}
    {types : List Ty} :
    HaveTypes T locals.value? es types → (∀ g ∈ headsOf es, locals.value? g = none → P g) →
      ∀ s, Below T s₀ s → Ends (inferArgs onCall locals es) s
        (fun types' t => types' = types ∧ Below T s₀ t) fun e _ => Untyped e
  | .nil, _, s, hs => ⟨rfl, hs⟩
  | .cons he hes, hP, s, hs => by
    rw [headsOf] at hP
    rw [inferArgs]
    refine (inferExpr_complete hcall hknown he (fun g hg => hP g (List.mem_append_left _ hg))
      s hs).bind ?_
    rintro ty t ⟨rfl, ht⟩
    refine (inferArgs_complete hcall hknown hes (fun g hg => hP g (List.mem_append_right _ hg))
      t ht).bind ?_
    rintro types u ⟨rfl, hu⟩
    exact ⟨rfl, hu⟩

end

end Expressions

/-! ## Clauses and calls -/

section Calls
variable {T : String → Option Signature} {P : String → Prop} {s₀ : State} {name : String} {ty : Ty}

/-- The registered functions with `P` are typed by `T`, which speaks of registered functions only.
A function without a signature from registration has clauses. -/
structure Typable (T : String → Option Signature) (P : String → Prop) (s₀ : State) : Prop where
  closed : Closed P s₀.functions
  known : ∀ f sig, T f = some sig → s₀.functions.has f = true
  defined : ∀ f sig, T f = some sig → s₀.signatures.lookup f = none → s₀.clausesOf f ≠ []
  clauses : ∀ f sig, P f → T f = some sig → ∀ c ∈ s₀.clausesOf f, c.HasSignature T sig

/-- A function with a signature may be marked. -/
theorem Below.mark {sig : Signature} (h : Below T s₀ s)
    (hsig : s.signatures.lookup name = some sig) : Below T s₀ (s.mark name) :=
  ⟨h.functions, h.declared, h.lower, h.upper, h.signed.mark hsig⟩

/-- A function may be given the signature that the typing gives it. -/
theorem Below.infer {sig : Signature} (h : Below T s₀ s) (hnone : s.signatures.lookup name = none)
    (hT : T name = some sig) : Below T s₀ (s.infer name sig) := by
  refine ⟨h.functions, h.declared, fun f sig' hf => ?_, fun f sig' hf => ?_, h.signed.infer hnone⟩
  · rw [State.lookup_infer hnone]
    split
    · next heq =>
      subst heq
      exact nomatch hnone.symm.trans (h.lower _ _ hf)
    · exact h.lower f sig' hf
  · rw [State.lookup_infer hnone] at hf
    split at hf
    · next heq =>
      subst heq
      exact hf ▸ hT
    · exact h.upper f sig' hf

/-- A clause with the signature of a call is checked without a fault. -/
theorem checkClause_complete {c : Clause} (hcall : CompleteCall T P s₀ onCall)
    (hknown : ∀ g sig, T g = some sig → s₀.functions.has g = true) (hP : ∀ g ∈ c.callees, P g)
    (hc : c.HasSignature T ⟨args, ty⟩) (hs : Below T s₀ s) :
    Ends (checkClause onCall c args) s (fun ty' t => ty' = ty ∧ Below T s₀ t)
      fun e _ => Untyped e := by
  have hlen : c.params.length = args.length := hc.arity
  have hlocals : Assoc.value? (Assoc.ofPairs (Pattern.bindings c.params args)) =
      Pattern.argument? c.params args :=
    funext (Pattern.value?_ofPairs_bindings (Nat.le_of_eq hlen))
  have hs' : Below T s₀ { s with journal := s.journal ++ [.checking c] } :=
    ⟨hs.functions, hs.declared, hs.lower, hs.upper, hs.signed⟩
  unfold checkClause
  rw [ends_bind, ends_record, if_neg fun h => h hlen,
    (literalMismatch?_eq_none_iff hlen).2 hc.literals]
  refine inferExpr_complete hcall hknown (hlocals ▸ hc.body) (fun g hg hnone => hP g ?_) _ hs'
  rw [hlocals, Pattern.argument?_eq_none_iff (Nat.le_of_eq hlen)] at hnone
  exact Clause.mem_callees.2 ⟨hg, hnone⟩

/-- Clauses with the signature of a call come back with its result type. -/
theorem checkClauses_complete {clauses : List Clause} (hcall : CompleteCall T P s₀ onCall)
    (hknown : ∀ g sig, T g = some sig → s₀.functions.has g = true)
    (hP : ∀ c ∈ clauses, ∀ g ∈ c.callees, P g)
    (hclauses : ∀ c ∈ clauses, c.HasSignature T ⟨args, ty⟩) (hs : Below T s₀ s) :
    Ends (checkClauses onCall args clauses) s
      (fun results t => results.map (·.1) = clauses ∧ (∀ r ∈ results, r.2 = ty) ∧ Below T s₀ t)
      fun e _ => Untyped e := by
  induction clauses generalizing s with
  | nil => exact ⟨rfl, nofun, hs⟩
  | cons c clauses ih =>
    rw [checkClauses]
    refine (checkClause_complete hcall hknown (hP c List.mem_cons_self)
      (hclauses c List.mem_cons_self) hs).bind ?_
    rintro ty' t ⟨rfl, ht⟩
    refine (ih (fun c' hc' => hP c' (List.mem_cons_of_mem _ hc'))
      (fun c' hc' => hclauses c' (List.mem_cons_of_mem _ hc')) ht).bind ?_
    rintro results u ⟨hnames, htypes, hu⟩
    refine ⟨congrArg (c :: ·) hnames, fun r hr => ?_, hu⟩
    rcases List.mem_cons.1 hr with rfl | hr
    · rfl
    · exact htypes r hr

/-- A visited function settles on the signature that the typing gives it. -/
theorem visit_complete (h : Typable T P s₀) (hcall : CompleteCall T P s₀ onCall)
    (hkeeps : ∀ g, Any g → ∀ args span s, s.functions = s₀.functions →
      Keeps Any (onCall g args span) s)
    (hname : P name) (hT : T name = some ⟨args, ty⟩) (hs : Below T s₀ s) :
    Ends (visit onCall name (s.signatures.lookup name) args span (s₀.clausesOf name)) s
      (fun ty' t => ty' = ty ∧ Below T s₀ t) fun e _ => Untyped e := by
  have hactive : Below T s₀ { s with active := name :: s.active } :=
    ⟨hs.functions, hs.declared, hs.lower, hs.upper, hs.signed⟩
  have hchecked : Ends (withActive name (checkClauses onCall args (s₀.clausesOf name))) s
      (fun results t => results.map (·.1) = s₀.clausesOf name ∧ (∀ r ∈ results, r.2 = ty) ∧
        Below T s₀ t) fun e _ => Untyped e :=
    ends_withActive.2 <| (checkClauses_complete hcall h.known
      (fun c hc g hg => h.closed.of_mem_callees hname hc hg)
      (h.clauses name _ hname hT) hactive).mono
      (fun _ _ ⟨hnames, htypes, ht⟩ =>
        ⟨hnames, htypes, ht.functions, ht.declared, ht.lower, ht.upper, ht.signed⟩)
      fun _ _ h => h
  -- while it is active the function is not given a signature
  have hkept : Keeps Any (checkClauses onCall args (s₀.clausesOf name))
      { s with active := name :: s.active } :=
    checkClauses_keeps hkeeps (fun _ _ _ _ => trivial) hs.functions
  refine Ends.bind ((hchecked.and hkept.withActive).mono (fun _ _ h => h) fun _ _ h => h.1) ?_
  rintro results t ⟨⟨hnames, htypes, ht⟩, -, hsame⟩
  have hagree : results ≠ [] → Agree results ty := fun hne => ⟨hne, htypes⟩
  refine settle_ends (fun sig _ hknown => ?_) (fun ty' hagree' _ hnone => ?_)
    (fun sig _ hknown => ?_) fun hno => ?_
  · cases hT.symm.trans (hs.upper _ _ hknown)
    exact ⟨rfl, ht⟩
  · obtain ⟨r, hr⟩ := List.exists_mem_of_ne_nil results hagree'.1
    have hty : ty' = ty := (hagree'.2 r hr).symm.trans (htypes r hr)
    subst hty
    exact ⟨rfl, ht.infer hnone hT⟩
  · cases hT.symm.trans (hs.upper _ _ hknown)
    exact ⟨rfl, ht.mark (hsame.trans hknown)⟩
  · refine absurd ?_ (hno ty)
    cases hl : s.signatures.lookup name with
    | some sig =>
      cases hT.symm.trans (hs.upper _ _ hl)
      exact ⟨rfl, (Classical.em (results = [])).imp id hagree⟩
    | none =>
      have hnone₀ : s₀.signatures.lookup name = none := by
        cases hl₀ : s₀.signatures.lookup name with
        | none => rfl
        | some sig => exact nomatch hl.symm.trans (hs.lower _ _ hl₀)
      refine ⟨hagree fun hnil => h.defined name _ hT hnone₀ ?_, hsame.trans hl⟩
      rw [← hnames, hnil, List.map_nil]

/-- **Calls are complete**, at any depth: with the arguments that the typing demands a call returns
the result that it gives, unless a function without a signature is met inside its own check. -/
theorem checkCall_complete (h : Typable T P s₀) (depth : Nat) :
    CompleteCall T P s₀ (checkCall depth) := by
  induction depth with
  | zero => exact fun g _ _ _ span s _ _ => ⟨g, span, rfl⟩
  | succ depth ih =>
    intro g hg args ty span s hs hT
    have hsame : ∀ sig, s.signatures.lookup g = some sig → sig = ⟨args, ty⟩ := fun sig hsig =>
      Option.some.inj ((hs.upper _ _ hsig).symm.trans hT)
    refine checkCall_ends (fun sig hsig hne => ?_) (fun sig hsig _ _ => ?_)
      (fun hnone hv => ?_) (fun _ _ => ⟨g, span, rfl⟩) fun _ _ _ => ?_
    · exact absurd (congrArg Signature.params (hsame sig hsig)).symm hne
    · exact ⟨congrArg Signature.result (hsame sig hsig), hs⟩
    · obtain ⟨sig, hsig⟩ := hs.signed g hv
      cases hnone.symm.trans hsig
    · have hclauses : s.clausesOf g = s₀.clausesOf g := by
        unfold State.clausesOf
        rw [hs.functions]
      rw [hclauses]
      exact visit_complete h ih (checkCall_keeps (closed_any _) depth) hg hT hs

end Calls

/-! ## Programs -/

/-- A typing of the reachable functions of a program types what registration has entered. -/
theorem Entered.typable (h : Entered p.decls p.clauses s) (T : p.Assignment)
    (hT : p.Typing p.Reachable T.signature) : Typable T.signature p.Reachable s where
  closed := closed_reachable h
  known f sig hf := h.has_functions_iff.2 (T.scope f sig hf)
  defined f sig hf hnone hnil := by
    have hsigned : ∀ sig, s.signatures.lookup f ≠ some sig := fun sig hsig =>
      nomatch hnone.symm.trans hsig
    rcases T.scope f sig hf with hb | hn
    · obtain ⟨sig', hsig'⟩ := Option.isSome_iff_exists.1 hb
      exact hsigned sig' (h.lookup_eq_some_iff.2 (.inl hsig'))
    · rcases Program.names_iff.1 hn with hd | hc
      · obtain ⟨d, hmem, rfl⟩ := List.mem_map.1 hd
        exact hsigned d.signature (h.lookup_eq_some_iff.2 (.inr ⟨d, hmem, rfl, rfl⟩))
      · obtain ⟨c, hmem, rfl⟩ := List.mem_map.1 hc
        rw [h.clausesOf, List.eq_nil_iff_forall_not_mem] at hnil
        exact hnil c (Program.mem_clausesOf.2 ⟨hmem, rfl⟩)
  clauses f sig hf hsig c hc := by
    rw [h.clausesOf] at hc
    obtain ⟨sig', hsig', htyped⟩ := hT.clauses f hf c hc
    cases hsig.symm.trans hsig'
    exact htyped

/-- The signatures of registration are part of every typing. -/
theorem Entered.below (h : Entered p.decls p.clauses s) {T : String → Option Signature}
    {on : String → Prop} (hT : p.Typing on T) : Below T s s where
  functions := rfl
  declared := rfl
  lower := Extends.refl _
  upper f sig hf := by
    rcases h.lookup_eq_some_iff.1 hf with hb | ⟨d, hd, rfl, rfl⟩
    · exact hT.builtins f sig hb
    · exact hT.declared d hd
  signed f hf := absurd (h.validated ▸ hf) List.not_mem_nil

/-- If there is a typing, the check of a program finds no other signatures. -/
theorem validate_below (hreg : p.Registrable) (hmain : p.Names entryPoint) (T : p.Assignment)
    (hT : p.Typing p.Reachable T.signature) :
    Ends (validate p) Compile.initial (fun table _ => Extends table.lookup T.signature)
      fun e _ => Untyped e := by
  refine validate_ends
    (I := fun _ t => ∃ s, Entered p.decls p.clauses s ∧ Below T.signature s t)
    (fun hno => absurd hreg hno) (fun hno => absurd hmain hno) (fun s span hs _ => ?_)
    (fun done d rest t span hl ⟨s, hs, hst⟩ _ => ?_) (fun done d rest t _ ht _ => ht)
    (fun t ⟨s, hs, hst⟩ => hst.declared.trans hs.declared)
    (fun done t j ⟨s, hs, hst⟩ =>
      ⟨s, hs, hst.functions, hst.declared, hst.lower, hst.upper, hst.signed⟩)
    (fun t ⟨s, hs, hst⟩ => hst.upper)
  · rw [ends_call]
    refine (checkCall_complete (hs.typable T hT) _ entryPoint .entry [] .int span s (hs.below hT)
      hT.entry).mono ?_ fun _ _ h => h
    rintro ty t ⟨rfl, ht⟩
    exact ⟨fun _ => ⟨s, hs, ht⟩, fun hne => absurd rfl hne⟩
  · have hd : d ∈ p.decls := hl ▸ List.mem_append_right _ List.mem_cons_self
    rw [ends_call]
    exact (checkCall_complete (hs.typable T hT) _ d.name (.declared hd) _ _ span t hst
      (hT.declared d hd)).mono (fun ty u hu => ⟨s, hs, hu.2⟩) fun _ _ h => h

/-- **Type inference is complete up to untyped recursion, and its answer is forced.** If a
registrable program with an entry point has a typing `T` of its reachable functions, its check
refuses an undeclared function that calls itself, or returns `T` restricted to the built-in and the
reachable functions, the declared ones among them. So no other refusal leaves a typing. -/
theorem validate_complete {p : Program} (hreg : p.Registrable) (hmain : p.Names entryPoint) :
    (∀ T : p.Assignment, p.Typing p.Reachable T.signature →
      (∃ name span s, (validate p).run.run Compile.initial =
        (.error (.fault ⟨.untyped name, span⟩), s)) ∨
      (∃ table s, (validate p).run.run Compile.initial = (.ok table, s) ∧
        ∀ f sig, table.lookup f = some sig ↔
          (Builtin.signatures.has f = true ∨ p.Reachable f) ∧ T.signature f = some sig)) ∧
    (∀ e s, (validate p).run.run Compile.initial = (.error e, s) →
      (∀ name span, e ≠ .fault ⟨.untyped name, span⟩) →
      ¬ ∃ T : p.Assignment, p.Typing p.Reachable T.signature) := by
  refine ⟨fun T hT => ?_, ?_⟩
  · have hends := (validate_below hreg hmain T hT).and (validate_domain p)
    rcases hrun : (validate p).run.run Compile.initial with ⟨e | table, s⟩
    · obtain ⟨⟨name, span, rfl⟩, -⟩ := hends.of_error hrun
      exact .inl ⟨name, span, s, rfl⟩
    · obtain ⟨hbelow, hdomain⟩ := hends.of_ok hrun
      refine .inr ⟨table, s, rfl, fun f sig => ⟨fun hf => ?_, fun ⟨hf, hsig⟩ => ?_⟩⟩
      · exact ⟨(hdomain f).1 (Assoc.has_of_value? hf), hbelow f sig hf⟩
      · obtain ⟨sig', hsig'⟩ := Option.isSome_iff_exists.1 ((hdomain f).2 hf)
        have hsame : sig' = sig := Option.some.inj ((hbelow f sig' hsig').symm.trans hsig)
        exact hsame ▸ hsig'
  · rintro e s hrun hother ⟨T, hT⟩
    obtain ⟨name, span, rfl⟩ := (validate_below hreg hmain T hT).of_error hrun
    exact hother name span rfl

/-- The signatures of `parity`, as an assignment to its functions. -/
def parityAssignment : parity.Assignment where
  signature := paritySignatures.lookup
  scope f sig hf := by
    have hnames : ∀ f ∈ paritySignatures.names,
        Builtin.signatures.has f = true ∨ parity.Names f := by decide +kernel
    exact hnames f (Assoc.has_iff_mem_names.1 (Assoc.has_of_value? hf))

/-- The program is well typed under the assignment. -/
theorem parityAssignment_typing : parity.Typing parity.Reachable parityAssignment.signature :=
  typing_reachable_of_validate validate_parity

/-- The check returns the assignment. -/
theorem validate_complete_parity :
    parity.Registrable ∧ parity.Names entryPoint ∧
      parity.Typing parity.Reachable parityAssignment.signature ∧
      ∃ s, (validate parity).run.run Compile.initial = (.ok paritySignatures, s) ∧
        ∀ f sig, paritySignatures.lookup f = some sig ↔
          (Builtin.signatures.has f = true ∨ parity.Reachable f) ∧
            parityAssignment.signature f = some sig := by
  have hreg : parity.Registrable := by decide +kernel
  have hmain : parity.Names entryPoint := by decide +kernel
  have hrun := run_eq_of_toOption validate_parity
  refine ⟨hreg, hmain, parityAssignment_typing, _, hrun, ?_⟩
  -- the check returns, so of the two outcomes only the second is left
  rcases (validate_complete hreg hmain).1 parityAssignment parityAssignment_typing with
    ⟨name, span, s, herror⟩ | ⟨table, s, hok, htable⟩
  · rw [hrun] at herror
    cases congrArg Prod.fst herror
  · rw [hrun] at hok
    cases congrArg Prod.fst hok
    exact htable

end Check

end Clausal
