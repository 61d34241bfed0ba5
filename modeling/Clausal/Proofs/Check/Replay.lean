import Clausal.Proofs.Check.Register

/-!
# Checking among more functions

A check looks at the registered functions in three places only: a call asks whether its function
exists, a visit takes its clauses, and the depth to which calls are followed is the number of
functions. So a check that returns can be replayed where more functions are registered
(`Replays`): every function it asks for is still there, with the same clauses, and more depth does
no harm. It returns the same value and leaves the same state, the other functions apart.

`validate_replays` says this of the check of a whole program: if the registration of two programs
differs in the functions only and one of them has all the functions of the other, a check that
returns for the smaller program returns the same table for the larger one. The reports on functions
without a signature are made in the end, and are all that differs.
-/

namespace Clausal.Check

variable {α β : Type} {F : Assoc (List Clause)} {s t : State} {name : String} {args : List Ty}
  {span : Option Span} {onCall onCall' : OnCall}

/-- The state with other functions registered. -/
def State.among (s : State) (F : Assoc (List Clause)) : State :=
  { s with functions := F }

/-- Every function is there with its clauses. -/
def Includes (F functions : Assoc (List Clause)) : Prop :=
  ∀ f clauses, functions.value? f = some clauses → F.value? f = some clauses

/-- What is in a table is in one that includes it. -/
theorem Includes.has {functions : Assoc (List Clause)} (h : Includes F functions) {f : String}
    (hf : functions.has f = true) : F.has f = true := by
  obtain ⟨clauses, hclauses⟩ := Option.isSome_iff_exists.1 hf
  exact Assoc.has_of_value? (h f clauses hclauses)

/-- A function has the same clauses among more functions. -/
theorem Includes.clausesOf (h : Includes F s.functions) (hname : s.functions.has name = true) :
    (s.among F).clausesOf name = s.clausesOf name := by
  obtain ⟨clauses, hclauses⟩ := Option.isSome_iff_exists.1 hname
  unfold State.clausesOf
  rw [show (s.among F).functions.value? name = _ from h name clauses hclauses, hclauses]

/-- The lines of the program are registered as before. -/
structure Kept (s t : State) : Prop where
  functions : t.functions = s.functions
  declared : t.declared = s.declared

theorem Kept.trans {u : State} (h : Kept s t) (h' : Kept t u) : Kept s u :=
  ⟨h'.functions.trans h.functions, h'.declared.trans h.declared⟩

/-- If the first step returns, the second one returns the same among the functions `F`, and both
leave the same state, each with its functions as they were. -/
def Replays (F : Assoc (List Clause)) (m m' : CheckM α) (s : State) : Prop :=
  Ends m s (fun a t => Kept s t ∧ m'.run.run (s.among F) = (.ok a, t.among F)) fun _ _ => True

/-! ## Steps -/

namespace Replays

theorem pure (a : α) : Replays F (Pure.pure a) (Pure.pure a) s :=
  ⟨⟨rfl, rfl⟩, rfl⟩

/-- Nothing is asked of the second step where the first one stops. -/
theorem fail {cause : Cause} {m : CheckM α} : Replays F (Check.fail cause span) m s :=
  trivial

/-- Replaying one step after the other. -/
theorem bind {m m' : CheckM α} {f f' : α → CheckM β} (h : Replays F m m' s)
    (hf : ∀ a t, Kept s t → Replays F (f a) (f' a) t) :
    Replays F (m >>= f) (m' >>= f') s := by
  refine Ends.bind h fun a t ⟨hkept, hrun⟩ => ?_
  refine (hf a t hkept).mono (fun b u ⟨hkept', hrun'⟩ => ?_) fun _ _ h => h
  refine ⟨hkept.trans hkept', ?_⟩
  rw [run_bind, hrun]
  exact hrun'

/-- A step that looks at the state first sees the other functions the second time. -/
theorem get {f f' : State → CheckM α} (h : Replays F (f s) (f' (s.among F)) s) :
    Replays F (MonadState.get >>= f) (MonadState.get >>= f') s := by
  unfold Replays
  rw [ends_bind, ends_get]
  exact h

/-- An event is entered in both journals. -/
theorem record (e : Event) : Replays F (Check.record e) (Check.record e) s :=
  ⟨⟨rfl, rfl⟩, rfl⟩

/-- A step is replayed while a function is active. -/
theorem withActive {m m' : CheckM α} (h : Replays F m m' { s with active := name :: s.active }) :
    Replays F (Check.withActive name m) (Check.withActive name m') s := by
  refine ends_withActive.2 (h.mono (fun a t ⟨hkept, hrun⟩ => ?_) fun _ _ h => h)
  have hactive : (Check.withActive name m').run.run (s.among F) =
      ((m'.run.run (State.among { s with active := name :: s.active } F)).1,
        { (m'.run.run (State.among { s with active := name :: s.active } F)).2 with
          active := (m'.run.run
            (State.among { s with active := name :: s.active } F)).2.active.tail }) := rfl
  rw [hactive, hrun]
  exact ⟨⟨hkept.functions, hkept.declared⟩, rfl⟩

/-- A step whose value is dropped is replayed. -/
theorem discard {m m' : CheckM α} (h : Replays F m m' s) :
    Replays F (Functor.discard m) (Functor.discard m') s := by
  refine ends_discard.2 (h.mono (fun a t ⟨hkept, hrun⟩ => ⟨hkept, ?_⟩) fun _ _ h => h)
  rw [run_discard, hrun]

/-- A step over a list is replayed if each of its runs is. -/
theorem forM {γ : Type} {l : List γ} {f f' : γ → CheckM PUnit}
    (h : ∀ x ∈ l, ∀ t, Kept s t → Replays F (f x) (f' x) t) :
    Replays F (l.forM f) (l.forM f') s := by
  induction l generalizing s with
  | nil => exact Replays.pure _
  | cons x l ih =>
    refine Replays.bind (h x List.mem_cons_self s ⟨rfl, rfl⟩) fun _ t ht => ih fun y hy u hu => ?_
    exact h y (List.mem_cons_of_mem _ hy) u (ht.trans hu)

end Replays

/-- Arguments are checked without a look at the functions. -/
theorem checkArguments_replays {sig : Signature} :
    Replays F (checkArguments name sig args span) (checkArguments name sig args span) s := by
  unfold checkArguments
  split
  · exact .fail
  · split
    · exact .fail
    · exact .pure _

/-- Signatures are given without a look at the functions. -/
theorem define_replays {sig : Signature} :
    Replays F (define name sig span) (define name sig span) s := by
  refine Replays.get ?_
  rw [show (s.among F).signatures = s.signatures from rfl]
  split
  · exact ⟨⟨rfl, rfl⟩, rfl⟩
  · exact .fail

theorem markValidated_replays : Replays F (markValidated name) (markValidated name) s :=
  ⟨⟨rfl, rfl⟩, rfl⟩

/-- A function is settled without a look at the functions. -/
theorem settle_replays {known : Option Signature} (results : List (Clause × Ty)) :
    Replays F (settle name known args span results) (settle name known args span results) s := by
  match results with
  | [] =>
    cases known with
    | none => exact .fail
    | some sig => exact .pure _
  | (c, ty) :: rest =>
    rw [settle]
    split
    · exact .fail
    · cases known with
      | none =>
        refine define_replays.bind fun _ t _ => (Replays.record _).bind fun _ u _ => ?_
        exact markValidated_replays.bind fun _ _ _ => .pure ty
      | some sig =>
        dsimp only
        split
        · exact .fail
        · exact markValidated_replays.bind fun _ _ _ => .pure ty

/-! ## Expressions and clauses -/

/-- Calls of the functions that are there can be replayed. -/
def ReplaysCall (F functions : Assoc (List Clause)) (onCall onCall' : OnCall) : Prop :=
  ∀ g args span s, s.functions = functions → functions.has g = true →
    Replays F (onCall g args span) (onCall' g args span) s

section Traversal
variable {functions : Assoc (List Clause)}

mutual

/-- Typing an expression is replayed among more functions: a name that is found is found there. -/
theorem inferExpr_replays {locals : Assoc Ty} (hF : Includes F functions)
    (hcall : ReplaysCall F functions onCall onCall') :
    ∀ (e : Expr) (s : State), s.functions = functions →
      Replays F (inferExpr onCall locals e) (inferExpr onCall' locals e) s
  | .lit value _, _, _ => by
    rw [inferExpr, inferExpr]
    exact .pure _
  | .call name args span, s, hs => by
    rw [inferExpr, inferExpr]
    refine (inferArgs_replays hF hcall args s hs).bind fun types t ht => ?_
    split
    · split
      · exact .pure _
      · exact .fail
    · refine Replays.get ?_
      split
      · next hhas =>
        rw [ht.functions, hs] at hhas
        rw [if_pos (show (t.among F).functions.has name = true from hF.has hhas)]
        exact hcall name types span t (ht.functions.trans hs) hhas
      · exact .fail
  | .binary left op right span, s, hs => by
    rw [inferExpr, inferExpr]
    refine (inferExpr_replays hF hcall left s hs).bind fun leftType t ht => ?_
    refine (inferExpr_replays hF hcall right t (ht.functions.trans hs)).bind fun rightType u _ => ?_
    unfold operatorType
    split
    · exact .fail
    split
    · exact .pure _
    split
    · exact .fail
    · exact .pure _
  | .cond test yes no _, s, hs => by
    rw [inferExpr, inferExpr]
    refine (inferExpr_replays hF hcall test s hs).bind fun testType t ht => ?_
    split
    · exact .fail
    refine (inferExpr_replays hF hcall yes t (ht.functions.trans hs)).bind fun yesType u hu => ?_
    have hfunctions : u.functions = functions := hu.functions.trans (ht.functions.trans hs)
    refine (inferExpr_replays hF hcall no u hfunctions).bind fun noType v _ => ?_
    split
    · exact .fail
    · exact .pure _

/-- So is typing arguments. -/
theorem inferArgs_replays {locals : Assoc Ty} (hF : Includes F functions)
    (hcall : ReplaysCall F functions onCall onCall') :
    ∀ (es : List Expr) (s : State), s.functions = functions →
      Replays F (inferArgs onCall locals es) (inferArgs onCall' locals es) s
  | [], _, _ => by
    rw [inferArgs, inferArgs]
    exact .pure _
  | e :: es, s, hs => by
    rw [inferArgs, inferArgs]
    refine (inferExpr_replays hF hcall e s hs).bind fun ty t ht => ?_
    exact (inferArgs_replays hF hcall es t (ht.functions.trans hs)).bind fun types u _ => .pure _

end

/-- So is checking a clause. -/
theorem checkClause_replays {c : Clause} (hF : Includes F functions)
    (hcall : ReplaysCall F functions onCall onCall') (hs : s.functions = functions) :
    Replays F (checkClause onCall c args) (checkClause onCall' c args) s := by
  refine (Replays.record _).bind fun _ t ht => ?_
  split
  · exact .fail
  · split
    · exact trivial
    · exact inferExpr_replays hF hcall c.body t (ht.functions.trans hs)

/-- So is checking several clauses. -/
theorem checkClauses_replays (hF : Includes F functions)
    (hcall : ReplaysCall F functions onCall onCall') (clauses : List Clause)
    (hs : s.functions = functions) :
    Replays F (checkClauses onCall args clauses) (checkClauses onCall' args clauses) s := by
  induction clauses generalizing s with
  | nil => exact .pure _
  | cons c clauses ih =>
    rw [checkClauses, checkClauses]
    refine (checkClause_replays hF hcall hs).bind fun ty t ht => ?_
    exact (ih (ht.functions.trans hs)).bind fun results u _ => .pure _

end Traversal

/-! ## Calls -/

/-- So is a visit of a function. -/
theorem visit_replays {functions : Assoc (List Clause)} {known : Option Signature}
    (hF : Includes F functions) (hcall : ReplaysCall F functions onCall onCall')
    (clauses : List Clause) (hs : s.functions = functions) :
    Replays F (visit onCall name known args span clauses)
      (visit onCall' name known args span clauses) s := by
  have hclauses : Replays F (checkClauses onCall args clauses) (checkClauses onCall' args clauses)
      { s with active := name :: s.active } := checkClauses_replays hF hcall clauses hs
  exact hclauses.withActive.bind fun results _ _ => settle_replays results

/-- **A call can be replayed** among more functions and with more depth. -/
theorem checkCall_replays {functions : Assoc (List Clause)} (hF : Includes F functions)
    (depth depth' : Nat) (hdepth : depth ≤ depth') :
    ReplaysCall F functions (checkCall depth) (checkCall depth') := by
  induction depth generalizing depth' with
  | zero =>
    intro g args span s _ _
    exact .fail
  | succ depth ih =>
    obtain ⟨depth', rfl⟩ := Nat.exists_eq_add_one_of_ne_zero (Nat.ne_zero_of_lt hdepth)
    rintro g args span s rfl hg
    have hvisit : ∀ known t, Kept s t → Replays F
        (visit (checkCall depth) g known args span (s.clausesOf g))
        (visit (checkCall depth') g known args span ((s.among F).clausesOf g)) t := by
      intro known t ht
      rw [hF.clausesOf hg]
      exact visit_replays hF (ih depth' (Nat.le_of_succ_le_succ hdepth)) _ ht.functions
    have hknown : ∀ sig, Replays F (knownResult g sig args span) (knownResult g sig args span) s :=
      fun sig => checkArguments_replays.bind fun _ _ _ => .pure _
    rw [checkCall_succ, checkCall_succ]
    refine Replays.get ?_
    rw [show (s.among F).signatures = s.signatures from rfl,
      show (s.among F).validated = s.validated from rfl,
      show (s.among F).active = s.active from rfl]
    dsimp only
    split
    · split
      · exact hknown _
      · trivial
    split
    · split
      · exact hknown _
      · exact .fail
    cases s.signatures.lookup g with
    | some sig => exact checkArguments_replays.bind fun _ t ht => hvisit (some sig) t ht
    | none => exact hvisit none s ⟨rfl, rfl⟩

/-- So is a call, at the greater depth that more functions give. -/
theorem call_replays (hF : Includes F s.functions) (hlength : s.functions.length ≤ F.length)
    (hname : s.functions.has name = true) :
    Replays F (call name args span) (call name args span) s :=
  Replays.get (checkCall_replays hF _ _ (Nat.succ_le_succ hlength) name args span s rfl hname)

/-! ## Programs -/

/-- The check between the registration and the reports: the entry point first, and then the
declared functions. -/
def examine : CheckM Unit := do
  let ty ← checkEntryPoint
  record (.entryReturns ty)
  (← get).declared.forM fun q => checkDeclared q.2

/-- The check of a program in its parts: registration, examination, reports. -/
theorem validate_eq (p : Program) : validate p = (do registerBuiltins; registerProgram p) >>=
    fun _ => examine >>= fun _ => reportUnused >>= fun _ => do return (← get).signatures := by
  unfold validate examine
  simp only [bind_assoc]

/-- The place of the entry point does not depend on other functions. -/
theorem entrySpan_replays {clauses : List Clause} :
    Replays F (entrySpan s clauses) (entrySpan s clauses) t := by
  unfold entrySpan
  split
  · exact .pure _
  · exact .pure _
  · trivial

/-- The check of the entry point is replayed among more functions. -/
theorem checkEntryPoint_replays (hF : Includes F s.functions)
    (hlength : s.functions.length ≤ F.length) : Replays F checkEntryPoint checkEntryPoint s := by
  unfold checkEntryPoint
  refine Replays.get ?_
  cases hmain : s.functions.value? entryPoint with
  | none => exact .fail
  | some clauses =>
    rw [show (s.among F).functions.value? entryPoint = _ from hF _ _ hmain,
      show (s.among F).builtins = s.builtins from rfl]
    dsimp only
    rw [show entrySpan (s.among F) clauses = entrySpan s clauses from rfl]
    split
    · exact .fail
    · refine entrySpan_replays.bind fun span t ht => ?_
      refine (call_replays (ht.functions ▸ hF) (ht.functions ▸ hlength) ?_).bind fun ty u _ => ?_
      · rw [ht.functions]
        exact Assoc.has_of_value? hmain
      · split
        · exact .fail
        · exact .pure _

/-- So is that of a declared function. -/
theorem checkDeclared_replays {d : Decl} (hF : Includes F s.functions)
    (hlength : s.functions.length ≤ F.length) (hd : s.functions.has d.name = true) :
    Replays F (checkDeclared d) (checkDeclared d) s := by
  refine Replays.get ?_
  rw [show (s.among F).validated = s.validated from rfl,
    show (s.among F).signatures = s.signatures from rfl]
  split
  · exact .pure _
  split
  · exact (call_replays hF hlength hd).discard
  · trivial

/-- **The check of a program can be replayed** among more functions. -/
theorem examine_replays (hF : Includes F s.functions) (hlength : s.functions.length ≤ F.length)
    (hdeclared : ∀ q ∈ s.declared, s.functions.has q.2.name = true) :
    Replays F examine examine s := by
  refine (checkEntryPoint_replays hF hlength).bind fun ty t ht => ?_
  refine (Replays.record _).bind fun _ u hu => Replays.get (Replays.forM fun q hq v hv => ?_)
  have hkept := (ht.trans hu).trans hv
  rw [(ht.trans hu).declared] at hq
  refine checkDeclared_replays ?_ ?_ ?_
  · rwa [hkept.functions]
  · rwa [hkept.functions]
  · rw [hkept.functions]
    exact hdeclared q hq

/-- Reporting unused functions only adds the reports to the journal. -/
theorem run_reportUnused (s : State) :
    reportUnused.run.run s = (.ok (), { s with journal := s.journal ++ s.reports }) := by
  have hspec := reportUnused_spec (s := s) (E := fun _ _ => False)
  rcases hrun : reportUnused.run.run s with ⟨e | a, t⟩
  · exact (hspec.of_error hrun).elim
  · rw [hspec.of_ok hrun]

/-- **Programs that are registered alike are checked alike.** If the registration of `p'` leaves
more functions than that of `p`, and the same state otherwise, and the check of `p` returns, then
the check of `p'` returns the same table. The last states differ in the functions and in the reports
on them. -/
theorem validate_replays {p p' : Program} {table : SignatureTable}
    (hregister : (do registerBuiltins; registerProgram p).run.run Compile.initial = (.ok (), s))
    (hregister' : (do registerBuiltins; registerProgram p').run.run Compile.initial =
      (.ok (), s.among F))
    (hF : Includes F s.functions) (hlength : s.functions.length ≤ F.length)
    (hdeclared : ∀ q ∈ s.declared, s.functions.has q.2.name = true)
    (h : (validate p).run.run Compile.initial = (.ok table, t)) :
    ∃ j t', (validate p').run.run Compile.initial = (.ok table, t') ∧
      t.journal = j ++ s.functions.filterMap (report? table) ∧
      t'.journal = j ++ F.filterMap (report? table) := by
  rw [validate_eq, run_bind, hregister] at h
  dsimp only at h
  rw [run_bind] at h
  rcases hrun : examine.run.run s with ⟨e | a, u⟩
  · rw [hrun] at h
    cases h
  · obtain ⟨hkept, hrun'⟩ := (examine_replays hF hlength hdeclared).of_ok hrun
    rw [hrun] at h
    dsimp only at h
    rw [run_bind, run_reportUnused] at h
    cases h
    refine ⟨u.journal, { u.among F with journal := u.journal ++ (u.among F).reports }, ?_, ?_, rfl⟩
    · rw [validate_eq, run_bind, hregister']
      dsimp only
      rw [run_bind, hrun']
      dsimp only
      rw [run_bind, run_reportUnused]
      rfl
    · rw [← hkept.functions]
      rfl

end Clausal.Check
