import Clausal.Proofs.Check.Replay
import Clausal.Proofs.Check.Unused
import Clausal.Proofs.Check.Walk

/-!
# How deep calls are followed

A call is checked by checking the clauses of its function, and the calls in them are checked in the
same way, so nothing in the text of a program bounds how deep calls go. What bounds it is the list
of active functions: a function with clauses is visited only if it is not active, and it is active
while its clauses are checked. So calls are followed into one another at most once more than there
are functions with clauses.

`follow` is one level of that recursion and `followed` several, with an arbitrary step for the calls
that lie deeper. `validate_followed`: the check of a program is the same whatever that step is, if
the levels are more than the functions with clauses. The bound in `checkCall` is therefore never
what ends a check.
-/

namespace Clausal.Check

variable {α β : Type} {s s₀ t : State} {name : String} {args : List Ty} {span : Option Span}
  {active : List String} {onCall onCall' : OnCall} {I J : State → Prop}

/-! ## Registration with any built-in functions -/

/-- The state after some clauses have been entered, with any built-in functions: each function has
its clauses, the built-in ones have none, and nothing has been checked. -/
structure Loaded (externals : Assoc Signature) (cs : List Clause) (s : State) : Prop where
  builtins : s.builtins = externals
  clauses : ∀ f, s.clausesOf f = cs.filter fun c => c.name = f
  free : ∀ c ∈ cs, externals.has c.name = false
  declared : ∀ q ∈ s.declared, q.2.name = q.1
  validated : s.validated = []
  active : s.active = []
  journal : s.journal = []

section Registration
variable {externals : Assoc Signature} {cs : List Clause}

/-- Entering clauses for a function changes its clauses only. -/
theorem clausesOf_put (s : State) (f : String) (clauses : List Clause) (g : String) :
    State.clausesOf { s with functions := s.functions.put f clauses } g =
      if f = g then clauses else s.clausesOf g := by
  unfold State.clausesOf
  rw [Assoc.value?_put]
  split <;> rfl

/-- Built-in functions are entered without clauses. -/
theorem registerBuiltins_loaded :
    Ends registerBuiltins { builtins := externals } (fun _ s => Loaded externals [] s)
      fun _ t => t.journal = [] := by
  unfold registerBuiltins
  rw [ends_bind, ends_get]
  refine Ends.forM (I := fun _ s => Loaded externals [] s) ?_ ?_
  · rintro done ⟨name, sig⟩ rest s - hs
    refine Ends.bind (define_spec.mono (fun _ _ h => h) fun _ t h => h.1 ▸ hs.journal) ?_
    rintro - t ⟨-, rfl⟩
    refine ⟨hs.builtins, fun f => ?_, hs.free, hs.declared, hs.validated, hs.active, hs.journal⟩
    refine (clausesOf_put _ name [] f).trans ?_
    split
    · rfl
    · exact hs.clauses f
  · exact ⟨rfl, fun _ => rfl, fun _ h => absurd h List.not_mem_nil,
      fun _ h => absurd h List.not_mem_nil, rfl, rfl, rfl⟩

/-- A signature line adds no clause. -/
theorem registerDecl_loaded {d : Decl} (hs : Loaded externals cs s) :
    Ends (registerDecl d) s (fun _ t => Loaded externals cs t) fun _ t => t.journal = [] := by
  unfold registerDecl
  rw [ends_bind, ends_get]
  split
  · exact hs.journal
  · next hfree =>
    have hnew : d.name ∉ s.declared.names := by
      rw [← Assoc.has_iff_mem_names]
      intro hhas
      simp [hhas] at hfree
    refine Ends.bind (define_spec.mono (fun _ _ h => h) fun _ t h => h.1 ▸ hs.journal) ?_
    rintro - t ⟨-, rfl⟩
    refine ⟨hs.builtins, fun f => ?_, hs.free, fun q hq => ?_, hs.validated, hs.active, hs.journal⟩
    · refine (clausesOf_put s d.name (s.clausesOf d.name) f).trans ?_
      split
      · next heq => exact heq ▸ hs.clauses d.name
      · exact hs.clauses f
    · have hq : q ∈ s.declared.put d.name d := hq
      rw [Assoc.put_of_not_mem hnew] at hq
      rcases List.mem_append.1 hq with hq | hq
      · exact hs.declared q hq
      · rw [List.mem_singleton.1 hq]

/-- A clause is added to those of its function. -/
theorem registerClause_loaded {c : Clause} (hs : Loaded externals cs s) :
    Ends (registerClause c) s (fun _ t => Loaded externals (cs ++ [c]) t)
      fun _ t => t.journal = [] := by
  unfold registerClause
  rw [ends_bind, ends_get]
  split
  · exact hs.journal
  · next hfree =>
    have hexternal : externals.has c.name = false := by
      rw [← hs.builtins, Bool.eq_false_iff]
      intro hhas
      simp [isReserved, hhas] at hfree
    refine ⟨hs.builtins, fun f => ?_, fun c' hc' => ?_, hs.declared, hs.validated, hs.active,
      hs.journal⟩
    · refine (clausesOf_put s c.name (s.clausesOf c.name ++ [c]) f).trans ?_
      rw [List.filter_append]
      split
      · next heq =>
        subst heq
        rw [hs.clauses, List.filter_cons_of_pos (by simp), List.filter_nil]
      · next hne =>
        rw [hs.clauses, List.filter_cons_of_neg (by simpa using hne), List.filter_nil,
          List.append_nil]
    · rcases List.mem_append.1 hc' with hc' | hc'
      · exact hs.free c' hc'
      · rw [List.mem_singleton.1 hc']
        exact hexternal

/-- Registration enters the clauses of a program, or stops with nothing checked. -/
theorem register_loaded (externals : Assoc Signature) (p : Program) :
    Ends (do registerBuiltins; registerProgram p) { builtins := externals }
      (fun _ s => Loaded externals p.clauses s) fun _ t => t.journal = [] := by
  refine registerBuiltins_loaded.bind fun _ s₀ h₀ => ?_
  unfold registerProgram
  refine Ends.bind (Ends.forM (I := fun _ s => Loaded externals [] s)
    (fun _ _ _ _ _ hs => registerDecl_loaded hs) h₀) fun _ s₁ h₁ => ?_
  exact Ends.forM (I := fun cs s => Loaded externals cs s)
    (fun _ _ _ _ _ hs => registerClause_loaded hs) h₁

end Registration

/-! ## Levels of calls -/

/-- Calls are followed into one another for some levels, and what is beyond them is left to another
step. -/
def followed (beyond : OnCall) : Nat → OnCall
  | 0 => beyond
  | levels + 1 => follow (followed beyond levels)

/-- Calls are followed for as many levels as there is depth. -/
theorem checkCall_eq_followed (depth : Nat) : checkCall depth = followed (checkCall 0) depth := by
  induction depth with
  | zero => rfl
  | succ depth ih =>
    rw [followed, ← ih, checkCall_succ]

/-- Checks the entry point, with a step for its call. -/
def checkEntryPointBy (onCall : OnCall) : CheckM Ty := do
  let s ← get
  match s.functions.value? entryPoint with
  | none => fail (.notFound entryPoint) none
  | some clauses =>
    if s.builtins.has entryPoint then fail (.notFound entryPoint) none
    else
      let span ← entrySpan s clauses
      let ty ← onCall entryPoint [] span
      if ty ≠ .int then fail (.typeMismatch .int ty) span else pure ty

/-- Checks a declared function unless that is done, with a step for its call. -/
def checkDeclaredBy (onCall : OnCall) (d : Decl) : CheckM Unit := do
  let s ← get
  if d.name ∈ s.validated then pure ()
  else match s.signatures.lookup d.name with
    | some sig => discard (onCall d.name sig.params d.span)
    | none => throw (.noSignature d.name)

/-- The check between the registration and the reports, with a step for calls. -/
def examineBy (onCall : OnCall) : CheckM Unit := do
  let ty ← checkEntryPointBy onCall
  record (.entryReturns ty)
  (← get).declared.forM fun q => checkDeclaredBy onCall q.2

/-- Checks a whole program, with a step for calls. -/
def validateBy (onCall : OnCall) (p : Program) : CheckM SignatureTable := do
  registerBuiltins
  registerProgram p
  examineBy onCall
  reportUnused
  return (← get).signatures

/-- The check of a program is that with calls for its step. -/
theorem validate_eq_by (p : Program) : validate p = validateBy call p := by
  unfold validate validateBy examineBy
  simp only [bind_assoc]
  rfl

/-! ## Steps that do the same -/

/-- Run from `s`, two steps do the same, and if they return, they do so in a state with `J`. -/
structure Same (J : State → Prop) (m m' : CheckM α) (s : State) : Prop where
  run_eq : m.run.run s = m'.run.run s
  ends : Ends m s (fun _ t => J t) fun _ _ => True

namespace Same

theorem pure (a : α) (h : J s) : Same J (Pure.pure a) (Pure.pure a) s :=
  ⟨rfl, h⟩

theorem fail {cause : Cause} :
    Same J (Check.fail cause span : CheckM α) (Check.fail cause span) s :=
  ⟨rfl, trivial⟩

theorem stop (e : Stop) : Same J (throw e : CheckM α) (throw e) s :=
  ⟨rfl, trivial⟩

/-- Two steps that do the same, and two more. -/
theorem bind {m m' : CheckM α} {f f' : α → CheckM β} (h : Same I m m' s)
    (hf : ∀ a t, I t → Same J (f a) (f' a) t) : Same J (m >>= f) (m' >>= f') s := by
  refine ⟨?_, h.ends.bind fun a t ht => (hf a t ht).ends⟩
  rw [run_bind, run_bind, ← h.run_eq]
  rcases hrun : m.run.run s with ⟨e | a, t⟩
  · rfl
  · exact (hf a t (h.ends.of_ok hrun)).run_eq

/-- Two steps that do the same from the state that they read. -/
theorem get {f f' : State → CheckM α} (h : Same J (f s) (f' s) s) :
    Same J (MonadState.get >>= f) (MonadState.get >>= f') s :=
  ⟨h.run_eq, ends_bind.2 (ends_get.2 h.ends)⟩

/-- Two steps do the same under an active function. -/
theorem withActive {m m' : CheckM α} (h : Same I m m' { s with active := name :: s.active })
    (hJ : ∀ t, I t → J { t with active := t.active.tail }) :
    Same J (Check.withActive name m) (Check.withActive name m') s := by
  refine ⟨?_, ends_withActive.2 (h.ends.mono (fun _ t ht => hJ t ht) fun _ _ h => h)⟩
  have hrun : ∀ m : CheckM α, (Check.withActive name m).run.run s =
      ((m.run.run { s with active := name :: s.active }).1,
        { (m.run.run { s with active := name :: s.active }).2 with
          active := (m.run.run { s with active := name :: s.active }).2.active.tail }) :=
    fun _ => rfl
  rw [hrun m, hrun m', h.run_eq]

/-- Two steps do the same if their values are dropped. -/
theorem discard {m m' : CheckM α} (h : Same J m m' s) :
    Same J (Functor.discard m) (Functor.discard m') s := by
  refine ⟨?_, ends_discard.2 h.ends⟩
  rw [run_discard, run_discard, h.run_eq]

/-- Steps that do the same, over a list. -/
theorem forM {γ : Type} {l : List γ} {f f' : γ → CheckM PUnit} (hs : J s)
    (h : ∀ x t, J t → Same J (f x) (f' x) t) : Same J (l.forM f) (l.forM f') s := by
  induction l generalizing s with
  | nil => exact Same.pure _ hs
  | cons x l ih => exact (h x s hs).bind fun _ t ht => ih ht

end Same

/-- The functions are registered as in `s₀`, and these ones are active. -/
structure Standing (s₀ : State) (active : List String) (s : State) : Prop where
  functions : s.functions = s₀.functions
  active : s.active = active

/-- Checking arguments leaves the functions and the active ones as they are. -/
theorem checkArguments_same {sig : Signature} (h : Standing s₀ active s) :
    Same (Standing s₀ active) (checkArguments name sig args span)
      (checkArguments name sig args span) s := by
  refine ⟨rfl, checkArguments_spec.mono ?_ fun _ _ _ => trivial⟩
  rintro - t ⟨rfl, -⟩
  exact h

/-- So does typing two operands. -/
theorem operatorType_same {op : Op} {left right : Ty} {at' : Span} (h : Standing s₀ active s) :
    Same (Standing s₀ active) (operatorType op left right at') (operatorType op left right at')
      s := by
  unfold operatorType
  split
  · exact .fail
  split
  · exact .pure _ h
  split
  · exact .fail
  · exact .pure _ h

/-- So does settling a function. -/
theorem settle_same {known : Option Signature} {results : List (Clause × Ty)}
    (h : Standing s₀ active s) :
    Same (Standing s₀ active) (settle name known args span results)
      (settle name known args span results) s :=
  ⟨rfl, settle_ends (fun _ _ _ => h) (fun _ _ _ _ => ⟨h.functions, h.active⟩)
    (fun _ _ _ => ⟨h.functions, h.active⟩) fun _ _ => trivial⟩

/-- Calls do the same while these functions are active. -/
def SameCall (s₀ : State) (active : List String) (onCall onCall' : OnCall) : Prop :=
  ∀ g args span s, Standing s₀ active s →
    Same (Standing s₀ active) (onCall g args span) (onCall' g args span) s

mutual

/-- Typing an expression does the same if the calls in it do. -/
theorem inferExpr_same {locals : Assoc Ty} (hcall : SameCall s₀ active onCall onCall') :
    ∀ (e : Expr) (s : State), Standing s₀ active s →
      Same (Standing s₀ active) (inferExpr onCall locals e) (inferExpr onCall' locals e) s
  | .lit value _, s, hs => by
    rw [inferExpr, inferExpr]
    exact .pure _ hs
  | .call name args span, s, hs => by
    rw [inferExpr, inferExpr]
    refine (inferArgs_same hcall args s hs).bind fun types t ht => ?_
    split
    · split
      · exact .pure _ ht
      · exact .fail
    · refine Same.get ?_
      split
      · exact hcall name types span t ht
      · exact .fail
  | .binary left op right span, s, hs => by
    rw [inferExpr, inferExpr]
    refine (inferExpr_same hcall left s hs).bind fun leftType t ht => ?_
    exact (inferExpr_same hcall right t ht).bind fun rightType u hu => operatorType_same hu
  | .cond test yes no _, s, hs => by
    rw [inferExpr, inferExpr]
    refine (inferExpr_same hcall test s hs).bind fun testType t ht => ?_
    split
    · exact .fail
    refine (inferExpr_same hcall yes t ht).bind fun yesType u hu => ?_
    refine (inferExpr_same hcall no u hu).bind fun noType v hv => ?_
    split
    · exact .fail
    · exact .pure _ hv

/-- Typing arguments does the same if the calls in them do. -/
theorem inferArgs_same {locals : Assoc Ty} (hcall : SameCall s₀ active onCall onCall') :
    ∀ (es : List Expr) (s : State), Standing s₀ active s →
      Same (Standing s₀ active) (inferArgs onCall locals es) (inferArgs onCall' locals es) s
  | [], s, hs => by
    rw [inferArgs, inferArgs]
    exact .pure _ hs
  | e :: es, s, hs => by
    rw [inferArgs, inferArgs]
    refine (inferExpr_same hcall e s hs).bind fun ty t ht => ?_
    exact (inferArgs_same hcall es t ht).bind fun types u hu => .pure _ hu

end

/-- Checking a clause does the same if the calls in it do. -/
theorem checkClause_same {c : Clause} (hcall : SameCall s₀ active onCall onCall')
    (hs : Standing s₀ active s) :
    Same (Standing s₀ active) (checkClause onCall c args) (checkClause onCall' c args) s := by
  have hrecord : Same (Standing s₀ active) (record (.checking c)) (record (.checking c)) s :=
    ⟨rfl, ends_record.2 ⟨hs.functions, hs.active⟩⟩
  refine hrecord.bind fun _ t ht => ?_
  split
  · exact .fail
  · split
    · exact ⟨rfl, trivial⟩
    · exact inferExpr_same hcall c.body t ht

/-- So does checking several clauses. -/
theorem checkClauses_same (hcall : SameCall s₀ active onCall onCall') (clauses : List Clause)
    (hs : Standing s₀ active s) :
    Same (Standing s₀ active) (checkClauses onCall args clauses) (checkClauses onCall' args clauses)
      s := by
  induction clauses generalizing s with
  | nil => exact .pure _ hs
  | cons c clauses ih =>
    rw [checkClauses, checkClauses]
    refine (checkClause_same hcall hs).bind fun ty t ht => ?_
    exact (ih ht).bind fun results u hu => .pure _ hu

/-- Visiting a function does the same if the calls in its clauses do; a function without clauses
needs no calls. -/
theorem visit_same {known : Option Signature}
    (hcall : s₀.clausesOf name ≠ [] → SameCall s₀ (name :: active) onCall onCall')
    (hs : Standing s₀ active s) :
    Same (Standing s₀ active) (visit onCall name known args span (s₀.clausesOf name))
      (visit onCall' name known args span (s₀.clausesOf name)) s := by
  have henter : Standing s₀ (name :: active) { s with active := name :: s.active } :=
    ⟨hs.functions, congrArg (name :: ·) hs.active⟩
  have hclauses : Same (Standing s₀ (name :: active))
      (checkClauses onCall args (s₀.clausesOf name)) (checkClauses onCall' args (s₀.clausesOf name))
      { s with active := name :: s.active } := by
    by_cases hnil : s₀.clausesOf name = []
    · rw [hnil]
      exact .pure _ henter
    · exact checkClauses_same (hcall hnil) _ henter
  refine (hclauses.withActive fun t ht => ?_).bind fun results t ht => settle_same ht
  exact ⟨ht.functions, congrArg List.tail ht.active⟩

/-- Following a call does the same if the calls below it do, while its function is active. -/
theorem follow_same
    (hcall : ∀ name, name ∉ active → s₀.clausesOf name ≠ [] →
      SameCall s₀ (name :: active) onCall onCall') :
    SameCall s₀ active (follow onCall) (follow onCall') := by
  intro g args span s hs
  have hclauses : s.clausesOf g = s₀.clausesOf g := by
    unfold State.clausesOf
    rw [hs.functions]
  have hvisit : ∀ known t, g ∉ s.active → Standing s₀ active t →
      Same (Standing s₀ active) (visit onCall g known args span (s.clausesOf g))
        (visit onCall' g known args span (s.clausesOf g)) t := by
    intro known t hg ht
    rw [hclauses]
    exact visit_same (hcall g (hs.active ▸ hg)) ht
  have hknown : ∀ sig, Same (Standing s₀ active) (knownResult g sig args span)
      (knownResult g sig args span) s :=
    fun sig => (checkArguments_same hs).bind fun _ t ht => .pure _ ht
  refine Same.get ?_
  dsimp only
  split
  · split
    · exact hknown _
    · exact .stop _
  split
  · split
    · exact hknown _
    · exact .fail
  next hg =>
  cases s.signatures.lookup g with
  | some sig => exact (checkArguments_same hs).bind fun _ t ht => hvisit (some sig) t hg ht
  | none => exact hvisit none s hg hs

/-! ## Enough levels -/

/-- The functions with clauses are those that have a first clause. -/
theorem mem_firstClauses_iff {p : Program} {f : String} :
    f ∈ p.firstClauses.map (·.name) ↔ p.clausesOf f ≠ [] := by
  unfold Program.firstClauses
  rw [map_firstsBy, mem_firstsBy_id, List.mem_map]
  simp [Program.clausesOf, List.filter_eq_nil_iff]

/-- Different functions with clauses are no more than there are first clauses. -/
theorem Stack.length_le_firstClauses {p : Program} (h : Stack s₀ active)
    (hclauses : ∀ f, s₀.clausesOf f = p.clausesOf f) : active.length ≤ p.firstClauses.length := by
  have hsub : active ⊆ p.firstClauses.map (·.name) := by
    intro f hf
    rw [mem_firstClauses_iff, ← hclauses]
    exact h.clauses f hf
  have hlen := (h.nodup.subperm hsub).length_le
  rwa [List.length_map] at hlen

/-- Each function has one first clause, so their names make a stack. -/
theorem Stack.firstClauses {p : Program} (hclauses : ∀ f, s₀.clausesOf f = p.clausesOf f) :
    Stack s₀ (p.firstClauses.map (·.name)) := by
  constructor
  · unfold Program.firstClauses
    rw [map_firstsBy]
    exact nodup_firstsBy_id _
  · intro f hf
    rw [hclauses]
    exact mem_firstClauses_iff.1 hf

/-- **What is beyond enough levels does not matter.** Each level makes one more function active, so
with none left there would be more active functions than functions with clauses. -/
theorem followed_same {p : Program} (hclauses : ∀ f, s₀.clausesOf f = p.clausesOf f)
    (beyond beyond' : OnCall) (levels levels' : Nat) (hstack : Stack s₀ active)
    (hlevels : p.firstClauses.length < levels + active.length)
    (hlevels' : p.firstClauses.length < levels' + active.length) :
    SameCall s₀ active (followed beyond levels) (followed beyond' levels') := by
  have hle := hstack.length_le_firstClauses hclauses
  induction levels generalizing levels' active with
  | zero => omega
  | succ levels ih =>
    cases levels' with
    | zero => omega
    | succ levels' =>
      refine follow_same fun name hname hne => ?_
      have hstack' : Stack s₀ (name :: active) :=
        ⟨List.nodup_cons.2 ⟨hname, hstack.nodup⟩, List.forall_mem_cons.2 ⟨hne, hstack.clauses⟩⟩
      refine ih levels' hstack' ?_ ?_ (hstack'.length_le_firstClauses hclauses)
      · rw [List.length_cons]
        omega
      · rw [List.length_cons]
        omega

/-- A call from outside has a depth above the number of functions. -/
theorem run_call : (call name args span).run.run s =
    (checkCall (s.functions.length + 1) name args span).run.run s := by
  have hget : (get : CheckM State).run.run s = (.ok s, s) := rfl
  rw [call, run_bind, hget]

/-- A call from outside is followed for enough levels. -/
theorem call_same {p : Program} (hclauses : ∀ f, s₀.clausesOf f = p.clausesOf f) (beyond : OnCall)
    {levels : Nat} (hlevels : p.firstClauses.length < levels) :
    SameCall s₀ [] (followed beyond levels) call := by
  intro g args span s hs
  have hdepth := (Stack.firstClauses hclauses).length_le
  rw [List.length_map] at hdepth
  have hsame := followed_same hclauses beyond (checkCall 0) levels (s₀.functions.length + 1)
    ⟨List.nodup_nil, fun _ h => absurd h List.not_mem_nil⟩ hlevels (Nat.lt_succ_of_le hdepth)
    g args span s hs
  rw [← checkCall_eq_followed, ← hs.functions] at hsame
  exact ⟨hsame.run_eq.trans run_call.symm, hsame.ends⟩

/-- The examination of a program does the same if calls do. -/
theorem examineBy_same (hcall : SameCall s₀ [] onCall onCall') (hs : Standing s₀ [] s) :
    Same (Standing s₀ []) (examineBy onCall) (examineBy onCall') s := by
  have hentry : Same (Standing s₀ []) (checkEntryPointBy onCall) (checkEntryPointBy onCall') s := by
    refine Same.get ?_
    split
    · exact .fail
    · split
      · exact .fail
      · have hspan : ∀ clauses, Same (Standing s₀ []) (entrySpan s clauses) (entrySpan s clauses)
            s := by
          intro clauses
          unfold entrySpan
          split
          · exact .pure _ hs
          · exact .pure _ hs
          · exact ⟨rfl, trivial⟩
        refine (hspan _).bind fun span t ht => (hcall _ _ _ t ht).bind fun ty u hu => ?_
        split
        · exact .fail
        · exact .pure _ hu
  refine hentry.bind fun ty t ht => ?_
  have hrecord : Same (Standing s₀ []) (record (.entryReturns ty)) (record (.entryReturns ty)) t :=
    ⟨rfl, ends_record.2 ⟨ht.functions, ht.active⟩⟩
  refine hrecord.bind fun _ u hu => Same.get (Same.forM hu fun q v hv => Same.get ?_)
  split
  · exact .pure _ hv
  split
  · exact (hcall _ _ _ v hv).discard
  · exact .stop _

/-- **The check of a program follows calls no deeper than there are functions with clauses**, and
once more. Whatever is done with calls beyond that, its run is the same. -/
theorem validate_followed (externals : Assoc Signature) (p : Program) (beyond : OnCall)
    {levels : Nat} (h : p.firstClauses.length < levels) :
    (validateBy (followed beyond levels) p).run.run { builtins := externals } =
      (validate p).run.run { builtins := externals } := by
  have hshape : ∀ onCall, validateBy onCall p = (do registerBuiltins; registerProgram p) >>=
      fun _ => examineBy onCall >>= fun _ => reportUnused >>= fun _ => do
        return (← get).signatures := by
    intro onCall
    unfold validateBy
    simp only [bind_assoc]
  have hregister : Same (Loaded externals p.clauses) (do registerBuiltins; registerProgram p)
      (do registerBuiltins; registerProgram p) { builtins := externals } :=
    ⟨rfl, (register_loaded externals p).mono (fun _ _ h => h) fun _ _ _ => trivial⟩
  rw [validate_eq_by, hshape, hshape]
  refine Same.run_eq (J := fun _ => True) (hregister.bind fun _ s hs => ?_)
  refine (examineBy_same (call_same hs.clauses beyond h) ⟨rfl, hs.active⟩).bind fun _ t _ => ?_
  exact ⟨rfl, Ends.any⟩

end Clausal.Check
