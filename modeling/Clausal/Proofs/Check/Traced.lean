import Clausal.Proofs.Check.Steps

/-!
# Checking with notes

A check gives a type to every expression it meets and forgets it again; only the signatures stay.
Here is the same check with a notebook: whenever `inferExpr` returns, the clause, the expression and
its type are noted. Nothing reads the notes, so leaving them out gives back the check itself, with
the same value and the same state however it ends (`Erases`, `validate_erases`).
-/

namespace Clausal

namespace Check

/-- The type that was given to an expression in the body of a clause. -/
structure Note where
  clause : Clause
  expr : Expr
  ty : Ty

/-- The state of a check, and the notes taken so far. -/
structure Log where
  state : State
  notes : List Note

/-- One more function is active. -/
def Log.enter (r : Log) (name : String) : Log :=
  { r with state := { r.state with active := name :: r.state.active } }

/-- The innermost active function is no longer active. -/
def Log.leave (r : Log) : Log :=
  { r with state := { r.state with active := r.state.active.tail } }

/-- A step of a check that may take notes. -/
abbrev TraceM := ExceptT Stop (StateM Log)

namespace Traced

/-! ## The check -/

/-- A step that takes no notes. -/
def lift {α : Type} (m : CheckM α) : TraceM α := fun r =>
  ((m.run.run r.state).1, { r with state := (m.run.run r.state).2 })

/-- Notes the type that a step returns for an expression. -/
def noted (c : Clause) (e : Expr) (m : TraceM Ty) : TraceM Ty := do
  let ty ← m
  modify fun r => { r with notes := r.notes ++ [⟨c, e, ty⟩] }
  pure ty

/-- Runs a step while a function is among the active ones. -/
def withActive {α : Type} (name : String) (m : TraceM α) : TraceM α := fun r =>
  ((m.run.run (r.enter name)).1, (m.run.run (r.enter name)).2.leave)

/-- How a call of a function is checked. -/
abbrev OnCall := String → List Ty → Option Span → TraceM Ty

mutual

/-- The type of an expression in the body of a clause. -/
def inferExpr (onCall : OnCall) (c : Clause) (locals : Assoc Ty) : Expr → TraceM Ty
  | .lit value span => noted c (.lit value span) (pure value.ty)
  | .call name args span => noted c (.call name args span) do
    let types ← inferArgs onCall c locals args
    match locals.value? name with
    | some ty =>
      if types.isEmpty then pure ty else lift (fail (.badArity name 0 types.length) span)
    | none =>
      if (← lift get).functions.has name then onCall name types span
      else lift (fail (.notFound name) span)
  | .binary left op right span => noted c (.binary left op right span) do
    let leftType ← inferExpr onCall c locals left
    let rightType ← inferExpr onCall c locals right
    lift (operatorType op leftType rightType span)
  | .cond test yes no span => noted c (.cond test yes no span) do
    let testType ← inferExpr onCall c locals test
    if testType ≠ .bool then lift (fail (.typeMismatch .bool testType) test.span)
    else
      let yesType ← inferExpr onCall c locals yes
      let noType ← inferExpr onCall c locals no
      if yesType ≠ noType then lift (fail (.typeMismatch yesType noType) no.span)
      else pure yesType

/-- The types of the arguments of a call, from left to right. -/
def inferArgs (onCall : OnCall) (c : Clause) (locals : Assoc Ty) : List Expr → TraceM (List Ty)
  | [] => pure []
  | e :: es => do
    let ty ← inferExpr onCall c locals e
    let types ← inferArgs onCall c locals es
    pure (ty :: types)

end

/-- Checks one clause against the types of its arguments. -/
def checkClause (onCall : OnCall) (c : Clause) (args : List Ty) : TraceM Ty := do
  lift (record (.checking c))
  if c.params.length ≠ args.length then
    lift (fail (.badArity c.name c.params.length args.length) c.span)
  else match literalMismatch? c.params args with
    | some fault => lift (throw (.fault fault))
    | none => inferExpr onCall c (Assoc.ofPairs (Pattern.bindings c.params args)) c.body

/-- Checks several clauses in order. -/
def checkClauses (onCall : OnCall) (args : List Ty) : List Clause → TraceM (List (Clause × Ty))
  | [] => pure []
  | c :: cs => do
    let ty ← checkClause onCall c args
    let rest ← checkClauses onCall args cs
    pure ((c, ty) :: rest)

/-- Checks the clauses of a function while it is active, and settles it. -/
def visit (onCall : OnCall) (name : String) (known : Option Signature) (args : List Ty)
    (span : Option Span) (clauses : List Clause) : TraceM Ty := do
  let results ← withActive name (checkClauses onCall args clauses)
  lift (settle name known args span results)

/-- Checks a call of a function. -/
def checkCall (depth : Nat) (name : String) (args : List Ty) (span : Option Span) : TraceM Ty :=
  match depth with
  | 0 => lift (fail (.untyped name) span)
  | depth + 1 => do
    let s ← lift get
    let known := s.signatures.lookup name
    if name ∈ s.validated then
      match known with
      | some sig => lift (knownResult name sig args span)
      | none => lift (throw (.noSignature name))
    else if name ∈ s.active then
      match known with
      | some sig => lift (knownResult name sig args span)
      | none => lift (fail (.untyped name) span)
    else
      lift (known.forM fun sig => checkArguments name sig args span)
      visit (fun n a p => checkCall depth n a p) name known args span (s.clausesOf name)

/-- Checks a call of a function from outside. -/
def call (name : String) (args : List Ty) (span : Option Span) : TraceM Ty := do
  checkCall ((← lift get).functions.length + 1) name args span

/-- Checks the entry point. -/
def checkEntryPoint : TraceM Ty := do
  let s ← lift get
  match s.functions.value? entryPoint with
  | none => lift (fail (.notFound entryPoint) none)
  | some clauses =>
    if s.builtins.has entryPoint then lift (fail (.notFound entryPoint) none)
    else
      let span ← lift (entrySpan s clauses)
      let ty ← call entryPoint [] span
      if ty ≠ .int then lift (fail (.typeMismatch .int ty) span) else pure ty

/-- Checks a declared function unless that is done. -/
def checkDeclared (d : Decl) : TraceM Unit := do
  let s ← lift get
  if d.name ∈ s.validated then pure ()
  else match s.signatures.lookup d.name with
    | some sig => discard (call d.name sig.params d.span)
    | none => lift (throw (.noSignature d.name))

/-- Checks a whole program. -/
def validate (p : Program) : TraceM SignatureTable := do
  lift registerBuiltins
  lift (registerProgram p)
  let ty ← checkEntryPoint
  lift (record (.entryReturns ty))
  (← lift get).declared.forM fun q => checkDeclared q.2
  lift reportUnused
  return (← lift get).signatures

end Traced

/-! ## Leaving the notes out -/

/-- Without its notes, a step is another one: it ends alike and in the same state. -/
def Erases {α : Type} (m : TraceM α) (m' : CheckM α) : Prop :=
  ∀ r, ((m.run.run r).1, (m.run.run r).2.state) = m'.run.run r.state

namespace Erases

variable {α β : Type} {m : TraceM α} {m' : CheckM α}

theorem lift (m : CheckM α) : Erases (Traced.lift m) m := fun _ => rfl

theorem pure (a : α) : Erases (Pure.pure a) (Pure.pure a) := fun _ => rfl

/-- Erasing one step after the other. -/
theorem bind {f : α → TraceM β} {f' : α → CheckM β} (h : Erases m m')
    (hf : ∀ a, Erases (f a) (f' a)) : Erases (m >>= f) (m' >>= f') := by
  intro r
  rw [run_bind, run_bind, ← h r]
  rcases m.run.run r with ⟨_ | a, r'⟩
  · rfl
  · exact hf a r'

/-- A note on an expression is erased. -/
theorem noted {c : Clause} {e : Expr} {m : TraceM Ty} {m' : CheckM Ty} (h : Erases m m') :
    Erases (Traced.noted c e m) m' := by
  intro r
  unfold Traced.noted
  rw [run_bind, ← h r]
  rcases m.run.run r with ⟨_ | a, r'⟩ <;> rfl

/-- A traced step under an active function. -/
theorem withActive {name : String} (h : Erases m m') :
    Erases (Traced.withActive name m) (Check.withActive name m') := by
  intro r
  have hrun : (Check.withActive name m').run.run r.state =
      ((m'.run.run (r.enter name).state).1,
        { (m'.run.run (r.enter name).state).2 with
          active := (m'.run.run (r.enter name).state).2.active.tail }) := rfl
  rw [hrun, ← h (r.enter name)]
  rfl

/-- A traced step whose value is dropped. -/
theorem discard (h : Erases m m') : Erases (discard m) (discard m') := by
  intro r
  rw [run_discard, run_discard, ← h r]
  rcases m.run.run r with ⟨_ | a, r'⟩ <;> rfl

/-- A traced step over a list. -/
theorem forM {γ : Type} {f : γ → TraceM PUnit} {f' : γ → CheckM PUnit}
    (h : ∀ x, Erases (f x) (f' x)) (xs : List γ) : Erases (xs.forM f) (xs.forM f') := by
  induction xs with
  | nil => exact pure _
  | cons x xs ih => exact (h x).bind fun _ => ih

/-- What is known of a step without notes holds of the step with notes. -/
theorem ends {r : Log} {Q : α → State → Prop} {E : Stop → State → Prop} (h : Erases m m')
    (hm : Ends m' r.state Q E) : Ends m r (fun a r' => Q a r'.state) fun e r' => E e r'.state := by
  unfold Ends at hm ⊢
  rw [← h r] at hm
  revert hm
  rcases m.run.run r with ⟨_ | a, r'⟩ <;> exact id

end Erases

namespace Traced

section Erasure
variable {traced : OnCall} {onCall : Check.OnCall}

mutual

/-- The trace of an expression does not change how it is typed. -/
theorem inferExpr_erases {c : Clause} {locals : Assoc Ty}
    (hcall : ∀ g args span, Erases (traced g args span) (onCall g args span)) :
    ∀ e : Expr, Erases (inferExpr traced c locals e) (Check.inferExpr onCall locals e)
  | .lit value span => .noted (.pure _)
  | .call g args span => by
    rw [inferExpr, Check.inferExpr]
    refine .noted (.bind (inferArgs_erases hcall args) fun types => ?_)
    cases locals.value? g with
    | some ty =>
      dsimp only
      split
      · exact .pure _
      · exact .lift _
    | none =>
      refine .bind (.lift _) fun s => ?_
      split
      · exact hcall g types span
      · exact .lift _
  | .binary left op right span => by
    rw [inferExpr, Check.inferExpr]
    refine .noted (.bind (inferExpr_erases hcall left) fun leftType => ?_)
    exact .bind (inferExpr_erases hcall right) fun rightType => .lift _
  | .cond test yes no span => by
    rw [inferExpr, Check.inferExpr]
    refine .noted (.bind (inferExpr_erases hcall test) fun testType => ?_)
    split
    · exact .lift _
    refine .bind (inferExpr_erases hcall yes) fun yesType => ?_
    refine .bind (inferExpr_erases hcall no) fun noType => ?_
    split
    · exact .lift _
    · exact .pure _

/-- Nor does that of arguments. -/
theorem inferArgs_erases {c : Clause} {locals : Assoc Ty}
    (hcall : ∀ g args span, Erases (traced g args span) (onCall g args span)) :
    ∀ es : List Expr, Erases (inferArgs traced c locals es) (Check.inferArgs onCall locals es)
  | [] => .pure _
  | e :: es => by
    rw [inferArgs, Check.inferArgs]
    refine .bind (inferExpr_erases hcall e) fun ty => ?_
    exact .bind (inferArgs_erases hcall es) fun types => .pure _

end

/-- Nor does that of a clause. -/
theorem checkClause_erases {c : Clause} {args : List Ty}
    (hcall : ∀ g args span, Erases (traced g args span) (onCall g args span)) :
    Erases (checkClause traced c args) (Check.checkClause onCall c args) := by
  unfold checkClause Check.checkClause
  refine .bind (.lift _) fun _ => ?_
  split
  · exact .lift _
  cases literalMismatch? c.params args with
  | some fault => exact .lift _
  | none => exact inferExpr_erases hcall c.body

/-- Nor does that of several clauses. -/
theorem checkClauses_erases {args : List Ty} {clauses : List Clause}
    (hcall : ∀ g args span, Erases (traced g args span) (onCall g args span)) :
    Erases (checkClauses traced args clauses) (Check.checkClauses onCall args clauses) := by
  induction clauses with
  | nil => exact .pure _
  | cons c clauses ih =>
    rw [checkClauses, Check.checkClauses]
    exact .bind (checkClause_erases hcall) fun ty => .bind ih fun rest => .pure _

/-- Nor does that of a visit. -/
theorem visit_erases {name : String} {known : Option Signature} {args : List Ty}
    {span : Option Span} {clauses : List Clause}
    (hcall : ∀ g args span, Erases (traced g args span) (onCall g args span)) :
    Erases (visit traced name known args span clauses)
      (Check.visit onCall name known args span clauses) :=
  .bind (.withActive (checkClauses_erases hcall)) fun _ => .lift _

end Erasure

/-- The trace of a call does not change how it is checked, at any depth. -/
theorem checkCall_erases (depth : Nat) (name : String) (args : List Ty) (span : Option Span) :
    Erases (checkCall depth name args span) (Check.checkCall depth name args span) := by
  induction depth generalizing name args span with
  | zero => exact .lift _
  | succ depth ih =>
    rw [checkCall_succ, checkCall]
    refine .bind (.lift _) fun s => ?_
    dsimp only
    split
    · cases s.signatures.lookup name <;> exact .lift _
    split
    · cases s.signatures.lookup name <;> exact .lift _
    · exact .bind (.lift _) fun _ => visit_erases ih

/-- Nor does that of a call from outside. -/
theorem call_erases (name : String) (args : List Ty) (span : Option Span) :
    Erases (call name args span) (Check.call name args span) :=
  .bind (.lift _) fun _ => checkCall_erases _ name args span

/-- Nor does that of the entry point. -/
theorem checkEntryPoint_erases : Erases checkEntryPoint Check.checkEntryPoint := by
  unfold checkEntryPoint Check.checkEntryPoint
  refine .bind (.lift _) fun s => ?_
  cases s.functions.value? entryPoint with
  | none => exact .lift _
  | some clauses =>
    dsimp only
    split
    · exact .lift _
    refine .bind (.lift _) fun span => .bind (call_erases _ _ _) fun ty => ?_
    split
    · exact .lift _
    · exact .pure _

/-- Nor does that of a declared function. -/
theorem checkDeclared_erases (d : Decl) : Erases (checkDeclared d) (Check.checkDeclared d) := by
  unfold checkDeclared Check.checkDeclared
  refine .bind (.lift _) fun s => ?_
  split
  · exact .pure _
  cases s.signatures.lookup d.name with
  | some sig => exact .discard (call_erases _ _ _)
  | none => exact .lift _

/-- **Taking notes changes nothing.** The check of a program that takes notes returns what the check
returns and leaves the same state, or stops alike. -/
theorem validate_erases (p : Program) : Erases (validate p) (Check.validate p) := by
  unfold validate Check.validate
  refine .bind (.lift _) fun _ => .bind (.lift _) fun _ => ?_
  refine .bind checkEntryPoint_erases fun ty => .bind (.lift _) fun _ => .bind (.lift _) fun s => ?_
  refine .bind (.forM (fun q : String × Decl => checkDeclared_erases q.2) _) fun _ => ?_
  exact .bind (.lift _) fun _ => .bind (.lift _) fun _ => .pure _

/-! ## Outcomes -/

section Outcomes
variable {α : Type} {r : Log} {Q : α → Log → Prop} {E : Stop → Log → Prop}

/-- A lifted step runs on the state of the record. -/
theorem ends_lift {m : CheckM α} :
    Ends (lift m) r Q E ↔ Ends m r.state (fun a t => Q a { r with state := t })
      fun e t => E e { r with state := t } := by
  have hrun : (lift m).run.run r =
      ((m.run.run r.state).1, { r with state := (m.run.run r.state).2 }) := rfl
  unfold Ends
  rw [hrun]
  rcases m.run.run r.state with ⟨_ | a, t⟩ <;> rfl

/-- A traced step under an active function runs on the record entered for it, which is left again.
-/
theorem ends_withActive {name : String} {m : TraceM α} :
    Ends (withActive name m) r Q E ↔
      Ends m (r.enter name) (fun a r' => Q a r'.leave) fun e r' => E e r'.leave := by
  have hrun : (withActive name m).run.run r =
      ((m.run.run (r.enter name)).1, (m.run.run (r.enter name)).2.leave) := rfl
  unfold Ends
  rw [hrun]
  rcases m.run.run (r.enter name) with ⟨_ | a, r'⟩ <;> rfl

end Outcomes

end Traced

end Check

end Clausal
