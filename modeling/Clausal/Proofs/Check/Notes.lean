import Clausal.Proofs.Check.Sound
import Clausal.Proofs.Check.Traced

/-!
# The notes of a check

What the notebook of `Clausal.Proofs.Check.Traced` says of a program that is accepted
(`validate_notes`). Every note is right: its type is a type of the expression under the final
signatures. And no note is missing: there is one for every part of the body of every clause of a
function with a signature.

The types come from the soundness of the check without notes, carried over by `Erases.ends`, so that
nothing about typing is proved again. The induction is on what the steps add to the notebook. While
the clauses of a function are checked, the notes on them are right for the arguments of the call
that is being checked (`Grows`); when the function gets its signature, they are right for that
signature (`Note.Settled`), and stay so because signatures are only added.
-/

namespace Clausal

mutual

/-- The parts of an expression: the expression and everything below it. -/
def Expr.parts : Expr → List Expr
  | .lit value span => [.lit value span]
  | .call f args span => .call f args span :: partsOf args
  | .binary left op right span => .binary left op right span :: (left.parts ++ right.parts)
  | .cond test yes no span => .cond test yes no span :: (test.parts ++ (yes.parts ++ no.parts))

/-- The parts of several expressions. -/
def partsOf : List Expr → List Expr
  | [] => []
  | e :: es => e.parts ++ partsOf es

end

namespace Check

/-! ## Notes that are right -/

section Notes
variable {α : Type} {r r' r'' : Log} {c : Clause} {clauses : List Clause} {args : List Ty}

/-- The type in a note is a type of the expression, in a clause whose arguments have types `args`.
-/
def Note.Typed (S : String → Option Signature) (args : List Ty) (n : Note) : Prop :=
  HasType S (Pattern.argument? n.clause.params args) n.expr n.ty

/-- A note is about a clause of a function with a signature, and right under the signatures found so
far. -/
def Note.Settled (s : State) (n : Note) : Prop :=
  ∃ f sig, n.clause ∈ s.clausesOf f ∧ s.signatures.lookup f = some sig ∧
    n.Typed s.signatures.lookup sig.params

/-- A note that is settled stays so. -/
theorem Note.Settled.of_frame {s t : State} {n : Note} (h : n.Settled s) (hst : Frame Any s t) :
    n.Settled t := by
  obtain ⟨f, sig, hc, hsig, hty⟩ := h
  exact ⟨f, sig, hst.clausesOf f ▸ hc, hst.signatures f sig hsig, hty.mono hst.signatures⟩

/-- There is a note on each of several expressions in a clause. -/
def Noted (notes : List Note) (c : Clause) (es : List Expr) : Prop :=
  ∀ e ∈ es, ∃ ty, ⟨c, e, ty⟩ ∈ notes

/-- Expressions that are noted are so among more notes. -/
theorem Noted.mono {notes notes' : List Note} {es : List Expr} (h : Noted notes c es)
    (hsub : ∀ n ∈ notes, n ∈ notes') : Noted notes' c es := by
  intro e he
  obtain ⟨ty, hty⟩ := h e he
  exact ⟨ty, hsub _ hty⟩

/-- Two lists of expressions that are noted are noted together. -/
theorem Noted.append {notes : List Note} {es es' : List Expr} (h : Noted notes c es)
    (h' : Noted notes c es') : Noted notes c (es ++ es') := fun e he =>
  (List.mem_append.1 he).elim (h e) (h' e)

/-- The state is sound, and there is a note on each part of the clauses of validated functions. -/
structure Log.Sound (r : Log) : Prop where
  state : Check.Sound r.state
  noted : ∀ f ∈ r.state.validated, ∀ c ∈ r.state.clausesOf f, Noted r.notes c c.body.parts

/-- What a step does with the notes while it checks some clauses against the types of their
arguments: none is lost, and a new one is about one of these clauses and right, or it is settled. -/
structure Grows (clauses : List Clause) (args : List Ty) (r r' : Log) : Prop where
  frame : Frame Any r.state r'.state
  kept : ∀ n ∈ r.notes, n ∈ r'.notes
  new : ∀ n ∈ r'.notes, n ∈ r.notes ∨
    (n.clause ∈ clauses ∧ n.Typed r'.state.signatures.lookup args) ∨ n.Settled r'.state

theorem Grows.refl (r : Log) : Grows clauses args r r :=
  ⟨Frame.refl _, fun _ h => h, fun _ h => .inl h⟩

/-- Growing twice is growing. -/
theorem Grows.trans (h : Grows clauses args r r') (h' : Grows clauses args r' r'') :
    Grows clauses args r r'' where
  frame := h.frame.trans h'.frame
  kept n hn := h'.kept n (h.kept n hn)
  new n hn := by
    rcases h'.new n hn with hn | hn
    · rcases h.new n hn with hn | ⟨hc, hty⟩ | hn
      · exact .inl hn
      · exact .inr (.inl ⟨hc, hty.mono h'.frame.signatures⟩)
      · exact .inr (.inr (hn.of_frame h'.frame))
    · exact .inr hn

/-- Growing by notes on some clauses is growing by notes on more. -/
theorem Grows.mono {clauses' : List Clause} (h : Grows clauses args r r')
    (hsub : ∀ c ∈ clauses, c ∈ clauses') : Grows clauses' args r r' :=
  ⟨h.frame, h.kept, fun n hn => (h.new n hn).imp id (Or.imp (And.imp (hsub _) id) id)⟩

/-- Growing by settled notes only is growing by notes on any clauses. -/
theorem Grows.of_settled {types : List Ty} (h : Grows [] types r r') : Grows clauses args r r' :=
  ⟨h.frame, h.kept, fun n hn => (h.new n hn).imp id fun hnew =>
    .inr (hnew.resolve_left fun hc => nomatch hc.1)⟩

/-- A step that changes the state and takes no notes. -/
theorem Grows.of_frame {s : State} (h : Frame Any r.state s) :
    Grows clauses args r { r with state := s } :=
  ⟨h, fun _ hn => hn, fun _ hn => .inl hn⟩

/-- What a step does that checks expressions of a clause. -/
structure Annotates (c : Clause) (args : List Ty) (es : List Expr) (r r' : Log) : Prop where
  sound : r'.Sound
  grows : Grows [c] args r r'
  noted : Noted r'.notes c es

theorem Annotates.refl (hr : r.Sound) : Annotates c args [] r r :=
  ⟨hr, .refl r, fun _ he => nomatch he⟩

/-- Expressions that are annotated one after the other. -/
theorem Annotates.trans {es es' : List Expr} (h : Annotates c args es r r')
    (h' : Annotates c args es' r' r'') : Annotates c args (es ++ es') r r'' :=
  ⟨h'.sound, h.grows.trans h'.grows, (h.noted.mono h'.grows.kept).append h'.noted⟩

/-- One more note: on an expression that has just been given a type. -/
theorem Annotates.note {es : List Expr} {e : Expr} {ty : Ty} (h : Annotates c args es r r')
    (hty : HasType r'.state.signatures.lookup (Pattern.argument? c.params args) e ty) :
    Annotates c args (e :: es) r { r' with notes := r'.notes ++ [⟨c, e, ty⟩] } := by
  have hkept : ∀ n ∈ r'.notes, n ∈ r'.notes ++ [⟨c, e, ty⟩] := fun n => List.mem_append_left _
  refine ⟨⟨h.sound.state, fun f hf c' hc' => (h.sound.noted f hf c' hc').mono hkept⟩,
    ⟨h.grows.frame, fun n hn => hkept n (h.grows.kept n hn), fun n hn => ?_⟩, fun e' he' => ?_⟩
  · rcases List.mem_append.1 hn with hn | hn
    · exact h.grows.new n hn
    · rw [List.mem_singleton.1 hn]
      exact .inr (.inl ⟨List.mem_singleton.2 rfl, hty⟩)
  · rcases List.mem_cons.1 he' with rfl | he'
    · exact ⟨ty, List.mem_append_right _ (List.mem_singleton.2 rfl)⟩
    · exact h.noted.mono hkept e' he'

namespace Traced

/-! ## Expressions and clauses -/

/-- Calls that take notes: without them they are the sound calls `onCall`, and the new notes are
settled. -/
structure NotedCall (traced : OnCall) (onCall : Check.OnCall) : Prop where
  erases : ∀ g args span, Erases (traced g args span) (onCall g args span)
  sound : SoundCall onCall
  settled : ∀ g args span (r : Log), r.Sound →
    Ends (traced g args span) r (fun _ r' => r'.Sound ∧ Grows [] [] r r') fun _ _ => True

variable {traced : OnCall} {onCall : Check.OnCall} {locals : Assoc Ty}

/-- The type that is noted for an expression is a type of it, because it is the one that is inferred
without notes. -/
theorem noted_annotates (hcall : NotedCall traced onCall)
    (hlocals : locals.value? = Pattern.argument? c.params args) (hr : r.Sound) {e : Expr}
    {es : List Expr} {m : TraceM Ty} (hdef : inferExpr traced c locals e = noted c e m)
    (hparts : e.parts = e :: es)
    (hm : Ends m r (fun _ r' => Annotates c args es r r') fun _ _ => True) :
    Ends (inferExpr traced c locals e) r (fun _ r' => Annotates c args e.parts r r')
      fun _ _ => True := by
  have herases : Erases (inferExpr traced c locals e) (Check.inferExpr onCall locals e) :=
    inferExpr_erases hcall.erases e
  have htyped := herases.ends (inferExpr_sound hcall.sound e r.state hr.state)
  rw [hdef] at htyped ⊢
  unfold noted at htyped ⊢
  rw [ends_bind] at htyped ⊢
  refine (hm.and htyped).mono ?_ fun _ _ _ => trivial
  rintro ty r' ⟨h, -, -, hty⟩
  rw [hlocals] at hty
  rw [hparts]
  exact h.note hty

mutual

/-- Every part of an expression is noted, with a type of it. -/
theorem inferExpr_annotates (hcall : NotedCall traced onCall)
    (hlocals : locals.value? = Pattern.argument? c.params args) :
    ∀ (e : Expr) (r : Log), r.Sound → Ends (inferExpr traced c locals e) r
      (fun _ r' => Annotates c args e.parts r r') fun _ _ => True
  | .lit value span, r, hr => by
    refine noted_annotates hcall hlocals hr (by rw [inferExpr]) (by rw [Expr.parts]) ?_
    exact .refl hr
  | .call g es span, r, hr => by
    refine noted_annotates hcall hlocals hr (by rw [inferExpr]) (by rw [Expr.parts]) ?_
    refine (inferArgs_annotates hcall hlocals es r hr).bind fun types r₁ h₁ => ?_
    cases locals.value? g with
    | some ty =>
      dsimp only
      split
      · exact h₁
      · trivial
    | none =>
      refine (ends_bind.2 (ends_lift.2 (ends_get.2 ?_)))
      split
      · refine (hcall.settled g types span r₁ h₁.sound).mono ?_ fun _ _ h => h
        rintro ty r₂ ⟨hr₂, hgrows⟩
        exact ⟨hr₂, h₁.grows.trans hgrows.of_settled, h₁.noted.mono hgrows.kept⟩
      · trivial
  | .binary left op right span, r, hr => by
    refine noted_annotates hcall hlocals hr (by rw [inferExpr]) (by rw [Expr.parts]) ?_
    refine (inferExpr_annotates hcall hlocals left r hr).bind fun leftType r₁ h₁ => ?_
    refine (inferExpr_annotates hcall hlocals right r₁ h₁.sound).bind fun rightType r₂ h₂ => ?_
    have h := h₁.trans h₂
    rw [ends_lift]
    unfold operatorType
    split
    · trivial
    split
    · exact h
    split
    · trivial
    · exact h
  | .cond test yes no span, r, hr => by
    refine noted_annotates hcall hlocals hr (by rw [inferExpr]) (by rw [Expr.parts]) ?_
    refine (inferExpr_annotates hcall hlocals test r hr).bind fun testType r₁ h₁ => ?_
    split
    · trivial
    refine (inferExpr_annotates hcall hlocals yes r₁ h₁.sound).bind fun yesType r₂ h₂ => ?_
    refine (inferExpr_annotates hcall hlocals no r₂ h₂.sound).bind fun noType r₃ h₃ => ?_
    split
    · trivial
    · exact h₁.trans (h₂.trans h₃)

/-- Every part of the arguments of a call is noted, with a type of it. -/
theorem inferArgs_annotates (hcall : NotedCall traced onCall)
    (hlocals : locals.value? = Pattern.argument? c.params args) :
    ∀ (es : List Expr) (r : Log), r.Sound → Ends (inferArgs traced c locals es) r
      (fun _ r' => Annotates c args (partsOf es) r r') fun _ _ => True
  | [], r, hr => .refl hr
  | e :: es, r, hr => by
    rw [inferArgs, partsOf]
    refine (inferExpr_annotates hcall hlocals e r hr).bind fun ty r₁ h₁ => ?_
    refine (inferArgs_annotates hcall hlocals es r₁ h₁.sound).bind fun types r₂ h₂ => ?_
    exact h₁.trans h₂

end

/-- Checking a clause annotates every part of its body. -/
theorem checkClause_annotates (hcall : NotedCall traced onCall) (hr : r.Sound) :
    Ends (checkClause traced c args) r (fun _ r' => Annotates c args c.body.parts r r')
      fun _ _ => True := by
  unfold checkClause
  rw [ends_bind, ends_lift, ends_record]
  split
  · trivial
  · next hlen =>
    have hlen : c.params.length = args.length := Classical.not_not.1 hlen
    have hlocals : Assoc.value? (Assoc.ofPairs (Pattern.bindings c.params args)) =
        Pattern.argument? c.params args :=
      funext (Pattern.value?_ofPairs_bindings (Nat.le_of_eq hlen))
    split
    · trivial
    · have hr₁ : Log.Sound { r with
          state := { r.state with journal := r.state.journal ++ [.checking c] } } :=
        ⟨hr.state, hr.noted⟩
      refine (inferExpr_annotates hcall hlocals c.body _ hr₁).mono ?_ fun _ _ h => h
      intro ty r' h
      exact ⟨h.sound, (Grows.of_frame (Frame.journal _ _)).trans h.grows, h.noted⟩

/-- The notes on clauses that are checked against the types of their arguments. -/
theorem checkClauses_annotates (hcall : NotedCall traced onCall) (hr : r.Sound) :
    Ends (checkClauses traced args clauses) r
      (fun _ r' => r'.Sound ∧ Grows clauses args r r' ∧
        ∀ c ∈ clauses, Noted r'.notes c c.body.parts) fun _ _ => True := by
  induction clauses generalizing r with
  | nil => exact ⟨hr, .refl r, fun c hc => nomatch hc⟩
  | cons c clauses ih =>
    rw [checkClauses]
    refine (checkClause_annotates hcall hr).bind fun ty r₁ h₁ => ?_
    refine (ih h₁.sound).bind ?_
    rintro rest r₂ ⟨hr₂, hgrows, hnoted⟩
    refine ⟨hr₂, (h₁.grows.mono ?_).trans (hgrows.mono ?_), ?_⟩
    · simp
    · simp +contextual
    · exact List.forall_mem_cons.2 ⟨h₁.noted.mono hgrows.kept, hnoted⟩

/-! ## Calls -/

variable {name : String} {span : Option Span}

/-- Settling a function marks this function and no other one. -/
theorem settle_frame {s : State} {known : Option Signature} {results : List (Clause × Ty)}
    (ha : name ∉ s.active) :
    Ends (settle name known args span results) s
      (fun _ t => Frame Any s t ∧ ∀ f ∈ t.validated, f ∈ s.validated ∨ f = name)
      fun _ _ => True := by
  refine settle_ends (fun _ _ _ => ?_) (fun ty _ _ hnone => ?_) (fun sig _ _ => ?_)
    fun _ _ => trivial
  · exact ⟨Frame.refl s, fun f hf => .inl hf⟩
  · exact ⟨Frame.infer trivial ha hnone, fun f hf => State.mem_validated_mark_iff.1 hf⟩
  · exact ⟨Frame.mark s name, fun f hf => State.mem_validated_mark_iff.1 hf⟩

/-- The notes on the clauses of a function are settled together with the function: it gets the
signature of the arguments against which they have been checked. -/
theorem visit_settled (hcall : NotedCall traced onCall) (hr : r.Sound) (args : List Ty)
    (span : Option Span)
    (hargs : ∀ sig, r.state.signatures.lookup name = some sig → args = sig.params)
    (ha : name ∉ r.state.active) :
    Ends (visit traced name (r.state.signatures.lookup name) args span (r.state.clausesOf name)) r
      (fun _ r' => r'.Sound ∧ Grows [] [] r r') fun _ _ => True := by
  have herases : Erases
      (visit traced name (r.state.signatures.lookup name) args span (r.state.clausesOf name))
      (Check.visit onCall name (r.state.signatures.lookup name) args span
        (r.state.clausesOf name)) := visit_erases hcall.erases
  have hvisit := herases.ends (visit_sound hcall.sound hr.state hargs ha)
  have hactive : (r.enter name).Sound := ⟨hr.state, hr.noted⟩
  have hchecked : Ends (withActive name (checkClauses traced args (r.state.clausesOf name))) r
      (fun _ r₁ => r₁.Sound ∧ Grows (r.state.clausesOf name) args r r₁ ∧
        ∀ c ∈ r.state.clausesOf name, Noted r₁.notes c c.body.parts) fun _ _ => True := by
    refine ends_withActive.2 ((checkClauses_annotates hcall hactive).mono ?_ fun _ _ h => h)
    rintro results r₁ ⟨hr₁, hgrows, hnoted⟩
    exact ⟨⟨hr₁.state, hr₁.noted⟩, ⟨hgrows.frame.pop, hgrows.kept, hgrows.new⟩, hnoted⟩
  have hsteps : Ends
      (visit traced name (r.state.signatures.lookup name) args span (r.state.clausesOf name)) r
      (fun _ r' => ∃ r₁ : Log, (r₁.Sound ∧ Grows (r.state.clausesOf name) args r r₁ ∧
          ∀ c ∈ r.state.clausesOf name, Noted r₁.notes c c.body.parts) ∧ r'.notes = r₁.notes ∧
        Frame Any r₁.state r'.state ∧
        ∀ f ∈ r'.state.validated, f ∈ r₁.state.validated ∨ f = name) fun _ _ => True := by
    refine hchecked.bind fun results r₁ h₁ => ?_
    have ha₁ : name ∉ r₁.state.active := by
      rw [h₁.2.1.frame.active]
      exact ha
    rw [ends_lift]
    exact (settle_frame ha₁).mono (fun _ t ht => ⟨r₁, h₁, rfl, ht⟩) fun _ _ h => h
  refine (hvisit.and hsteps).mono ?_ fun _ _ _ => trivial
  rintro ty r' ⟨⟨hsound, hframe, hname, -⟩, r₁, ⟨hr₁, hgrows, hnoted⟩, hnotes, hframe₁, hval⟩
  refine ⟨⟨hsound, fun f hf c hc => ?_⟩, hframe, ?_, fun n hn => ?_⟩
  · rw [hnotes]
    rcases hval f hf with hf | rfl
    · exact hr₁.noted f hf c (hframe₁.clausesOf f ▸ hc)
    · exact hnoted c (hframe.clausesOf f ▸ hc)
  · rw [hnotes]
    exact hgrows.kept
  · rw [hnotes] at hn
    rcases hgrows.new n hn with hn | ⟨hc, hty⟩ | hn
    · exact .inl hn
    · exact .inr (.inr ⟨name, ⟨args, ty⟩, hframe.clausesOf name ▸ hc, hname,
        hty.mono hframe₁.signatures⟩)
    · exact .inr (.inr (hn.of_frame hframe₁))

/-- **The notes taken during a call are settled after it**, at any depth. -/
theorem checkCall_settled (depth : Nat) (g : String) (args : List Ty) (span : Option Span) (r : Log)
    (hr : r.Sound) :
    Ends (checkCall depth g args span) r (fun _ r' => r'.Sound ∧ Grows [] [] r r')
      fun _ _ => True := by
  induction depth generalizing g args span r with
  | zero => trivial
  | succ depth ih =>
    have hcall : NotedCall (checkCall depth) (Check.checkCall depth) := by
      refine ⟨checkCall_erases depth, fun g args span s hs => ?_, ih⟩
      exact (checkCall_sound depth g args span s hs).mono
        (fun ty t h => ⟨h.1, h.2.1, h.2.2.1⟩) fun _ _ h => h
    unfold checkCall
    rw [ends_bind, ends_lift, ends_get]
    have hknown : ∀ sig, Ends (lift (knownResult g sig args span)) r
        (fun _ r' => r'.Sound ∧ Grows [] [] r r') fun _ _ => True := by
      intro sig
      rw [ends_lift]
      refine (checkArguments_spec.mono (fun _ _ h => h) fun _ _ _ => trivial).bind ?_
      rintro - t ⟨rfl, -⟩
      exact ⟨hr, .refl r⟩
    dsimp only
    split
    · split
      · exact hknown _
      · trivial
    split
    · split
      · exact hknown _
      · trivial
    next ha =>
    rw [ends_bind, ends_lift]
    have hargs : Ends ((r.state.signatures.lookup g).forM fun sig => checkArguments g sig args span)
        r.state (fun _ t => t = r.state ∧ ∀ sig, r.state.signatures.lookup g = some sig →
          args = sig.params) fun _ _ => True := by
      cases r.state.signatures.lookup g with
      | none => exact ⟨rfl, fun sig hsig => by cases hsig⟩
      | some sig =>
        refine checkArguments_spec.mono ?_ fun _ _ _ => trivial
        rintro - t ⟨rfl, hargs⟩
        refine ⟨rfl, fun sig' hsig' => ?_⟩
        cases hsig'
        exact hargs
    refine hargs.mono ?_ fun _ _ h => h
    rintro - t ⟨rfl, hparams⟩
    exact visit_settled hcall hr args span hparams ha

/-! ## Programs -/

/-- Between the calls of a check from outside, all notes are settled. -/
structure Settled (r : Log) : Prop where
  sound : r.Sound
  notes : ∀ n ∈ r.notes, n.Settled r.state

/-- The journal does not matter. -/
theorem Settled.journal (h : Settled r) (j : Journal) :
    Settled { r with state := { r.state with journal := j } } :=
  ⟨⟨h.sound.state, h.sound.noted⟩, h.notes⟩

/-- A call from outside leaves settled notes. -/
theorem call_settled (h : Settled r) (g : String) (args : List Ty) (span : Option Span) :
    Ends (call g args span) r (fun _ r' => Settled r') fun _ _ => True := by
  unfold call
  rw [ends_bind, ends_lift, ends_get]
  refine (checkCall_settled _ g args span r h.sound).mono ?_ fun _ _ h => h
  rintro ty r' ⟨hr', hgrows⟩
  refine ⟨hr', fun n hn => ?_⟩
  rcases hgrows.new n hn with hn | ⟨hc, -⟩ | hn
  · exact (h.notes n hn).of_frame hgrows.frame
  · cases hc
  · exact hn

/-- So does the check of the entry point. -/
theorem checkEntryPoint_settled (h : Settled r) :
    Ends checkEntryPoint r (fun _ r' => Settled r') fun _ _ => True := by
  have hspan : ∀ clauses, Ends (entrySpan r.state clauses) r.state (fun _ t => t = r.state)
      fun _ _ => True := by
    intro clauses
    unfold entrySpan
    split
    · rfl
    · rfl
    · trivial
  unfold checkEntryPoint
  rw [ends_bind, ends_lift, ends_get]
  cases r.state.functions.value? entryPoint with
  | none => trivial
  | some clauses =>
    dsimp only
    split
    · trivial
    rw [ends_bind, ends_lift]
    refine (hspan clauses).mono ?_ fun _ _ h => h
    rintro span t rfl
    refine (call_settled h entryPoint [] span).bind fun ty r₁ h₁ => ?_
    split
    · trivial
    · exact h₁

/-- So does that of a declared function. -/
theorem checkDeclared_settled (h : Settled r) (d : Decl) :
    Ends (checkDeclared d) r (fun _ r' => Settled r') fun _ _ => True := by
  unfold checkDeclared
  rw [ends_bind, ends_lift, ends_get]
  split
  · exact h
  split
  · next sig _ => exact ends_discard.2 (call_settled h d.name sig.params d.span)
  · trivial

/-- So does the check of a program. -/
theorem validate_settled (p : Program) :
    Ends (validate p) ⟨Compile.initial, []⟩ (fun _ r' => Settled r') fun _ _ => True := by
  unfold validate
  rw [ends_bind, ends_lift]
  refine (ends_bind.1 (register_spec p)).mono (fun _ s₀ h₀ => ?_) fun _ _ _ => trivial
  rw [ends_bind, ends_lift]
  refine h₀.mono ?_ fun _ _ _ => trivial
  rintro - s ⟨-, hs⟩
  have hnone : ∀ f, f ∉ s.validated := by simp [hs.validated]
  have hstart : Settled ⟨s, []⟩ :=
    ⟨⟨fun f hf => absurd hf (hnone f), fun f hf => absurd hf (hnone f)⟩, fun n hn => nomatch hn⟩
  refine (checkEntryPoint_settled hstart).bind fun ty r h => ?_
  rw [ends_bind, ends_lift, ends_record, ends_bind, ends_lift, ends_get]
  have hloop : Ends (r.state.declared.forM fun q => checkDeclared q.2)
      { r with state := { r.state with journal := r.state.journal ++ [.entryReturns ty] } }
      (fun _ r' => Settled r') fun _ _ => True :=
    Ends.forM (I := fun _ r => Settled r) (fun _ q _ _ _ h => checkDeclared_settled h q.2)
      (h.journal _)
  refine hloop.bind fun _ r' h' => ?_
  rw [ends_bind, ends_lift]
  refine reportUnused_spec.mono ?_ fun _ _ h => h
  rintro - t rfl
  exact h'.journal _

/-- **The notes of an accepted program.** The check with notes returns what the check returns, and
its notes are exactly on the parts of the clauses of functions that have a signature: each part has
a note, and each note has a type of its expression under the final signatures. -/
theorem validate_notes {p : Program} {table : SignatureTable} {s : State}
    (h : (Check.validate p).run.run Compile.initial = (.ok table, s)) :
    ∃ notes, (validate p).run.run ⟨Compile.initial, []⟩ = (.ok table, ⟨s, notes⟩) ∧
      (∀ n ∈ notes, ∃ f sig, n.clause ∈ p.clausesOf f ∧ table.lookup f = some sig ∧
        n.Typed table.lookup sig.params) ∧
      ∀ f sig, table.lookup f = some sig → ∀ c ∈ p.clausesOf f, Noted notes c c.body.parts := by
  have herases := validate_erases p ⟨Compile.initial, []⟩
  rw [h] at herases
  obtain ⟨hvalue, hstate⟩ := Prod.mk.inj herases
  obtain ⟨rfl, hchecked⟩ := (validate_checked p).of_ok h
  have hrun : (validate p).run.run ⟨Compile.initial, []⟩ = (.ok s.signatures,
      ⟨s, ((validate p).run.run ⟨Compile.initial, []⟩).2.notes⟩) := by
    rw [← hvalue, ← hstate]
    rfl
  have hsettled := (validate_settled p).of_ok hrun
  refine ⟨_, hrun, fun n hn => ?_, fun f sig hsig c hc => ?_⟩
  · obtain ⟨f, sig, hc, hsig, hty⟩ := hsettled.notes n hn
    exact ⟨f, sig, hchecked.clausesOf f ▸ hc, hsig, hty⟩
  · exact hsettled.sound.noted f (hchecked.mem_validated hsig hc) c (hchecked.clausesOf f ▸ hc)

end Traced

end Notes

end Check

end Clausal
