import Clausal.Proofs.Check.Sound
import Clausal.Proofs.Grammar.Places

/-!
# Where a check points

If all places in a program have a property, then the place that a stopped check points at has it too
(`validate_points`). A fault is found in an expression, a parameter or a clause and points there, or
it is found in a call and points at the place that was handed in for the call, which is that of the
calling expression, or of a line for the calls that the check starts with.
-/

namespace Clausal

/-- The place that a stop points at, if it has one. -/
def Stop.span? : Stop → Option Span
  | .fault f => f.span
  | _ => none

namespace Check

variable {P : Span → Prop} {functions : Assoc (List Clause)} {onCall : OnCall} {s : State}
  {args : List Ty} {span : Option Span} {α : Type}

/-- The step keeps the registered functions, and where it stops it points at a place with the
property, if at any. -/
def Points (P : Span → Prop) (functions : Assoc (List Clause)) (m : CheckM α) (s : State) : Prop :=
  Ends m s (fun _ t => t.functions = functions) fun e _ => ∀ place ∈ e.span?, P place

/-- Calls point at the place that is handed in, or at another one with the property. -/
def PointsCall (P : Span → Prop) (functions : Assoc (List Clause)) (onCall : OnCall) : Prop :=
  ∀ g args span s, s.functions = functions → (∀ place ∈ span, P place) →
    Points P functions (onCall g args span) s

/-- A fault is at one of the places if its span is. -/
theorem fail_points {cause : Cause} (h : ∀ place ∈ span, P place) :
    Points P functions (fail cause span : CheckM α) s := h

theorem forall_mem_some {place : Span} (h : P place) : ∀ place' ∈ some place, P place' := by
  rintro place' ⟨⟩
  exact h

/-! ## Expressions and clauses -/

mutual

/-- Typing an expression within the places stops at one of them. -/
theorem inferExpr_points {locals : Assoc Ty} (hcall : PointsCall P functions onCall) :
    ∀ (e : Expr), e.Within P → ∀ s, s.functions = functions →
      Points P functions (inferExpr onCall locals e) s
  | .lit value span, _, s, hs => hs
  | .call g args span, h, s, hs => by
    rw [inferExpr]
    refine (inferArgs_points hcall args h.2 s hs).bind fun types t ht => ?_
    split
    · split
      · exact ht
      · exact fail_points (forall_mem_some h.1)
    · rw [ends_bind, ends_get]
      split
      · exact hcall g types span t ht (forall_mem_some h.1)
      · exact fail_points (forall_mem_some h.1)
  | .binary left op right span, h, s, hs => by
    rw [inferExpr]
    refine (inferExpr_points hcall left h.2.1 s hs).bind fun leftType t ht => ?_
    refine (inferExpr_points hcall right h.2.2 t ht).bind fun rightType u hu => ?_
    unfold operatorType
    split
    · exact fail_points (forall_mem_some h.1)
    split
    · exact hu
    split
    · exact fail_points (forall_mem_some h.1)
    · exact hu
  | .cond test yes no span, h, s, hs => by
    rw [inferExpr]
    refine (inferExpr_points hcall test h.2.1 s hs).bind fun testType t ht => ?_
    split
    · exact fail_points (forall_mem_some h.2.1.span)
    refine (inferExpr_points hcall yes h.2.2.1 t ht).bind fun yesType u hu => ?_
    refine (inferExpr_points hcall no h.2.2.2 u hu).bind fun noType v hv => ?_
    split
    · exact fail_points (forall_mem_some h.2.2.2.span)
    · exact hv

/-- So does typing arguments. -/
theorem inferArgs_points {locals : Assoc Ty} (hcall : PointsCall P functions onCall) :
    ∀ (es : List Expr), Expr.WithinAll P es → ∀ s, s.functions = functions →
      Points P functions (inferArgs onCall locals es) s
  | [], _, s, hs => hs
  | e :: es, h, s, hs => by
    rw [inferArgs]
    refine (inferExpr_points hcall e h.1 s hs).bind fun ty t ht => ?_
    exact (inferArgs_points hcall es h.2 t ht).bind fun types u hu => hu

end

/-- A literal parameter that does not fit is pointed at. -/
theorem span_of_literalMismatch? : ∀ {ps : List Pattern} {types : List Ty} {f : Fault},
    literalMismatch? ps types = some f → ∃ q ∈ ps, f.span = some q.span
  | [], _, _, h => by cases h
  | .name .. :: _, [], _, h => by cases h
  | .lit .. :: _, [], _, h => by cases h
  | .name .. :: ps, _ :: types, f, h => by
    rw [literalMismatch?] at h
    obtain ⟨q, hq, hspan⟩ := span_of_literalMismatch? h
    exact ⟨q, List.mem_cons_of_mem _ hq, hspan⟩
  | .lit value span :: ps, ty :: types, f, h => by
    rw [literalMismatch?] at h
    split at h
    · cases h
      exact ⟨_, List.mem_cons_self, rfl⟩
    · obtain ⟨q, hq, hspan⟩ := span_of_literalMismatch? h
      exact ⟨q, List.mem_cons_of_mem _ hq, hspan⟩

/-- So does checking a clause. -/
theorem checkClause_points {c : Clause} (hcall : PointsCall P functions onCall) (hc : c.Within P)
    (hs : s.functions = functions) : Points P functions (checkClause onCall c args) s := by
  unfold checkClause Points
  rw [ends_bind, ends_record]
  split
  · exact fail_points (forall_mem_some hc.span)
  split
  · next f hf =>
    obtain ⟨q, hq, hspan⟩ := span_of_literalMismatch? hf
    show ∀ place ∈ f.span, P place
    rw [hspan]
    exact forall_mem_some (hc.params q hq)
  · exact inferExpr_points hcall c.body hc.body _ hs

/-- Clauses are checked one after the other, and each has a result. -/
theorem checkClauses_points {clauses : List Clause} (hcall : PointsCall P functions onCall)
    (hclauses : ∀ c ∈ clauses, c.Within P) (hs : s.functions = functions) :
    Ends (checkClauses onCall args clauses) s
      (fun results t => results.map (·.1) = clauses ∧ t.functions = functions)
      fun e _ => ∀ place ∈ e.span?, P place := by
  induction clauses generalizing s with
  | nil => exact ⟨rfl, hs⟩
  | cons c clauses ih =>
    obtain ⟨hc, hclauses⟩ := List.forall_mem_cons.1 hclauses
    rw [checkClauses]
    refine (checkClause_points hcall hc hs).bind fun ty t ht => ?_
    refine (ih hclauses ht).bind ?_
    rintro results u ⟨hresults, hu⟩
    exact ⟨congrArg (c :: ·) hresults, hu⟩

/-! ## Calls -/

/-- So does settling a function. -/
theorem settle_points {name : String} {known : Option Signature} {results : List (Clause × Ty)}
    (hresults : ∀ r ∈ results, P r.1.span) (hspan : ∀ place ∈ span, P place)
    (hs : s.functions = functions) :
    Points P functions (settle name known args span results) s := by
  cases results with
  | nil =>
    cases known with
    | none => exact fail_points hspan
    | some sig => exact hs
  | cons r rest =>
    obtain ⟨c, ty⟩ := r
    rw [settle]
    split
    · next other got hfind =>
      exact fail_points (forall_mem_some
        (hresults _ (List.mem_cons_of_mem _ (List.mem_of_find?_eq_some hfind))))
    cases known with
    | none =>
      dsimp only
      unfold Points
      rw [ends_bind]
      refine define_spec.mono ?_ ?_
      · rintro - t ⟨-, rfl⟩
        exact hs
      · rintro e t ⟨-, rfl, -⟩ place hplace
        cases hplace
    | some sig =>
      dsimp only
      split
      · exact fail_points (forall_mem_some (hresults _ List.mem_cons_self))
      · exact hs

/-- So does checking arguments. -/
theorem checkArguments_points {name : String} {sig : Signature} (hspan : ∀ place ∈ span, P place)
    (hs : s.functions = functions) :
    Points P functions (checkArguments name sig args span) s := by
  unfold checkArguments
  split
  · exact fail_points hspan
  split
  · exact fail_points hspan
  · exact hs

/-- So does a visit of a function. -/
theorem visit_points {name : String} {known : Option Signature} {clauses : List Clause}
    (hcall : PointsCall P functions onCall) (hclauses : ∀ c ∈ clauses, c.Within P)
    (hspan : ∀ place ∈ span, P place) (hs : s.functions = functions) :
    Points P functions (visit onCall name known args span clauses) s := by
  have hchecked : Ends (withActive name (checkClauses onCall args clauses)) s
      (fun results t => results.map (·.1) = clauses ∧ t.functions = functions)
      fun e _ => ∀ place ∈ e.span?, P place :=
    ends_withActive.2 (checkClauses_points hcall hclauses hs)
  refine hchecked.bind ?_
  rintro results t ⟨hresults, ht⟩
  refine settle_points (fun r hr => ?_) hspan ht
  have hc : r.1 ∈ clauses := hresults ▸ List.mem_map.2 ⟨r, hr, rfl⟩
  exact (hclauses r.1 hc).span

/-- **A call points at a place with the property**, at any depth. -/
theorem checkCall_points
    (hfunctions : ∀ f clauses, functions.value? f = some clauses → ∀ c ∈ clauses, c.Within P)
    (depth : Nat) : PointsCall P functions (checkCall depth) := by
  induction depth with
  | zero => exact fun g args span s _ hspan => fail_points hspan
  | succ depth ih =>
    intro g args span s hs hspan
    have hclauses : ∀ c ∈ (s.functions.value? g).getD [], c.Within P := by
      intro c hc
      rw [hs] at hc
      cases hv : functions.value? g with
      | none => rw [hv] at hc; cases hc
      | some clauses => rw [hv] at hc; exact hfunctions g clauses hv c hc
    have hknown : ∀ sig, Points P functions (knownResult g sig args span) s :=
      fun sig => (checkArguments_points hspan hs).bind fun _ t ht => ht
    rw [checkCall_succ, follow]
    unfold Points
    rw [ends_bind, ends_get]
    dsimp only
    split
    · split
      · exact hknown _
      · rintro place ⟨⟩
    split
    · split
      · exact hknown _
      · exact fail_points hspan
    cases s.signatures.lookup g with
    | some sig =>
      exact (checkArguments_points hspan hs).bind fun _ t ht => visit_points ih hclauses hspan ht
    | none => exact visit_points ih hclauses hspan hs

/-! ## Programs -/

/-- **The check of a program points into the program**: where it stops, the place that it points at
has the property, if all places in the program have it. -/
theorem validate_points {p : Program} (hp : ∀ l ∈ p.lines, l.Within P) :
    Ends (validate p) Compile.initial (fun _ _ => True) fun e _ => ∀ place ∈ e.span?, P place := by
  have hcalls : ∀ {s t : State}, Entered p.decls p.clauses s → Frame Any s t → ∀ g args span,
      (∀ place ∈ span, P place) → Ends (call g args span) t (fun _ u => Frame Any s u)
        fun e _ => ∀ place ∈ e.span?, P place := by
    intro s t hs hst g args span hspan
    have hfunctions : ∀ f clauses, s.functions.value? f = some clauses →
        ∀ c ∈ clauses, c.Within P := by
      intro f clauses hf c hc
      have hc' : c ∈ s.clausesOf f := by
        unfold State.clausesOf
        rw [hf]
        exact hc
      rw [hs.clausesOf] at hc'
      exact hp _ (Program.mem_clauses.1 (Program.mem_clausesOf.1 hc').1)
    have hkeeps := checkCall_keeps (closed_any t.functions) (t.functions.length + 1) g trivial args
      span t rfl
    have hpoints := checkCall_points hfunctions (t.functions.length + 1) g args span t hst.functions
      hspan
    rw [ends_call]
    exact (hkeeps.and hpoints).mono (fun _ u h => hst.trans h.1) fun _ _ h => h.2
  refine validate_run (R := fun _ => True)
    (I := fun _ t => ∃ s, Entered p.decls p.clauses s ∧ Frame Any s t) ?_ (fun _ _ _ _ => ?_)
    (fun s hs _ l hl _ => ?_) (fun done d rest t hd ht _ => ?_) (fun _ _ _ _ _ ht _ => ht)
    (fun t ht => ?_) fun _ _ => trivial
  · refine (register_spec p).mono (fun _ _ h => ⟨h.2, trivial⟩) ?_
    rintro e t ⟨-, l, hl, rfl⟩
    exact forall_mem_some (hp l hl).span
  · rintro place ⟨⟩
  · refine (hcalls hs (Frame.refl s) entryPoint [] l.span (forall_mem_some (hp l hl).span)).mono ?_
      fun _ _ h => h
    exact fun ty t hst => ⟨fun _ => ⟨s, hs, hst.trans (Frame.journal t _)⟩,
      fun _ => forall_mem_some (hp l hl).span⟩
  · obtain ⟨s, hs, hst⟩ := ht
    have hmem : d ∈ p.decls := by
      rw [hd]
      simp
    have hspan : P d.span := hp _ (Program.mem_decls.1 hmem)
    exact (hcalls hs hst d.name d.signature.params d.span (forall_mem_some hspan)).mono
      (fun _ u hu => ⟨s, hs, hu⟩) fun _ _ h => h
  · obtain ⟨s, hs, hst⟩ := ht
    exact hst.declared.trans hs.declared

end Check

end Clausal
