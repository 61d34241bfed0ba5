import Clausal.Proofs.Outcome
import Clausal.Proofs.Typing

/-!
# Steps of a check

What the steps of a check do, one rule for each of them, and what no check ever changes. The rules
`settle_run` and `checkCall_run` say everything that the step can do, with the conditions under
which it does so and the faults it stops with; `settle_ends` and `checkCall_ends` are the same rules
where it does not matter which fault it is. Later proofs use them and do not open the step again.

A traversal of expressions and clauses does nothing to the state but by the calls in them and by
noting that a clause is checked, so what calls and notes keep is kept (`inferExpr_traverses`,
`checkClauses_traverses`), and it stops with a refusal of its own or as one of the calls does.

`Frame` is what every check keeps, whether it returns or stops: the program stays registered as it
was, the active functions are again those it started with, and signatures are only added, each of
them for a function that was not active and is validated afterwards (`checkCall_keeps`). The
functions that get one are bounded by any property `P` that is closed under calls (`Closed`), which
is what ties the signature table to reachability.
-/

namespace Clausal.Check

variable {α β : Type} {s t u : State} {name : String} {args : List Ty} {span : Option Span}
  {sig : Signature}

/-! ## Single steps -/

section Rules
variable {Q : α → State → Prop} {E : Stop → State → Prop}

/-- An event is added at the end of the journal. -/
theorem ends_record {e : Event} {Q : PUnit → State → Prop} :
    Ends (record e) s Q E ↔ Q ⟨⟩ { s with journal := s.journal ++ [e] } := Iff.rfl

/-- A step under an active function runs with that function on top, which is taken away again
however the step ends. -/
theorem ends_withActive {m : CheckM α} :
    Ends (withActive name m) s Q E ↔
      Ends m { s with active := name :: s.active }
        (fun a t => Q a { t with active := t.active.tail })
        (fun e t => E e { t with active := t.active.tail }) := by
  have hrun : (withActive name m).run.run s =
      ((m.run.run { s with active := name :: s.active }).1,
        { (m.run.run { s with active := name :: s.active }).2 with
          active := (m.run.run { s with active := name :: s.active }).2.active.tail }) := rfl
  unfold Ends
  rw [hrun]
  rcases m.run.run { s with active := name :: s.active } with ⟨_ | a, t⟩ <;> rfl

end Rules

/-- The faults with which a step refuses what a program does: a type or a number of arguments that
does not fit, a function that does not exist, or one whose type is asked for while it is found. -/
inductive Refusal : Stop → Prop where
  | typeMismatch {expected got : Ty} {span : Option Span} :
    Refusal (.fault ⟨.typeMismatch expected got, span⟩)
  | badOperand {op : Op} {ty : Ty} {span : Option Span} : Refusal (.fault ⟨.badOperand op ty, span⟩)
  | badArity {name : String} {expected actual : Int} {span : Option Span} :
    Refusal (.fault ⟨.badArity name expected actual, span⟩)
  | notFound {name : String} {span : Option Span} : Refusal (.fault ⟨.notFound name, span⟩)
  | untyped {name : String} {span : Option Span} : Refusal (.fault ⟨.untyped name, span⟩)

/-- A refusal that does not need a call: any but that of a recursive function. -/
def Plain (e : Stop) : Prop :=
  Refusal e ∧ ∀ name span, e ≠ .fault ⟨.untyped name, span⟩

namespace Plain

theorem typeMismatch {expected got : Ty} : Plain (.fault ⟨.typeMismatch expected got, span⟩) :=
  ⟨.typeMismatch, fun _ _ h => by cases h⟩

theorem badOperand {op : Op} {ty : Ty} : Plain (.fault ⟨.badOperand op ty, span⟩) :=
  ⟨.badOperand, fun _ _ h => by cases h⟩

theorem badArity {expected actual : Int} : Plain (.fault ⟨.badArity name expected actual, span⟩) :=
  ⟨.badArity, fun _ _ h => by cases h⟩

theorem notFound : Plain (.fault ⟨.notFound name, span⟩) :=
  ⟨.notFound, fun _ _ h => by cases h⟩

end Plain

/-- Equal lists of types are those of one length without a differing pair. -/
theorem eq_of_find?_zip_eq_none : ∀ {as bs : List Ty}, as.length = bs.length →
    ((as.zip bs).find? fun p => p.1 ≠ p.2) = none → as = bs
  | [], [], _, _ => rfl
  | a :: as, b :: bs, hlen, h => by
    rw [List.zip_cons_cons, List.find?_eq_none] at h
    have hab : a = b := by simpa using h (a, b) List.mem_cons_self
    have hrest : as = bs := eq_of_find?_zip_eq_none (Nat.succ.inj hlen)
      (List.find?_eq_none.2 fun p hp => h p (List.mem_cons_of_mem _ hp))
    rw [hab, hrest]

/-- A list of types does not differ from itself. -/
theorem find?_zip_self (as : List Ty) : ((as.zip as).find? fun p => p.1 ≠ p.2) = none := by
  induction as with
  | nil => rfl
  | cons a as ih => simpa using ih

/-- Arguments fit a signature exactly if their types are its parameter types; the state is left as
it is. -/
theorem checkArguments_spec :
    Ends (checkArguments name sig args span) s (fun _ t => t = s ∧ args = sig.params)
      (fun e t => t = s ∧ args ≠ sig.params ∧ Plain e) := by
  unfold checkArguments
  split
  · next hlen => exact ⟨rfl, fun h => hlen (by rw [h]), .badArity⟩
  · next hlen =>
    have hlen : sig.params.length = args.length := Classical.not_not.1 hlen
    split
    · next expected got hfind =>
      refine ⟨rfl, fun h => ?_, .typeMismatch⟩
      rw [h, find?_zip_self] at hfind
      cases hfind
    · next hfind => exact ⟨rfl, (eq_of_find?_zip_eq_none hlen hfind).symm⟩

/-- A signature at the end of a table is found unless the name has one already. -/
theorem lookup_append_new {table : SignatureTable} (h : table.lookup name = none) (f : String) :
    SignatureTable.lookup (table ++ [(name, sig)]) f =
      if name = f then some sig else table.lookup f := by
  refine SignatureTable.lookup_define? ?_ f
  unfold SignatureTable.define? Assoc.has
  rw [show Assoc.value? table name = none from h]
  rfl

/-- A function is given a signature exactly if it has none. -/
theorem define_spec :
    Ends (define name sig span) s
      (fun _ t => s.signatures.lookup name = none ∧
        t = { s with signatures := s.signatures ++ [(name, sig)] })
      (fun e t => t = s ∧ e = .fault ⟨.alreadyDefined name, span⟩ ∧
        ∃ sig', s.signatures.lookup name = some sig') := by
  unfold define
  rw [ends_bind, ends_get]
  split
  · next table hdef =>
    unfold SignatureTable.define? at hdef
    split at hdef
    · cases hdef
    · next hnone =>
      cases hdef
      exact ⟨by simpa [SignatureTable.lookup, Assoc.has] using hnone, rfl⟩
  · next hdef => exact ⟨rfl, rfl, SignatureTable.define?_eq_none_iff.1 hdef⟩

/-! ## Settling a function -/

/-- The clauses of a function agree on a type. -/
def Agree (results : List (Clause × Ty)) (ty : Ty) : Prop :=
  results ≠ [] ∧ ∀ r ∈ results, r.2 = ty

/-- The types of the clauses of a function settle its type, given the signature that is known. -/
def Settles (s : State) (name : String) (known : Option Signature) (results : List (Clause × Ty))
    (ty : Ty) : Prop :=
  match known with
  | none => Agree results ty ∧ s.signatures.lookup name = none
  | some sig => ty = sig.result ∧ (results = [] ∨ Agree results ty)

/-- The state in which a function counts as checked. -/
def State.mark (s : State) (name : String) : State :=
  { s with validated := if name ∈ s.validated then s.validated else s.validated ++ [name] }

/-- The state in which a function has been given the signature that its clauses agree on. -/
def State.infer (s : State) (name : String) (sig : Signature) : State :=
  State.mark { s with signatures := s.signatures ++ [(name, sig)]
                      journal := s.journal ++ [.inferred name sig] } name

/-- Marking a function validates it and no other one. -/
theorem State.mem_validated_mark_iff {s : State} {name f : String} :
    f ∈ (s.mark name).validated ↔ f ∈ s.validated ∨ f = name := by
  unfold State.mark
  by_cases h : name ∈ s.validated
  · simp only [h, if_true]
    exact ⟨.inl, fun hf => hf.elim id fun hf => hf ▸ h⟩
  · simp [h]

/-- An inferred signature is that of its function, and the others stay. -/
theorem State.lookup_infer {s : State} {name : String} {sig : Signature}
    (h : s.signatures.lookup name = none) (f : String) :
    (s.infer name sig).signatures.lookup f =
      if name = f then some sig else s.signatures.lookup f :=
  lookup_append_new h f

/-- Every validated function has a signature. -/
def Signed (s : State) : Prop :=
  ∀ f ∈ s.validated, ∃ sig, s.signatures.lookup f = some sig

/-- A function with a signature may be marked. -/
theorem Signed.mark {s : State} {name : String} {sig : Signature} (h : Signed s)
    (hsig : s.signatures.lookup name = some sig) : Signed (s.mark name) := by
  intro f hf
  rcases State.mem_validated_mark_iff.1 hf with hf | rfl
  · exact h f hf
  · exact ⟨sig, hsig⟩

/-- A function that gets its signature may be marked with it. -/
theorem Signed.infer {s : State} {name : String} {sig : Signature} (h : Signed s)
    (hnone : s.signatures.lookup name = none) : Signed (s.infer name sig) := by
  intro f hf
  rw [State.lookup_infer hnone]
  split
  · exact ⟨sig, rfl⟩
  · next hne =>
    exact h f ((State.mem_validated_mark_iff.1 hf).resolve_right fun heq => hne heq.symm)

/-- All that settling a function can do. -/
theorem settle_run {known : Option Signature} {results : List (Clause × Ty)}
    {Q : Ty → State → Prop} {E : Stop → State → Prop}
    (hempty : ∀ sig, results = [] → known = some sig → Q sig.result s)
    (hnew : ∀ ty, Agree results ty → known = none → s.signatures.lookup name = none →
      Q ty (s.infer name ⟨args, ty⟩))
    (hold : ∀ sig, Agree results sig.result → known = some sig → Q sig.result (s.mark name))
    (hnoClause : results = [] → known = none → E (.fault ⟨.noClause name, span⟩) s)
    (hdefined : ∀ sig, known = none → s.signatures.lookup name = some sig →
      E (.fault ⟨.alreadyDefined name, none⟩) s)
    (hfault : (∀ ty, ¬ Settles s name known results ty) → ∀ e, Plain e → E e s) :
    Ends (settle name known args span results) s Q E := by
  match results with
  | [] =>
    cases known with
    | none => exact hnoClause rfl rfl
    | some sig => exact hempty sig rfl rfl
  | (c, ty) :: rest =>
    have hty : ∀ ty', Agree ((c, ty) :: rest) ty' → ty = ty' :=
      fun ty' h => h.2 _ List.mem_cons_self
    rw [settle]
    split
    · next other got hfind =>
      -- two clauses disagree, so no type settles the function
      have hne : got ≠ ty := by simpa using List.find?_some hfind
      have hmem := List.mem_cons_of_mem (c, ty) (List.mem_of_find?_eq_some hfind)
      have hno : ∀ ty', ¬ Agree ((c, ty) :: rest) ty' := fun ty' h =>
        hne ((h.2 _ hmem).trans (hty ty' h).symm)
      refine hfault (fun ty' h => ?_) _ .typeMismatch
      cases known with
      | none => exact hno ty' h.1
      | some sig => exact h.2.elim (fun h => nomatch h) (hno ty')
    · next hfind =>
      have hagree : Agree ((c, ty) :: rest) ty := by
        refine ⟨nofun, fun r hr => ?_⟩
        rcases List.mem_cons.1 hr with rfl | hr
        · rfl
        · simpa using List.find?_eq_none.1 hfind r hr
      dsimp only
      cases known with
      | none =>
        dsimp only
        rw [ends_bind]
        refine define_spec.mono ?_ ?_
        · rintro - t ⟨hnone, rfl⟩
          exact hnew ty hagree rfl hnone
        · rintro e t ⟨rfl, rfl, sig', hl⟩
          exact hdefined sig' rfl hl
      | some sig =>
        dsimp only
        split
        · next hne =>
          refine hfault (fun ty' h => ?_) _ .typeMismatch
          exact h.2.elim (fun h => nomatch h) fun h' => hne (h.1.symm.trans (hty ty' h').symm)
        · next heq =>
          have heq : sig.result = ty := Classical.not_not.1 heq
          subst heq
          exact hold sig hagree rfl

/-- Settling a function, where all faults count alike. -/
theorem settle_ends {known : Option Signature} {results : List (Clause × Ty)}
    {Q : Ty → State → Prop} {E : Stop → State → Prop}
    (hempty : ∀ sig, results = [] → known = some sig → Q sig.result s)
    (hnew : ∀ ty, Agree results ty → known = none → s.signatures.lookup name = none →
      Q ty (s.infer name ⟨args, ty⟩))
    (hold : ∀ sig, Agree results sig.result → known = some sig → Q sig.result (s.mark name))
    (hfault : (∀ ty, ¬ Settles s name known results ty) → ∀ e, E e s) :
    Ends (settle name known args span results) s Q E := by
  refine settle_run hempty hnew hold (fun hnil hknown => ?_) (fun sig hknown hl => ?_)
    fun hno e _ => hfault hno e
  · subst hnil hknown
    exact hfault (fun ty h => h.1.1 rfl) _
  · subst hknown
    exact hfault (fun ty h => nomatch hl.symm.trans h.2) _

/-! ## Calls -/

/-- Checks the clauses of a function while it is active, and settles it. -/
def visit (onCall : OnCall) (name : String) (known : Option Signature) (args : List Ty)
    (span : Option Span) (clauses : List Clause) : CheckM Ty := do
  let results ← withActive name (checkClauses onCall args clauses)
  settle name known args span results

/-- The clauses of a function as they are registered. -/
def State.clausesOf (s : State) (name : String) : List Clause :=
  (s.functions.value? name).getD []

/-- Checks a call, where the calls in the clauses of its function are checked by another step. -/
def follow (onCall : OnCall) : OnCall := fun name args span => do
  let s ← get
  let known := s.signatures.lookup name
  if name ∈ s.validated then
    match known with
    | some sig => knownResult name sig args span
    | none => throw (.noSignature name)
  else if name ∈ s.active then
    match known with
    | some sig => knownResult name sig args span
    | none => fail (.untyped name) span
  else
    known.forM fun sig => checkArguments name sig args span
    visit onCall name known args span (s.clausesOf name)

/-- Checking a call with depth left is to follow it. -/
theorem checkCall_succ (depth : Nat) : checkCall (depth + 1) = follow (checkCall depth) :=
  rfl

/-- All that checking a call can do while there is depth left: refuse the arguments, find the
function checked or being checked, with or without a signature, or visit it. -/
theorem checkCall_run {depth : Nat} {Q : Ty → State → Prop} {E : Stop → State → Prop}
    (hargs : ∀ sig, s.signatures.lookup name = some sig → args ≠ sig.params →
      ∀ e, Plain e → E e s)
    (hknown : ∀ sig, s.signatures.lookup name = some sig → args = sig.params →
      name ∈ s.validated ∨ name ∈ s.active → Q sig.result s)
    (hlost : s.signatures.lookup name = none → name ∈ s.validated → E (.noSignature name) s)
    (huntyped : s.signatures.lookup name = none → name ∈ s.active →
      E (.fault ⟨.untyped name, span⟩) s)
    (hvisit : (∀ sig, s.signatures.lookup name = some sig → args = sig.params) →
      name ∉ s.validated → name ∉ s.active →
      Ends (visit (checkCall depth) name (s.signatures.lookup name) args span (s.clausesOf name))
        s Q E) :
    Ends (checkCall (depth + 1) name args span) s Q E := by
  have hchecked : ∀ sig, s.signatures.lookup name = some sig →
      Ends (checkArguments name sig args span) s (fun _ t => t = s ∧ args = sig.params) E := by
    intro sig hl
    refine checkArguments_spec.mono (fun _ _ h => h) ?_
    rintro e t ⟨rfl, hne, he⟩
    exact hargs sig hl hne e he
  have hresult : ∀ sig, s.signatures.lookup name = some sig →
      name ∈ s.validated ∨ name ∈ s.active → Ends (knownResult name sig args span) s Q E := by
    intro sig hl hin
    refine (hchecked sig hl).bind ?_
    rintro - t ⟨rfl, heq⟩
    exact hknown sig hl heq hin
  rw [checkCall_succ, follow, ends_bind, ends_get]
  dsimp only
  split
  · next hv =>
    cases hl : s.signatures.lookup name with
    | some sig => exact hresult sig hl (.inl hv)
    | none => exact hlost hl hv
  next hv =>
  split
  · next ha =>
    cases hl : s.signatures.lookup name with
    | some sig => exact hresult sig hl (.inr ha)
    | none => exact huntyped hl ha
  next ha =>
  cases hl : s.signatures.lookup name with
  | some sig =>
    refine (hchecked sig hl).bind ?_
    rintro - t ⟨rfl, heq⟩
    rw [hl] at hvisit
    exact hvisit (fun sig' hs => Option.some.inj hs ▸ heq) hv ha
  | none =>
    rw [hl] at hvisit
    exact hvisit nofun hv ha

/-- Checking a call, where all ways to refuse the arguments count alike. -/
theorem checkCall_ends {depth : Nat} {Q : Ty → State → Prop} {E : Stop → State → Prop}
    (hargs : ∀ sig, s.signatures.lookup name = some sig → args ≠ sig.params → ∀ e, E e s)
    (hknown : ∀ sig, s.signatures.lookup name = some sig → args = sig.params →
      name ∈ s.validated ∨ name ∈ s.active → Q sig.result s)
    (hlost : s.signatures.lookup name = none → name ∈ s.validated → E (.noSignature name) s)
    (huntyped : s.signatures.lookup name = none → name ∈ s.active →
      E (.fault ⟨.untyped name, span⟩) s)
    (hvisit : (∀ sig, s.signatures.lookup name = some sig → args = sig.params) →
      name ∉ s.validated → name ∉ s.active →
      Ends (visit (checkCall depth) name (s.signatures.lookup name) args span (s.clausesOf name))
        s Q E) :
    Ends (checkCall (depth + 1) name args span) s Q E :=
  checkCall_run (fun sig hl hne e _ => hargs sig hl hne e) hknown hlost huntyped hvisit

/-- A call from outside may go as deep as there are functions. -/
theorem ends_call {Q : Ty → State → Prop} {E : Stop → State → Prop} :
    Ends (call name args span) s Q E ↔
      Ends (checkCall (s.functions.length + 1) name args span) s Q E := by
  unfold call
  rw [ends_bind, ends_get]

/-! ## Traversals -/

/-- A literal parameter that does not fit is a mismatch of types. -/
theorem plain_of_literalMismatch? : ∀ {ps : List Pattern} {types : List Ty} {f : Fault},
    literalMismatch? ps types = some f → Plain (.fault f)
  | [], _, _, h => by cases h
  | .name .. :: _, [], _, h => by cases h
  | .lit .. :: _, [], _, h => by cases h
  | .name .. :: ps, _ :: types, f, h => by
    rw [literalMismatch?] at h
    exact plain_of_literalMismatch? h
  | .lit value span :: ps, ty :: types, f, h => by
    rw [literalMismatch?] at h
    split at h
    · cases h
      exact .typeMismatch
    · exact plain_of_literalMismatch? h

section Traversal
variable {I : State → Prop} {E : Stop → State → Prop} {onCall : OnCall}

/-- Calls of a registered function keep `I`, and stop with `E` only. -/
def Steady (I : State → Prop) (E : Stop → State → Prop) (onCall : OnCall) (g : String) : Prop :=
  ∀ args span s, I s → s.functions.has g = true →
    Ends (onCall g args span) s (fun _ t => I t) E

mutual

/-- Typing an expression keeps what the calls in it keep. -/
theorem inferExpr_traverses {locals : Assoc Ty} (hplain : ∀ e s, Plain e → I s → E e s) :
    ∀ (e : Expr), (∀ g ∈ e.heads, locals.value? g = none → Steady I E onCall g) →
      ∀ s, I s → Ends (inferExpr onCall locals e) s (fun _ t => I t) E
  | .lit .., _, _, hs => hs
  | .call g args span, hcall, s, hs => by
    rw [Expr.heads] at hcall
    rw [inferExpr]
    refine (inferArgs_traverses hplain args (fun g hg => hcall g (List.mem_cons_of_mem _ hg)) s
      hs).bind fun types t ht => ?_
    split
    · split
      · exact ht
      · exact hplain _ t .badArity ht
    · next hnone =>
      rw [ends_bind, ends_get]
      split
      · next hhas => exact hcall g List.mem_cons_self hnone types span t ht hhas
      · exact hplain _ t .notFound ht
  | .binary left op right span, hcall, s, hs => by
    rw [Expr.heads] at hcall
    rw [inferExpr]
    refine (inferExpr_traverses hplain left (fun g hg => hcall g (List.mem_append_left _ hg)) s
      hs).bind fun leftType t ht => ?_
    refine (inferExpr_traverses hplain right (fun g hg => hcall g (List.mem_append_right _ hg)) t
      ht).bind fun rightType u hu => ?_
    unfold operatorType
    split
    · exact hplain _ u .typeMismatch hu
    split
    · exact hu
    split
    · exact hplain _ u .badOperand hu
    · exact hu
  | .cond test yes no _, hcall, s, hs => by
    rw [Expr.heads] at hcall
    have hrest := fun g hg => hcall g (List.mem_append_right _ hg)
    rw [inferExpr]
    refine (inferExpr_traverses hplain test (fun g hg => hcall g (List.mem_append_left _ hg)) s
      hs).bind fun testType t ht => ?_
    split
    · exact hplain _ t .typeMismatch ht
    refine (inferExpr_traverses hplain yes (fun g hg => hrest g (List.mem_append_left _ hg)) t
      ht).bind fun yesType u hu => ?_
    refine (inferExpr_traverses hplain no (fun g hg => hrest g (List.mem_append_right _ hg)) u
      hu).bind fun noType v hv => ?_
    split
    · exact hplain _ v .typeMismatch hv
    · exact hv

/-- Typing arguments keeps what the calls in them keep. -/
theorem inferArgs_traverses {locals : Assoc Ty} (hplain : ∀ e s, Plain e → I s → E e s) :
    ∀ (es : List Expr), (∀ g ∈ headsOf es, locals.value? g = none → Steady I E onCall g) →
      ∀ s, I s → Ends (inferArgs onCall locals es) s (fun _ t => I t) E
  | [], _, _, hs => hs
  | e :: es, hcall, s, hs => by
    rw [headsOf] at hcall
    rw [inferArgs]
    refine (inferExpr_traverses hplain e (fun g hg => hcall g (List.mem_append_left _ hg)) s
      hs).bind fun ty t ht => ?_
    exact (inferArgs_traverses hplain es (fun g hg => hcall g (List.mem_append_right _ hg)) t
      ht).bind fun types u hu => hu

end

/-- Checking a clause keeps what its calls and the note on it keep. -/
theorem checkClause_traverses {c : Clause} (hplain : ∀ e s, Plain e → I s → E e s)
    (hnote : ∀ s, I s → I { s with journal := s.journal ++ [.checking c] })
    (hcall : ∀ g ∈ c.callees, Steady I E onCall g) (hs : I s) :
    Ends (checkClause onCall c args) s (fun _ t => I t) E := by
  unfold checkClause
  rw [ends_bind, ends_record]
  have ht := hnote s hs
  split
  · exact hplain _ _ .badArity ht
  · next hlen =>
    have hlen : c.params.length = args.length := Classical.not_not.1 hlen
    split
    · next f hlit => exact hplain _ _ (plain_of_literalMismatch? hlit) ht
    · refine inferExpr_traverses hplain c.body (fun g hg hnone => hcall g ?_) _ ht
      rw [Pattern.value?_ofPairs_bindings (Nat.le_of_eq hlen),
        Pattern.argument?_eq_none_iff (Nat.le_of_eq hlen)] at hnone
      exact Clause.mem_callees.2 ⟨hg, hnone⟩

/-- Checking clauses keeps what their calls and the notes on them keep, and gives one result for
each of them. -/
theorem checkClauses_traverses {clauses : List Clause} (hplain : ∀ e s, Plain e → I s → E e s)
    (hnote : ∀ s c, I s → I { s with journal := s.journal ++ [.checking c] })
    (hcall : ∀ c ∈ clauses, ∀ g ∈ c.callees, Steady I E onCall g) (hs : I s) :
    Ends (checkClauses onCall args clauses) s
      (fun results t => results.map (·.1) = clauses ∧ I t) E := by
  induction clauses generalizing s with
  | nil => exact ⟨rfl, hs⟩
  | cons c clauses ih =>
    rw [checkClauses]
    refine (checkClause_traverses hplain (fun s => hnote s c) (hcall c List.mem_cons_self)
      hs).bind fun ty t ht => ?_
    refine (ih (fun c' hc' => hcall c' (List.mem_cons_of_mem _ hc')) ht).bind ?_
    rintro results u ⟨hresults, hu⟩
    exact ⟨congrArg (c :: ·) hresults, hu⟩

end Traversal

/-! ## What every check keeps -/

/-- What a check keeps of the state it started in. A function that got a signature on the way has
`P`, was not active, and is validated. -/
structure Frame (P : String → Prop) (s t : State) : Prop where
  builtins : t.builtins = s.builtins
  functions : t.functions = s.functions
  declared : t.declared = s.declared
  active : t.active = s.active
  signatures : Extends s.signatures.lookup t.signatures.lookup
  validated : ∀ f ∈ s.validated, f ∈ t.validated
  fresh : ∀ f sig, t.signatures.lookup f = some sig →
    s.signatures.lookup f = some sig ∨ P f ∧ f ∉ s.active ∧ f ∈ t.validated

/-- A property of functions is closed under the calls in registered clauses. -/
def Closed (P : String → Prop) (functions : Assoc (List Clause)) : Prop :=
  ∀ f clauses, P f → functions.value? f = some clauses → ∀ c ∈ clauses, ∀ g ∈ c.callees, P g

section Frame
variable {P : String → Prop}

/-- A closed property passes from a function to what its clauses call. -/
theorem Closed.of_mem_callees {f g : String} {c : Clause} (h : Closed P s.functions) (hf : P f)
    (hc : c ∈ s.clausesOf f) (hg : g ∈ c.callees) : P g := by
  unfold State.clausesOf at hc
  cases hv : s.functions.value? f with
  | none => rw [hv] at hc; cases hc
  | some clauses => rw [hv] at hc; exact h f clauses hf hv c hc g hg

theorem Frame.refl (s : State) : Frame P s s :=
  ⟨rfl, rfl, rfl, rfl, Extends.refl _, fun _ h => h, fun _ _ h => .inl h⟩

/-- What two checks keep, both keep one after the other. -/
theorem Frame.trans (h : Frame P s t) (h' : Frame P t u) : Frame P s u where
  builtins := h'.builtins.trans h.builtins
  functions := h'.functions.trans h.functions
  declared := h'.declared.trans h.declared
  active := h'.active.trans h.active
  signatures := h.signatures.trans h'.signatures
  validated f hf := h'.validated f (h.validated f hf)
  fresh f sig hs := by
    rcases h'.fresh f sig hs with hs | ⟨hP, ha, hv⟩
    · rcases h.fresh f sig hs with hs | ⟨hP, ha, hv⟩
      · exact .inl hs
      · exact .inr ⟨hP, ha, h'.validated f hv⟩
    · exact .inr ⟨hP, h.active ▸ ha, hv⟩

/-- An active function is neither given a signature nor does it lose one. -/
theorem Frame.lookup_of_active (h : Frame P s t) {f : String} (hf : f ∈ s.active) :
    t.signatures.lookup f = s.signatures.lookup f := by
  cases ht : t.signatures.lookup f with
  | some sig =>
    rcases h.fresh f sig ht with hs | ⟨-, ha, -⟩
    · exact hs.symm
    · exact absurd hf ha
  | none =>
    cases hs : s.signatures.lookup f with
    | none => rfl
    | some sig => exact nomatch ht.symm.trans (h.signatures f sig hs)

/-- The journal is no part of the frame. -/
theorem Frame.journal (s : State) (j : Journal) : Frame P s { s with journal := j } :=
  ⟨rfl, rfl, rfl, rfl, Extends.refl _, fun _ h => h, fun _ _ h => .inl h⟩

/-- A frame under one more active function is a frame without it. -/
theorem Frame.pop (h : Frame P { s with active := name :: s.active } t) :
    Frame P s { t with active := t.active.tail } where
  builtins := h.builtins
  functions := h.functions
  declared := h.declared
  active := by
    show t.active.tail = s.active
    rw [h.active, List.tail_cons]
  signatures := h.signatures
  validated := h.validated
  fresh f sig hs := (h.fresh f sig hs).imp id fun ⟨hP, ha, hv⟩ =>
    ⟨hP, fun hf => ha (List.mem_cons_of_mem _ hf), hv⟩

/-- Marking a function changes nothing that is kept. -/
theorem Frame.mark (s : State) (name : String) : Frame P s (s.mark name) :=
  ⟨rfl, rfl, rfl, rfl, Extends.refl _, fun _ h => State.mem_validated_mark_iff.2 (.inl h),
    fun _ _ h => .inl h⟩

/-- An inferred signature is one of those that a frame allows. -/
theorem Frame.infer (hP : P name) (ha : name ∉ s.active) (hl : s.signatures.lookup name = none) :
    Frame P s (s.infer name sig) where
  builtins := rfl
  functions := rfl
  declared := rfl
  active := rfl
  signatures f sig' hs := by
    rw [State.lookup_infer hl]
    split
    · next h => rw [← h, hl] at hs; cases hs
    · exact hs
  validated f hf := State.mem_validated_mark_iff.2 (.inl hf)
  fresh f sig' hs := by
    rw [State.lookup_infer hl] at hs
    split at hs
    · next h => exact .inr ⟨h ▸ hP, h ▸ ha, State.mem_validated_mark_iff.2 (.inr h.symm)⟩
    · exact .inl hs

/-- A step keeps the frame, however it ends. -/
def Keeps (P : String → Prop) (m : CheckM α) (s : State) : Prop :=
  Ends m s (fun _ t => Frame P s t) (fun _ t => Frame P s t)

/-- A step under an active function keeps the frame, and the signature of that function. -/
theorem Keeps.withActive {m : CheckM α} (h : Keeps P m { s with active := name :: s.active }) :
    Ends (withActive name m) s
      (fun _ t => Frame P s t ∧ t.signatures.lookup name = s.signatures.lookup name)
      (fun _ t => Frame P s t ∧ t.signatures.lookup name = s.signatures.lookup name) :=
  ends_withActive.2 <| h.mono
    (fun _ _ hst => ⟨hst.pop, hst.lookup_of_active List.mem_cons_self⟩)
    (fun _ _ hst => ⟨hst.pop, hst.lookup_of_active List.mem_cons_self⟩)

variable {functions : Assoc (List Clause)} {onCall : OnCall}

/-- What calls keep of the frame of each state, they keep of the frame of an earlier one. -/
theorem Keeps.steady {g : String}
    (hcall : ∀ args span t, t.functions = s.functions → Keeps P (onCall g args span) t) :
    Steady (Frame P s) (fun _ t => Frame P s t) onCall g := fun args span t hst _ =>
  (hcall args span t hst.functions).mono (fun _ _ htu => hst.trans htu) fun _ _ htu =>
    hst.trans htu

/-- Typing an expression keeps the frame, if the calls in it do. -/
theorem inferExpr_keeps {locals : Assoc Ty} (e : Expr)
    (hcall : ∀ g, P g → ∀ args span t, t.functions = s.functions → Keeps P (onCall g args span) t)
    (hP : ∀ g ∈ e.heads, locals.value? g = none → P g) : Keeps P (inferExpr onCall locals e) s :=
  inferExpr_traverses (fun _ _ _ hst => hst) e
    (fun g hg hnone => Keeps.steady (hcall g (hP g hg hnone))) s (Frame.refl s)

/-- Checking a clause keeps the frame, if the calls in it do. -/
theorem checkClause_keeps {c : Clause}
    (hcall : ∀ g, P g → ∀ args span t, t.functions = s.functions → Keeps P (onCall g args span) t)
    (hP : ∀ g ∈ c.callees, P g) : Keeps P (checkClause onCall c args) s :=
  checkClause_traverses (fun _ _ _ hst => hst) (fun t hst => hst.trans (Frame.journal t _))
    (fun g hg => Keeps.steady (hcall g (hP g hg))) (Frame.refl s)

/-- Checking clauses keeps the frame, if the calls in them do. -/
theorem checkClauses_keeps
    (hcall : ∀ g, P g → ∀ args span s, s.functions = functions → Keeps P (onCall g args span) s)
    {clauses : List Clause} (hP : ∀ c ∈ clauses, ∀ g ∈ c.callees, P g)
    (hs : s.functions = functions) : Keeps P (checkClauses onCall args clauses) s := by
  subst hs
  exact (checkClauses_traverses (fun _ _ _ hst => hst)
    (fun t _ hst => hst.trans (Frame.journal t _))
    (fun c hc g hg => Keeps.steady (hcall g (hP c hc g hg))) (Frame.refl s)).mono
    (fun _ _ h => h.2) fun _ _ h => h

/-- Visiting a function that is not active keeps the frame, if the calls in its clauses do. -/
theorem visit_keeps
    (hcall : ∀ g, P g → ∀ args span s, s.functions = functions → Keeps P (onCall g args span) s)
    {clauses : List Clause} {known : Option Signature} (hname : P name) (ha : name ∉ s.active)
    (hP : ∀ c ∈ clauses, ∀ g ∈ c.callees, P g) (hs : s.functions = functions) :
    Keeps P (visit onCall name known args span clauses) s := by
  have hclauses : Keeps P (checkClauses onCall args clauses)
      { s with active := name :: s.active } := checkClauses_keeps hcall hP hs
  refine Ends.bind (hclauses.withActive.mono (fun _ _ h => h.1) fun _ _ h => h.1)
    fun results t hst => ?_
  refine settle_ends (fun sig _ _ => hst) (fun ty _ _ hnone => ?_) (fun sig _ _ => ?_)
    (fun _ _ => hst)
  · exact hst.trans (Frame.infer hname (hst.active ▸ ha) hnone)
  · exact hst.trans (Frame.mark t name)

/-- **A call keeps the frame**, at any depth and however it ends. -/
theorem checkCall_keeps (hclosed : Closed P functions) (depth : Nat) :
    ∀ g, P g → ∀ args span (s : State), s.functions = functions →
      Keeps P (checkCall depth g args span) s := by
  induction depth with
  | zero => exact fun g _ args span s _ => Frame.refl s
  | succ depth ih =>
    intro g hg args span s hs
    refine checkCall_ends (fun _ _ _ _ => Frame.refl s) (fun _ _ _ _ => Frame.refl s)
      (fun _ _ => Frame.refl s) (fun _ _ => Frame.refl s) fun _ _ ha => ?_
    subst hs
    exact visit_keeps ih hg ha (fun c hc g' hg' => hclosed.of_mem_callees hg hc hg') rfl

/-- Every function, where the functions that get a signature are not restricted. -/
def Any : String → Prop := fun _ => True

/-- The property that holds of every name is closed under calls. -/
theorem closed_any (functions : Assoc (List Clause)) : Closed Any functions :=
  fun _ _ _ _ _ _ _ _ => trivial

/-- A call from outside keeps the frame. -/
theorem call_keeps (name : String) (args : List Ty) (span : Option Span) (s : State) :
    Keeps Any (call name args span) s := by
  unfold Keeps
  rw [ends_call]
  exact checkCall_keeps (closed_any s.functions) _ name trivial args span s rfl

end Frame

end Clausal.Check
