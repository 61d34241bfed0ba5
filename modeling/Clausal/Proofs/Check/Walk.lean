import Mathlib.Data.List.Perm.Subperm
import Clausal.Proofs.Check.Complete

/-!
# The walk through the calls

A check follows calls depth first: from the entry point and then from the declared functions, into
every function that it has not left yet. Types apart, that is a walk through the call graph
(`Walk`), and it ends early in one way only, when it comes back to a function without a signature
line that it is still inside of. A program is `Anchored` if its walk does not.

`validate_follows`: on a program that has a typing the check and the walk end alike. The check
returns if the program is anchored, and stops if it is not. The rules for single steps are
equations between a step of the check and a piece of the walk (`Follows`), so they compose along the
text of the check (`Follows.bind`); that the walk has only one result (`Walk.unique`) is what lets a
failure of a piece refute the whole.
-/

namespace Clausal

/-! ## Calls in order -/

mutual

/-- The names at the heads of the calls of an expression in the order in which the calls are
checked, that is, after their arguments. -/
def Expr.calls : Expr → List String
  | .lit .. => []
  | .call f args _ => callsOf args ++ [f]
  | .binary left _ right _ => left.calls ++ right.calls
  | .cond test yes no _ => test.calls ++ (yes.calls ++ no.calls)

/-- The names at the heads of the calls of several expressions, in order. -/
def callsOf : List Expr → List String
  | [] => []
  | e :: es => e.calls ++ callsOf es

end

/-- The functions that a clause calls, in order; a parameter is not called. -/
def Clause.calls (c : Clause) : List String :=
  c.body.calls.filter fun g => (Pattern.position? g c.params).isNone

/-- The functions that the clauses of a function call, in order. -/
def Program.calls (p : Program) (f : String) : List String :=
  (p.clausesOf f).flatMap Clause.calls

/-- Whether a function has a signature line. -/
def Program.Declares (p : Program) (f : String) : Prop :=
  ∃ d ∈ p.decls, d.name = f

/-! ## Walks -/

/-- `Walk calls signed inside left todo left'`: a walk that is inside of the functions `inside` and
has left the functions `left` goes to the functions `todo` one after another, and then it has left
`left'`. It does not enter a function twice, and it comes back to a function that it is inside of
only if that one is `signed`. -/
inductive Walk (calls : String → List String) (signed : String → Prop) :
    List String → List String → List String → List String → Prop
  | done {inside left : List String} : Walk calls signed inside left [] left
  | known {inside left todo left' : List String} {f : String} : f ∈ left →
      Walk calls signed inside left todo left' → Walk calls signed inside left (f :: todo) left'
  | back {inside left todo left' : List String} {f : String} : f ∈ inside → signed f →
      Walk calls signed inside left todo left' → Walk calls signed inside left (f :: todo) left'
  | enter {inside left mid todo left' : List String} {f : String} : f ∉ left → f ∉ inside →
      Walk calls signed (f :: inside) left (calls f) mid →
      Walk calls signed inside (f :: mid) todo left' →
      Walk calls signed inside left (f :: todo) left'

/-- A program is anchored if the walk from its entry point and then from its declared functions, in
the order of their signature lines, comes back to none but declared functions. -/
def Program.Anchored (p : Program) : Prop :=
  ∃ left, Walk p.calls p.Declares [] [] (Check.entryPoint :: p.decls.map (·.name)) left

namespace Walk

variable {calls : String → List String} {signed : String → Prop}
  {inside left left' left'' todo more : List String} {f : String}

/-- A walk goes on where another one ended. -/
theorem append (h : Walk calls signed inside left todo left')
    (h' : Walk calls signed inside left' more left'') :
    Walk calls signed inside left (todo ++ more) left'' := by
  induction h with
  | done => exact h'
  | known hf _ ih => exact .known hf (ih h')
  | back hf hs _ ih => exact .back hf hs (ih h')
  | enter hl hi hinto _ _ ih => exact .enter hl hi hinto (ih h')

/-- A walk to some functions and then to others is two walks. -/
theorem split (h : Walk calls signed inside left (todo ++ more) left'') :
    ∃ left', Walk calls signed inside left todo left' ∧
      Walk calls signed inside left' more left'' := by
  induction todo generalizing left with
  | nil => exact ⟨left, .done, h⟩
  | cons f todo ih =>
    cases h with
    | known hf hrest =>
      obtain ⟨left', h₁, h₂⟩ := ih hrest
      exact ⟨left', .known hf h₁, h₂⟩
    | back hf hs hrest =>
      obtain ⟨left', h₁, h₂⟩ := ih hrest
      exact ⟨left', .back hf hs h₁, h₂⟩
    | enter hl hi hinto hrest =>
      obtain ⟨left', h₁, h₂⟩ := ih hrest
      exact ⟨left', .enter hl hi hinto h₁, h₂⟩

/-- A walk has one result. -/
theorem unique (h : Walk calls signed inside left todo left')
    (h' : Walk calls signed inside left todo left'') : left' = left'' := by
  induction h generalizing left'' with
  | done => cases h'; rfl
  | known hf _ ih =>
    cases h' with
    | known _ hrest => exact ih hrest
    | back _ _ hrest => exact ih hrest
    | enter hl => exact absurd hf hl
  | back hf _ _ ih =>
    cases h' with
    | known _ hrest => exact ih hrest
    | back _ _ hrest => exact ih hrest
    | enter _ hi => exact absurd hf hi
  | enter hl hi _ _ ihinto ih =>
    cases h' with
    | known hf => exact absurd hf hl
    | back hf => exact absurd hf hi
    | enter _ _ hinto hrest =>
      cases ihinto hinto
      exact ih hrest

/-- A walk does not leave a function that it is inside of. -/
theorem mem_left_of_inside (h : Walk calls signed inside left todo left') (hi : f ∈ inside)
    (hl : f ∈ left') : f ∈ left := by
  induction h with
  | done => exact hl
  | known _ _ ih | back _ _ _ ih => exact ih hi hl
  | enter _ hout _ _ ihinto ih =>
    rcases List.mem_cons.1 (ih hi hl) with rfl | hmid
    · exact absurd hi hout
    · exact ihinto (List.mem_cons_of_mem _ hi) hmid

/-- A walk goes into a function that is new to it exactly if it comes through its calls. -/
theorem exists_enter_iff (hl : f ∉ left) (hi : f ∉ inside) :
    (∃ left', Walk calls signed inside left [f] left') ↔
      ∃ mid, Walk calls signed (f :: inside) left (calls f) mid := by
  refine ⟨fun ⟨left', h⟩ => ?_, fun ⟨mid, h⟩ => ⟨f :: mid, .enter hl hi h .done⟩⟩
  cases h with
  | known hf => exact absurd hf hl
  | back hf => exact absurd hf hi
  | enter _ _ hinto _ => exact ⟨_, hinto⟩

/-- A walk cannot come back to a function without a signature that it is still inside of. -/
theorem not_back (hl : f ∉ left) (hi : f ∈ inside) (hs : ¬ signed f) :
    ¬ ∃ left', Walk calls signed inside left [f] left' := by
  rintro ⟨left', h⟩
  cases h with
  | known hf => exact hl hf
  | back _ hf => exact hs hf
  | enter _ hf => exact hf hi

end Walk

namespace Check

/-! ## A check that follows a walk -/

section Follows
variable {α β : Type} {T : String → Option Signature} {P : String → Prop} {s₀ s : State}
  {signed : String → Prop} {inside left todo more : List String} {onCall : OnCall}
  {name : String} {args : List Ty} {span : Option Span} {ty : Ty}

/-- The calls in the registered clauses of a function, in order. -/
def State.calls (s : State) (f : String) : List String :=
  (s.clausesOf f).flatMap Clause.calls

/-- The functions that a walk can be inside of: different ones, with clauses. -/
structure Stack (s₀ : State) (inside : List String) : Prop where
  nodup : inside.Nodup
  clauses : ∀ f ∈ inside, s₀.clausesOf f ≠ []

/-- The state of a check that is inside of some functions and has left others: those that have
clauses are validated, and all signatures come from registration or belong to such functions. -/
structure Tracked (T : String → Option Signature) (s₀ : State) (inside left : List String)
    (s : State) : Prop where
  below : Below T s₀ s
  active : s.active = inside
  fresh : ∀ f sig, s.signatures.lookup f = some sig →
    s₀.signatures.lookup f = some sig ∨ f ∈ s.validated
  validated : ∀ f ∈ s.validated, s₀.clausesOf f ≠ [] ∧ ∃ sig, s.signatures.lookup f = some sig
  left : ∀ f, s₀.clausesOf f ≠ [] → (f ∈ left ↔ f ∈ s.validated)

/-- Run from `s`, a step returns `a` exactly if the walk to `todo` has a result, and then it is in a
state that tracks the walk. -/
def Follows (T : String → Option Signature) (s₀ : State) (signed : String → Prop)
    (inside left todo : List String) (m : CheckM α) (s : State) (a : α) : Prop :=
  Ends m s
    (fun b t => b = a ∧ ∃ left', Walk s₀.calls signed inside left todo left' ∧
      Tracked T s₀ inside left' t)
    fun _ _ => ¬ ∃ left', Walk s₀.calls signed inside left todo left'

/-- The journal does not matter. -/
theorem Tracked.journal (h : Tracked T s₀ inside left s) (j : Journal) :
    Tracked T s₀ inside left { s with journal := j } :=
  ⟨⟨h.below.functions, h.below.declared, h.below.lower, h.below.upper, h.below.signed⟩, h.active,
    h.fresh, h.validated, h.left⟩

/-- A function that is entered is the innermost one. -/
theorem Tracked.push (h : Tracked T s₀ inside left s) (name : String) :
    Tracked T s₀ (name :: inside) left { s with active := name :: s.active } :=
  ⟨⟨h.below.functions, h.below.declared, h.below.lower, h.below.upper, h.below.signed⟩,
    congrArg (name :: ·) h.active, h.fresh, h.validated, h.left⟩

/-- A function that is left is no longer inside. -/
theorem Tracked.pop (h : Tracked T s₀ (name :: inside) left s) :
    Tracked T s₀ inside left { s with active := s.active.tail } :=
  ⟨⟨h.below.functions, h.below.declared, h.below.lower, h.below.upper, h.below.signed⟩,
    congrArg List.tail h.active, h.fresh, h.validated, h.left⟩

theorem Follows.pure (h : Tracked T s₀ inside left s) (a : α) :
    Follows T s₀ signed inside left [] (Pure.pure a) s a :=
  ⟨rfl, left, .done, h⟩

/-- Steps one after another follow walks one after another. -/
theorem Follows.bind {m : CheckM α} {f : α → CheckM β} {a : α} {b : β}
    (h : Follows T s₀ signed inside left todo m s a)
    (hf : ∀ left' t, Tracked T s₀ inside left' t →
      Follows T s₀ signed inside left' more (f a) t b) :
    Follows T s₀ signed inside left (todo ++ more) (m >>= f) s b := by
  refine Ends.bind (h.mono (fun _ _ h => h) fun _ _ hno ⟨left'', hwalk⟩ => ?_) ?_
  · obtain ⟨left', hwalk, -⟩ := hwalk.split
    exact hno ⟨left', hwalk⟩
  · rintro a' t ⟨rfl, left', hwalk, ht⟩
    refine (hf left' t ht).mono ?_ fun _ _ hno ⟨left'', hwhole⟩ => ?_
    · rintro b' u ⟨hb, left'', hmore, hu⟩
      exact ⟨hb, left'', hwalk.append hmore, hu⟩
    · obtain ⟨mid, hfirst, hrest⟩ := hwhole.split
      cases hwalk.unique hfirst
      exact hno ⟨left'', hrest⟩

/-- The last step of several needs no more walking. -/
theorem Follows.map {m : CheckM α} {f : α → CheckM β} {a : α} {b : β}
    (h : Follows T s₀ signed inside left todo m s a)
    (hf : ∀ left' t, Tracked T s₀ inside left' t →
      Follows T s₀ signed inside left' [] (f a) t b) :
    Follows T s₀ signed inside left todo (m >>= f) s b := by
  have hbind := h.bind hf
  rwa [List.append_nil] at hbind

/-- Calls with the arguments that a typing demands follow the walk to the called function. -/
def FollowingCall (T : String → Option Signature) (P : String → Prop) (s₀ : State)
    (signed : String → Prop) (inside : List String) (onCall : OnCall) : Prop :=
  ∀ g, P g → ∀ args ty span left s, Tracked T s₀ inside left s → T g = some ⟨args, ty⟩ →
    Follows T s₀ signed inside left [g] (onCall g args span) s ty

section Expressions
variable {locals : Assoc Ty}

mutual

/-- The type of a typed expression is inferred along the walk to the functions that it calls. -/
theorem inferExpr_follows (hcall : FollowingCall T P s₀ signed inside onCall)
    (hknown : ∀ g sig, T g = some sig → s₀.functions.has g = true) {e : Expr} {ty : Ty} :
    HasType T locals.value? e ty → (∀ g ∈ e.heads, locals.value? g = none → P g) →
      ∀ left s, Tracked T s₀ inside left s →
        Follows T s₀ signed inside left (e.calls.filter fun g => (locals.value? g).isNone)
          (inferExpr onCall locals e) s ty
  | .lit, _, left, s, hs => Follows.pure hs _
  | .param hx, _, left, s, hs => by
    rw [inferExpr, inferArgs, Expr.calls, callsOf, List.nil_append,
      List.filter_cons_of_neg (by simp [hx]), List.filter_nil]
    refine Follows.map (Follows.pure hs _) fun left' t ht => ?_
    rw [hx]
    exact Follows.pure ht _
  | .call (f := f) hnone hsig hargs, hP, left, s, hs => by
    rw [Expr.heads] at hP
    rw [inferExpr, Expr.calls, List.filter_append]
    refine (inferArgs_follows hcall hknown hargs (fun g hg => hP g (List.mem_cons_of_mem _ hg))
      left s hs).bind fun left' t ht => ?_
    rw [hnone, List.filter_cons_of_pos (by rw [hnone]; rfl), List.filter_nil]
    show Ends _ _ _ _
    rw [ends_bind, ends_get, ht.below.functions, hknown _ _ hsig]
    exact hcall f (hP _ List.mem_cons_self hnone) _ _ _ left' t ht hsig
  | .arithmetic hop hne hleft hright, hP, left, s, hs => by
    rw [Expr.heads] at hP
    rw [inferExpr, Expr.calls, List.filter_append]
    refine (inferExpr_follows hcall hknown hleft (fun g hg => hP g (List.mem_append_left _ hg))
      left s hs).bind fun left' t ht => ?_
    refine (inferExpr_follows hcall hknown hright (fun g hg => hP g (List.mem_append_right _ hg))
      left' t ht).map fun left'' u hu => ?_
    unfold operatorType
    rw [if_neg fun h => h rfl, hop, if_neg (by decide), if_neg hne]
    exact Follows.pure hu _
  | .comparison hop hleft hright, hP, left, s, hs => by
    rw [Expr.heads] at hP
    rw [inferExpr, Expr.calls, List.filter_append]
    refine (inferExpr_follows hcall hknown hleft (fun g hg => hP g (List.mem_append_left _ hg))
      left s hs).bind fun left' t ht => ?_
    refine (inferExpr_follows hcall hknown hright (fun g hg => hP g (List.mem_append_right _ hg))
      left' t ht).map fun left'' u hu => ?_
    unfold operatorType
    rw [if_neg fun h => h rfl, hop, if_pos (by decide)]
    exact Follows.pure hu _
  | .cond htest hyes hno, hP, left, s, hs => by
    rw [Expr.heads] at hP
    have hrest := fun g hg => hP g (List.mem_append_right _ hg)
    rw [inferExpr, Expr.calls, List.filter_append, List.filter_append]
    refine (inferExpr_follows hcall hknown htest (fun g hg => hP g (List.mem_append_left _ hg))
      left s hs).bind fun left₁ t ht => ?_
    rw [if_neg fun h => h rfl]
    refine (inferExpr_follows hcall hknown hyes (fun g hg => hrest g (List.mem_append_left _ hg))
      left₁ t ht).bind fun left₂ u hu => ?_
    refine (inferExpr_follows hcall hknown hno (fun g hg => hrest g (List.mem_append_right _ hg))
      left₂ u hu).map fun left₃ v hv => ?_
    rw [if_neg fun h => h rfl]
    exact Follows.pure hv _

/-- The types of typed arguments are inferred along the walk to the functions that they call. -/
theorem inferArgs_follows (hcall : FollowingCall T P s₀ signed inside onCall)
    (hknown : ∀ g sig, T g = some sig → s₀.functions.has g = true) {es : List Expr}
    {types : List Ty} :
    HaveTypes T locals.value? es types → (∀ g ∈ headsOf es, locals.value? g = none → P g) →
      ∀ left s, Tracked T s₀ inside left s →
        Follows T s₀ signed inside left ((callsOf es).filter fun g => (locals.value? g).isNone)
          (inferArgs onCall locals es) s types
  | .nil, _, left, s, hs => Follows.pure hs _
  | .cons he hes, hP, left, s, hs => by
    rw [headsOf] at hP
    rw [inferArgs, callsOf, List.filter_append]
    refine (inferExpr_follows hcall hknown he (fun g hg => hP g (List.mem_append_left _ hg))
      left s hs).bind fun left' t ht => ?_
    refine (inferArgs_follows hcall hknown hes (fun g hg => hP g (List.mem_append_right _ hg))
      left' t ht).map fun left'' u hu => ?_
    exact Follows.pure hu _

end

end Expressions

/-! ## Clauses and calls -/

/-- A clause with the signature of a call is checked along the walk to the functions it calls. -/
theorem checkClause_follows {c : Clause} (hcall : FollowingCall T P s₀ signed inside onCall)
    (hknown : ∀ g sig, T g = some sig → s₀.functions.has g = true) (hP : ∀ g ∈ c.callees, P g)
    (hc : c.HasSignature T ⟨args, ty⟩) (hs : Tracked T s₀ inside left s) :
    Follows T s₀ signed inside left c.calls (checkClause onCall c args) s ty := by
  have hlen : c.params.length = args.length := hc.arity
  have hlocals : Assoc.value? (Assoc.ofPairs (Pattern.bindings c.params args)) =
      Pattern.argument? c.params args :=
    funext (Pattern.value?_ofPairs_bindings (Nat.le_of_eq hlen))
  have hfree : ∀ g, Assoc.value? (Assoc.ofPairs (Pattern.bindings c.params args)) g = none ↔
      Pattern.position? g c.params = none := fun g => by
    rw [hlocals, Pattern.argument?_eq_none_iff (Nat.le_of_eq hlen)]
  have hcalls : c.calls = c.body.calls.filter fun g =>
      (Assoc.value? (Assoc.ofPairs (Pattern.bindings c.params args)) g).isNone := by
    refine List.filter_congr fun g _ => ?_
    rw [Bool.eq_iff_iff, Option.isNone_iff_eq_none, Option.isNone_iff_eq_none, hfree]
  rw [hcalls]
  unfold checkClause
  show Ends _ _ _ _
  rw [ends_bind, ends_record, if_neg fun h => h hlen,
    (literalMismatch?_eq_none_iff hlen).2 hc.literals]
  exact inferExpr_follows hcall hknown (hlocals ▸ hc.body)
    (fun g hg hnone => hP g (Clause.mem_callees.2 ⟨hg, (hfree g).1 hnone⟩)) left _ (hs.journal _)

/-- Clauses with the signature of a call are checked along the walk to the functions they call. -/
theorem checkClauses_follows {clauses : List Clause}
    (hcall : FollowingCall T P s₀ signed inside onCall)
    (hknown : ∀ g sig, T g = some sig → s₀.functions.has g = true)
    (hP : ∀ c ∈ clauses, ∀ g ∈ c.callees, P g)
    (hclauses : ∀ c ∈ clauses, c.HasSignature T ⟨args, ty⟩) (hs : Tracked T s₀ inside left s) :
    Follows T s₀ signed inside left (clauses.flatMap Clause.calls)
      (checkClauses onCall args clauses) s (clauses.map fun c => (c, ty)) := by
  induction clauses generalizing left s with
  | nil => exact Follows.pure hs _
  | cons c clauses ih =>
    rw [checkClauses, List.flatMap_cons]
    refine (checkClause_follows hcall hknown (hP c List.mem_cons_self)
      (hclauses c List.mem_cons_self) hs).bind fun left' t ht => ?_
    refine (ih (fun c' hc' => hP c' (List.mem_cons_of_mem _ hc'))
      (fun c' hc' => hclauses c' (List.mem_cons_of_mem _ hc')) ht).map fun left'' u hu => ?_
    exact Follows.pure hu _

/-- A walk leaves a function when the check marks it. -/
theorem Tracked.mark (h : Tracked T s₀ inside left s) (hclauses : s₀.clausesOf name ≠ [])
    {sig : Signature} (hsig : s.signatures.lookup name = some sig) :
    Tracked T s₀ inside (name :: left) (s.mark name) where
  below := h.below.mark hsig
  active := h.active
  fresh f sig' hf := (h.fresh f sig' hf).imp id fun hv => State.mem_validated_mark_iff.2 (.inl hv)
  validated f hf := by
    rcases State.mem_validated_mark_iff.1 hf with hf | rfl
    · exact h.validated f hf
    · exact ⟨hclauses, sig, hsig⟩
  left f hf := by
    rw [State.mem_validated_mark_iff, List.mem_cons, h.left f hf]
    exact or_comm

/-- A walk leaves a function when the check gives it the signature that its clauses agree on. -/
theorem Tracked.infer (h : Tracked T s₀ inside left s) (hclauses : s₀.clausesOf name ≠ [])
    {sig : Signature} (hnone : s.signatures.lookup name = none) (hT : T name = some sig) :
    Tracked T s₀ inside (name :: left) (s.infer name sig) where
  below := h.below.infer hnone hT
  active := h.active
  fresh f sig' hf := by
    rw [State.lookup_infer hnone] at hf
    split at hf
    · next heq => exact .inr (State.mem_validated_mark_iff.2 (.inr heq.symm))
    · exact (h.fresh f sig' hf).imp id fun hv => State.mem_validated_mark_iff.2 (.inl hv)
  validated f hf := by
    rw [State.lookup_infer hnone]
    rcases State.mem_validated_mark_iff.1 hf with hf | rfl
    · refine ⟨(h.validated f hf).1, ?_⟩
      split
      · exact ⟨sig, rfl⟩
      · exact (h.validated f hf).2
    · exact ⟨hclauses, sig, if_pos rfl⟩
  left f hf := by
    show f ∈ name :: left ↔ f ∈ (s.infer name sig).validated
    rw [State.infer, State.mem_validated_mark_iff, List.mem_cons, h.left f hf]
    exact or_comm

/-- A function that is not known yet is checked along the walk into it. -/
theorem visit_follows (h : Typable T P s₀)
    (hcall : FollowingCall T P s₀ signed (name :: inside) onCall)
    (hname : P name) (hT : T name = some ⟨args, ty⟩) (hs : Tracked T s₀ inside left s)
    (hclauses : s₀.clausesOf name ≠ []) (hnew : name ∉ s.validated) (hout : name ∉ inside) :
    Follows T s₀ signed inside left [name]
      (visit onCall name (s.signatures.lookup name) args span (s₀.clausesOf name)) s ty := by
  have hleft : name ∉ left := fun hmem => hnew ((hs.left name hclauses).1 hmem)
  have hchecked : Ends (withActive name (checkClauses onCall args (s₀.clausesOf name))) s
      (fun results t => results = (s₀.clausesOf name).map (fun c => (c, ty)) ∧
        ∃ mid, Walk s₀.calls signed (name :: inside) left (s₀.calls name) mid ∧
          Tracked T s₀ inside mid t)
      fun _ _ => ¬ ∃ left', Walk s₀.calls signed inside left [name] left' := by
    rw [Walk.exists_enter_iff hleft hout]
    exact ends_withActive.2 <| (checkClauses_follows hcall h.known
      (fun c hc g hg => h.closed.of_mem_callees hname hc hg) (h.clauses name _ hname hT)
      (hs.push name)).mono (fun _ _ ⟨hresults, mid, hwalk, ht⟩ => ⟨hresults, mid, hwalk, ht.pop⟩)
      fun _ _ hno => hno
  refine hchecked.bind ?_
  rintro results t ⟨rfl, mid, hwalk, ht⟩
  have hwalk' : Walk s₀.calls signed inside left [name] (name :: mid) :=
    .enter hleft hout hwalk .done
  have hagree : Agree ((s₀.clausesOf name).map fun c => (c, ty)) ty := by
    refine ⟨fun hnil => hclauses (List.map_eq_nil_iff.1 hnil), fun r hr => ?_⟩
    obtain ⟨c, -, rfl⟩ := List.mem_map.1 hr
    rfl
  have hsame : ∀ ty', Agree ((s₀.clausesOf name).map fun c => (c, ty)) ty' → ty' = ty := by
    intro ty' hagree'
    obtain ⟨r, hr⟩ := List.exists_mem_of_ne_nil _ hagree.1
    exact (hagree'.2 r hr).symm.trans (hagree.2 r hr)
  refine settle_ends (fun sig hnil _ => ?_) (fun ty' hagree' _ hnone => ?_)
    (fun sig hagree' hknown => ?_) fun hno => ?_
  · exact absurd hnil hagree.1
  · cases hsame ty' hagree'
    exact ⟨rfl, _, hwalk', ht.infer hclauses hnone hT⟩
  · have hsig₀ := (hs.fresh name sig hknown).resolve_right hnew
    exact ⟨hsame _ hagree', _, hwalk', ht.mark hclauses (ht.below.lower _ _ hsig₀)⟩
  · refine absurd ?_ (hno ty)
    cases hl : s.signatures.lookup name with
    | some sig =>
      cases hT.symm.trans (hs.below.upper _ _ hl)
      exact ⟨rfl, .inr hagree⟩
    | none =>
      refine ⟨hagree, ?_⟩
      cases hl' : t.signatures.lookup name with
      | none => rfl
      | some sig =>
        -- the walk is inside of the function, so it has not left it
        rcases ht.fresh name sig hl' with hsig₀ | hv
        · exact nomatch hl.symm.trans (hs.below.lower _ _ hsig₀)
        · exact absurd (hwalk.mem_left_of_inside List.mem_cons_self ((ht.left name hclauses).2 hv))
            hleft

/-- A function without clauses is called without walking into it. -/
theorem visit_follows_of_no_clauses (h : Typable T P s₀) (hT : T name = some ⟨args, ty⟩)
    (hs : Tracked T s₀ inside left s) (hclauses : s₀.clausesOf name = []) (hout : name ∉ inside) :
    Follows T s₀ signed inside left [name]
      (visit onCall name (s.signatures.lookup name) args span (s₀.clausesOf name)) s ty := by
  -- it counts as left from now on, which says nothing of the state
  have hwalk : ∃ left', Walk s₀.calls signed inside left [name] left' ∧
      Tracked T s₀ inside left' s := by
    by_cases hl : name ∈ left
    · exact ⟨left, .known hl .done, hs⟩
    · have hcalls : s₀.calls name = [] := by
        unfold State.calls
        rw [hclauses, List.flatMap_nil]
      refine ⟨name :: left, .enter hl hout (hcalls ▸ .done) .done,
        ⟨hs.below, hs.active, hs.fresh, hs.validated, fun f hf => ?_⟩⟩
      have hne : f ≠ name := fun heq => hf (heq ▸ hclauses)
      rw [List.mem_cons, ← hs.left f hf]
      exact ⟨fun hmem => hmem.resolve_left hne, .inr⟩
  obtain ⟨sig, hsig⟩ : ∃ sig, s₀.signatures.lookup name = some sig := by
    cases hl : s₀.signatures.lookup name with
    | some sig => exact ⟨sig, rfl⟩
    | none => exact absurd hclauses (h.defined name _ hT hl)
  have hsig := hs.below.lower _ _ hsig
  cases hT.symm.trans (hs.below.upper _ _ hsig)
  rw [hclauses, hsig]
  exact ⟨rfl, hwalk⟩

/-- The functions that a walk is inside of are at most as many as there are functions. -/
theorem Stack.length_le (h : Stack s₀ inside) : inside.length ≤ s₀.functions.length := by
  have hsub : inside ⊆ s₀.functions.names := by
    intro f hf
    have hne := h.clauses f hf
    rw [← Assoc.has_iff_mem_names, Assoc.has]
    unfold State.clausesOf at hne
    cases hv : s₀.functions.value? f with
    | some clauses => rfl
    | none =>
      rw [hv] at hne
      exact absurd rfl hne
  have hlen := (h.nodup.subperm hsub).length_le
  rwa [Assoc.names, List.length_map] at hlen

/-- **Calls follow the walk**, if there is depth left for all functions that are not active. -/
theorem checkCall_follows (h : Typable T P s₀)
    (hsigned : ∀ f, s₀.clausesOf f ≠ [] → (signed f ↔ ∃ sig, s₀.signatures.lookup f = some sig))
    (depth : Nat) (hstack : Stack s₀ inside)
    (hdepth : s₀.functions.length < depth + inside.length) :
    FollowingCall T P s₀ signed inside (checkCall depth) := by
  induction depth generalizing inside with
  | zero =>
    have hle := hstack.length_le
    omega
  | succ depth ih =>
    intro g hg args ty span left s hs hT
    have hsame : ∀ sig, s.signatures.lookup g = some sig → sig = ⟨args, ty⟩ := fun sig hsig =>
      Option.some.inj ((hs.below.upper _ _ hsig).symm.trans hT)
    refine checkCall_ends (fun sig hsig hne => ?_) (fun sig hsig _ hin => ?_)
      (fun hnone hv => ?_) (fun hnone ha => ?_) fun _ hv ha => ?_
    · exact absurd (congrArg Signature.params (hsame sig hsig)).symm hne
    · refine ⟨congrArg Signature.result (hsame sig hsig), left, ?_, hs⟩
      by_cases hv : g ∈ s.validated
      · exact .known ((hs.left g (hs.validated g hv).1).2 hv) .done
      · have ha : g ∈ inside := hs.active ▸ hin.resolve_left hv
        have hsig₀ := (hs.fresh g sig hsig).resolve_right hv
        exact .back ha ((hsigned g (hstack.clauses g ha)).2 ⟨sig, hsig₀⟩) .done
    · obtain ⟨-, sig, hsig⟩ := hs.validated g hv
      cases hnone.symm.trans hsig
    · have ha : g ∈ inside := hs.active ▸ ha
      have hclauses := hstack.clauses g ha
      refine Walk.not_back (fun hl => ?_) ha fun hsg => ?_
      · obtain ⟨-, sig, hsig⟩ := hs.validated g ((hs.left g hclauses).1 hl)
        exact nomatch hnone.symm.trans hsig
      · obtain ⟨sig, hsig⟩ := (hsigned g hclauses).1 hsg
        exact nomatch hnone.symm.trans (hs.below.lower _ _ hsig)
    · have ha : g ∉ inside := hs.active ▸ ha
      have hsameClauses : s.clausesOf g = s₀.clausesOf g := by
        unfold State.clausesOf
        rw [hs.below.functions]
      rw [hsameClauses]
      by_cases hclauses : s₀.clausesOf g = []
      · exact visit_follows_of_no_clauses h hT hs hclauses ha
      · have hstack' : Stack s₀ (g :: inside) :=
          ⟨List.nodup_cons.2 ⟨ha, hstack.nodup⟩, List.forall_mem_cons.2 ⟨hclauses, hstack.clauses⟩⟩
        have hdepth' : s₀.functions.length < depth + (g :: inside).length := by
          rw [List.length_cons]
          omega
        exact visit_follows h (ih hstack' hdepth') hg hT hs hclauses hv ha

end Follows

/-! ## Programs -/

variable {p : Program} {s : State}

/-- After registration the calls are those of the program. -/
theorem Entered.calls (h : Entered p.decls p.clauses s) : s.calls = p.calls := by
  funext f
  unfold State.calls Program.calls
  rw [h.clausesOf]

/-- Of the functions with clauses those with a signature line have a signature at first. -/
theorem Entered.declares_iff (h : Entered p.decls p.clauses s) {f : String}
    (hf : s.clausesOf f ≠ []) : p.Declares f ↔ ∃ sig, s.signatures.lookup f = some sig := by
  constructor
  · rintro ⟨d, hd, rfl⟩
    exact ⟨d.signature, h.lookup_eq_some_iff.2 (.inr ⟨d, hd, rfl, rfl⟩)⟩
  · rintro ⟨sig, hsig⟩
    rcases h.lookup_eq_some_iff.1 hsig with hb | ⟨d, hd, hname, -⟩
    · rw [h.clausesOf] at hf
      obtain ⟨c, hc⟩ := List.exists_mem_of_ne_nil _ hf
      obtain ⟨hc, hname⟩ := Program.mem_clausesOf.1 hc
      exact absurd (.inl (Assoc.has_of_value? hb))
        (h.free f (.inr (List.mem_map.2 ⟨c, hc, hname⟩)))
    · exact ⟨d, hd, hname⟩

/-- Nothing has been left when registration is over. -/
theorem Entered.tracked (h : Entered p.decls p.clauses s) {T : String → Option Signature}
    {on : String → Prop} (hT : p.Typing on T) : Tracked T s [] [] s where
  below := h.below hT
  active := h.active
  fresh f sig hf := .inl hf
  validated f hf := by
    rw [h.validated] at hf
    cases hf
  left f _ := by rw [h.validated]

/-- A call from outside follows the walk from a program's functions. -/
theorem call_follows (h : Entered p.decls p.clauses s) (T : p.Assignment)
    (hT : p.Typing p.Reachable T.signature) {f : String} (hf : p.Reachable f) {args : List Ty}
    {ty : Ty} (hsig : T.signature f = some ⟨args, ty⟩) (span : Option Span) {left : List String}
    {t : State} (ht : Tracked T.signature s [] left t) :
    Follows T.signature s p.Declares [] left [f] (call f args span) t ty := by
  show Ends _ _ _ _
  rw [ends_call, ht.below.functions]
  exact checkCall_follows (h.typable T hT) (fun f hf => h.declares_iff hf) _
    ⟨List.nodup_nil, fun f hf => nomatch hf⟩ (Nat.lt_succ_self _) f hf args ty span left t ht hsig

/-- **The check of a program that has a typing ends as the walk through its calls does.** -/
theorem validate_follows (hreg : p.Registrable) (hmain : p.Names entryPoint) (T : p.Assignment)
    (hT : p.Typing p.Reachable T.signature) :
    Ends (validate p) Compile.initial (fun _ _ => p.Anchored) fun _ _ => ¬ p.Anchored := by
  -- a walk of the whole program starts with a walk to the functions checked so far
  have hstart : ∀ (done rest : List Decl), p.decls = done ++ rest → p.Anchored →
      ∃ left, Walk p.calls p.Declares [] [] (entryPoint :: done.map (·.name)) left := by
    rintro done rest hl ⟨left', hwalk⟩
    rw [hl, List.map_append, ← List.cons_append] at hwalk
    obtain ⟨left, hwalk, -⟩ := hwalk.split
    exact ⟨left, hwalk⟩
  refine validate_ends
    (I := fun done t => ∃ s left, Entered p.decls p.clauses s ∧
      Walk p.calls p.Declares [] [] (entryPoint :: done.map (·.name)) left ∧
      Tracked T.signature s [] left t)
    (fun hno => absurd hreg hno) (fun hno => absurd hmain hno) (fun s span hs _ => ?_)
    (fun done d rest t span hl ⟨s, left, hs, hwalk, ht⟩ _ => ?_)
    (fun done d rest t hl ⟨s, left, hs, hwalk, ht⟩ hv => ?_)
    (fun t ⟨s, left, hs, hwalk, ht⟩ => ht.below.declared.trans hs.declared)
    (fun done t j ⟨s, left, hs, hwalk, ht⟩ => ⟨s, left, hs, hwalk, ht.journal j⟩)
    (fun t ⟨s, left, hs, hwalk, ht⟩ => ⟨left, hwalk⟩)
  · have hcall := call_follows hs T hT .entry hT.entry span (hs.tracked hT)
    unfold Follows at hcall
    rw [hs.calls] at hcall
    refine hcall.mono ?_ fun _ _ hno hanchored => hno (hstart [] p.decls rfl hanchored)
    rintro ty t ⟨rfl, left, hwalk, ht⟩
    exact ⟨fun _ => ⟨s, left, hs, hwalk, ht⟩, fun hne => absurd rfl hne⟩
  · have hd : d ∈ p.decls := hl ▸ List.mem_append_right _ List.mem_cons_self
    have hcall := call_follows hs T hT (.declared hd) (hT.declared d hd) span ht
    unfold Follows at hcall
    rw [hs.calls] at hcall
    refine hcall.mono ?_ fun _ _ hno hanchored => ?_
    · rintro ty u ⟨-, left', hwalk', hu⟩
      refine ⟨s, left', hs, ?_, hu⟩
      rw [List.map_append, ← List.cons_append]
      exact hwalk.append hwalk'
    · rw [List.append_cons] at hl
      obtain ⟨left', hwalk'⟩ := hstart _ rest hl hanchored
      rw [List.map_append, ← List.cons_append] at hwalk'
      obtain ⟨mid, hmid, hlast⟩ := hwalk'.split
      cases hwalk.unique hmid
      exact hno ⟨left', hlast⟩
  · refine ⟨s, left, hs, ?_, ht⟩
    rw [List.map_append, ← List.cons_append]
    exact hwalk.append (.known ((ht.left _ (ht.validated _ hv).1).2 hv) .done)

end Check

end Clausal
