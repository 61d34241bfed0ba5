import Clausal.Proofs.Check.Notes
import Clausal.Proofs.Emit.Code

/-!
# The types of checking and of code generation

Checking gives every expression a type while the signatures are still being found. Code generation
finds types again, from the final signatures and from the left operands and first branches only, and
hands types down to the parts of an expression. `program_types_agree`: in an accepted program both
are the same at every part of every clause.

What checking gave is in the notes of `Clausal.Proofs.Check.Notes`. What code generation is asked
for is taken down here in the same way: `Scope.lowerAsked` is `Scope.lower` with a list of the
expressions and types it is called with, and is the same without that list (`lowerAsked_erases`).
-/

namespace Clausal

open Wasm

namespace Scope

/-! ## Code generation that takes down its calls -/

/-- A step of code generation that takes down what it is asked for. -/
abbrev AskM := ExceptT Fault (StateM (List (Expr × Ty)))

/-- Takes down that the code of an expression of a type is asked for. -/
def ask (e : Expr) (ty : Ty) : AskM Unit :=
  modify fun asked => asked ++ [(e, ty)]

mutual

/-- The code of an expression of a type. -/
def lowerAsked (s : Scope) : Expr → Ty → AskM Instr
  | .lit value span, ty => do
    ask (.lit value span) ty
    return value.code
  | .call name args span, ty => do
    ask (.call name args span) ty
    match s.slots.value? name with
    | some slot => return .localGet (.index slot.index)
    | none => do
      let codes ← s.lowerArgsAsked args
      return .call name codes
  | .binary left op right span, out => do
    ask (.binary left op right span) out
    let ty ← liftM (s.typeOf left)
    let leftCode ← s.lowerAsked left ty
    let rightCode ← s.lowerAsked right ty
    return .numeric ty.machine (op.instruction ty) leftCode rightCode
  | .cond test yes no span, ty => do
    ask (.cond test yes no span) ty
    let testCode ← s.lowerAsked test .bool
    let yesCode ← s.lowerAsked yes ty
    let noCode ← s.lowerAsked no ty
    return .cond (some ty.machine) testCode [yesCode] [noCode]

/-- The codes of the arguments of a call, from left to right. -/
def lowerArgsAsked (s : Scope) : List Expr → AskM (List Instr)
  | [] => return []
  | e :: es => do
    let ty ← liftM (s.typeOf e)
    let code ← s.lowerAsked e ty
    let codes ← s.lowerArgsAsked es
    return code :: codes

end

/-- Whatever has been asked for, the step gives the same. -/
def Yields {α : Type} (m : AskM α) (x : Except Fault α) : Prop :=
  ∀ asked, (m.run.run asked).1 = x

section Yields
variable {α β : Type} {m : AskM α} {x : Except Fault α}

theorem yields_pure (a : α) : Yields (pure a) (.ok a) := fun _ => rfl

theorem yields_liftM (x : Except Fault α) : Yields (liftM x) x := fun _ => rfl

/-- Yielding one result after the other. -/
theorem Yields.bind {f : α → AskM β} {g : α → Except Fault β} (h : Yields m x)
    (hf : ∀ a, Yields (f a) (g a)) : Yields (m >>= f) (x >>= g) := by
  intro asked
  rw [run_bind, ← h asked]
  rcases m.run.run asked with ⟨_ | a, asked'⟩
  · rfl
  · exact hf a asked'

/-- A question does not change what is yielded. -/
theorem Yields.after_ask {e : Expr} {ty : Ty} (h : Yields m x) :
    Yields (do ask e ty; m) x := fun asked => h (asked ++ [(e, ty)])

end Yields

mutual

/-- **Taking down what is asked for changes nothing.** -/
theorem lowerAsked_erases (s : Scope) : ∀ (e : Expr) (ty : Ty),
    Yields (s.lowerAsked e ty) (s.lower e ty)
  | .lit value span, ty => by
    rw [lowerAsked, lower]
    exact (yields_pure _).after_ask
  | .call name args span, ty => by
    rw [lowerAsked, lower]
    refine Yields.after_ask ?_
    cases s.slots.value? name with
    | some slot => exact yields_pure _
    | none => exact (lowerArgsAsked_erases s args).bind fun codes => yields_pure _
  | .binary left op right span, out => by
    rw [lowerAsked, lower]
    refine Yields.after_ask ((yields_liftM _).bind fun ty => ?_)
    refine (lowerAsked_erases s left ty).bind fun leftCode => ?_
    exact (lowerAsked_erases s right ty).bind fun rightCode => yields_pure _
  | .cond test yes no span, ty => by
    rw [lowerAsked, lower]
    refine Yields.after_ask ((lowerAsked_erases s test .bool).bind fun testCode => ?_)
    refine (lowerAsked_erases s yes ty).bind fun yesCode => ?_
    exact (lowerAsked_erases s no ty).bind fun noCode => yields_pure _

/-- Questions aside, arguments are lowered as they are otherwise. -/
theorem lowerArgsAsked_erases (s : Scope) : ∀ es : List Expr,
    Yields (s.lowerArgsAsked es) (s.lowerArgs es)
  | [] => by
    rw [lowerArgsAsked, lowerArgs]
    exact yields_pure _
  | e :: es => by
    rw [lowerArgsAsked, lowerArgs]
    refine (yields_liftM _).bind fun ty => (lowerAsked_erases s e ty).bind fun code => ?_
    exact (lowerArgsAsked_erases s es).bind fun codes => yields_pure _

end

/-! ## What is asked for has the type it is asked for with -/

/-- What was asked for in addition is among some expressions, with a type it has. -/
def Asks (S : String → Option Signature) (Γ : String → Option Ty) (es : List Expr)
    (asked asked' : List (Expr × Ty)) : Prop :=
  ∀ q ∈ asked', q ∈ asked ∨ q.1 ∈ es ∧ HasType S Γ q.1 q.2

section Asks
variable {S : String → Option Signature} {Γ : String → Option Ty} {es es' : List Expr}
  {asked asked' asked'' : List (Expr × Ty)}

theorem Asks.refl (asked : List (Expr × Ty)) : Asks S Γ es asked asked := fun _ hq => .inl hq

/-- What is asked on the way is asked for one of the expressions. -/
theorem Asks.trans (h : Asks S Γ es asked asked') (h' : Asks S Γ es' asked' asked'') :
    Asks S Γ (es ++ es') asked asked'' := by
  intro q hq
  rcases h' q hq with hq | ⟨he, hty⟩
  · exact (h q hq).imp id fun hnew => ⟨List.mem_append_left _ hnew.1, hnew.2⟩
  · exact .inr ⟨List.mem_append_right _ he, hty⟩

/-- A first question, on an expression of that type. -/
theorem Asks.cons {e : Expr} {ty : Ty} (he : HasType S Γ e ty)
    (h : Asks S Γ es (asked ++ [(e, ty)]) asked') : Asks S Γ (e :: es) asked asked' := by
  intro q hq
  rcases h q hq with hq | ⟨hes, hty⟩
  · rcases List.mem_append.1 hq with hq | hq
    · exact .inl hq
    · rw [List.mem_singleton.1 hq]
      exact .inr ⟨List.mem_cons_self, he⟩
  · exact .inr ⟨List.mem_cons_of_mem _ hes, hty⟩

/-- An expression is taken down before its parts are. -/
theorem ends_ask {α : Type} {m : AskM α} {e : Expr} {ty : Ty} {E : Fault → List (Expr × Ty) → Prop}
    (he : HasType S Γ e ty)
    (hm : ∀ asked, Ends m asked (fun _ asked' => Asks S Γ es asked asked') E)
    (asked : List (Expr × Ty)) :
    Ends (do ask e ty; m) asked (fun _ asked' => Asks S Γ (e :: es) asked asked') E :=
  ends_bind.2 ((hm (asked ++ [(e, ty)])).mono (fun _ _ h => h.cons he) fun _ _ h => h)

end Asks

section Typed
variable {s : Scope} {ps : List Pattern} {types : List Ty}

mutual

/-- Code generation for a typed expression asks for parts of it, each with a type it has. -/
theorem lowerAsked_asks (hfits : s.Fits ps types) {e : Expr} {ty : Ty}
    (he : HasType s.signatures.lookup (Pattern.argument? ps types) e ty) :
    ∀ asked, Ends (s.lowerAsked e ty) asked (fun _ asked' =>
      Asks s.signatures.lookup (Pattern.argument? ps types) e.parts asked asked')
      fun _ _ => True := by
  cases e with
  | lit value span =>
    rw [lowerAsked, Expr.parts]
    exact ends_ask he fun asked => .refl asked
  | call name args span =>
    rw [lowerAsked, Expr.parts]
    refine ends_ask he fun asked => ?_
    cases he with
    | param hx =>
      obtain ⟨i, -, -, hslot⟩ := hfits.slot_of_argument hx
      rw [hslot]
      exact .refl asked
    | call hx hsig hargs =>
      rw [(hfits.slot_of_no_argument hx).2]
      exact (lowerArgsAsked_asks hfits hargs asked).bind fun codes asked' h => h
  | binary left op right span =>
    have hparts : ∃ ty, HasType s.signatures.lookup (Pattern.argument? ps types) left ty ∧
        HasType s.signatures.lookup (Pattern.argument? ps types) right ty := by
      cases he with
      | arithmetic _ _ hleft hright => exact ⟨_, hleft, hright⟩
      | comparison _ hleft hright => exact ⟨_, hleft, hright⟩
    obtain ⟨ty', hleft, hright⟩ := hparts
    rw [lowerAsked, Expr.parts]
    refine ends_ask he fun asked => ?_
    rw [hleft.typeOf_eq hfits]
    refine (lowerAsked_asks hfits hleft asked).bind fun _ asked₁ h₁ => ?_
    exact (lowerAsked_asks hfits hright asked₁).bind fun _ asked₂ h₂ => h₁.trans h₂
  | cond test yes no span =>
    rw [lowerAsked, Expr.parts]
    refine ends_ask he fun asked => ?_
    cases he with
    | cond htest hyes hno =>
      refine (lowerAsked_asks hfits htest asked).bind fun _ asked₁ h₁ => ?_
      refine (lowerAsked_asks hfits hyes asked₁).bind fun _ asked₂ h₂ => ?_
      exact (lowerAsked_asks hfits hno asked₂).bind fun _ asked₃ h₃ => h₁.trans (h₂.trans h₃)

/-- While arguments are lowered, only types are asked that their parts have. -/
theorem lowerArgsAsked_asks (hfits : s.Fits ps types) {es : List Expr} {tys : List Ty}
    (hes : HaveTypes s.signatures.lookup (Pattern.argument? ps types) es tys) :
    ∀ asked, Ends (s.lowerArgsAsked es) asked (fun _ asked' =>
      Asks s.signatures.lookup (Pattern.argument? ps types) (partsOf es) asked asked')
      fun _ _ => True := by
  intro asked
  cases es with
  | nil => exact .refl asked
  | cons e es =>
    cases hes with
    | cons he hes =>
      rw [lowerArgsAsked, partsOf, he.typeOf_eq hfits]
      refine (lowerAsked_asks hfits he asked).bind fun _ asked₁ h₁ => ?_
      exact (lowerArgsAsked_asks hfits hes asked₁).bind fun _ asked₂ h₂ => h₁.trans h₂

end

end Typed

end Scope

/-! ## Accepted programs -/

namespace Compile

open Check (Note)

/-- **Both ways to find types agree.** When a program is accepted, take the notes of its check and a
clause of a function with a signature. At every part of the body of the clause, code generation
finds a type, and it is the one type that checking noted for that part; and whatever code is asked
for while the code of the clause is made, it is asked for with the type that checking noted. -/
theorem program_types_agree {p : Program} {out : Output} {j : Journal}
    (h : program p = (.ok out, j)) :
    ∃ s notes, (Check.validate p).run.run initial = (.ok out.signatures, s) ∧
      (Check.Traced.validate p).run.run ⟨initial, []⟩ = (.ok out.signatures, ⟨s, notes⟩) ∧
      ∀ f sig, out.signatures.lookup f = some sig → ∀ c ∈ p.clausesOf f,
        ∃ names code asked,
          Dispatch.slots c sig = .ok names ∧
          (∀ e ∈ c.body.parts, ∃ ty, (Scope.mk out.signatures names).typeOf e = .ok ty ∧
            ∀ ty', (⟨c, e, ty'⟩ : Note) ∈ notes ↔ ty' = ty) ∧
          Dispatch.clauseCode out.signatures sig c = .ok code ∧
          ((Scope.mk out.signatures names).lowerAsked c.body sig.result).run.run [] =
            (.ok code, asked) ∧
          ∀ e ty, (e, ty) ∈ asked → (⟨c, e, ty⟩ : Note) ∈ notes := by
  obtain ⟨⟨s, hcheck⟩, -⟩ := program_steps h
  have haccepted := (Check.validate_accepted p).of_ok hcheck
  obtain ⟨notes, htraced, hright, hall⟩ := Check.Traced.validate_notes hcheck
  refine ⟨s, notes, hcheck, htraced, fun f sig hsig c hc => ?_⟩
  obtain ⟨sig', hsig', hclause⟩ := haccepted.typing.clauses f (Assoc.has_of_value? hsig) c hc
  obtain rfl : sig = sig' := Option.some.inj (hsig.symm.trans hsig')
  obtain ⟨names, hnames, hfits⟩ := Dispatch.slots_fits out.signatures hclause.arity
  -- a note on a part of the clause has the type that is found again
  have hnote : ∀ e ty, (⟨c, e, ty⟩ : Note) ∈ notes →
      (Scope.mk out.signatures names).typeOf e = .ok ty := by
    intro e ty hmem
    obtain ⟨g, sig'', hg, hsig'', hty⟩ := hright _ hmem
    obtain rfl : g = f := (Program.mem_clausesOf.1 hg).2.symm.trans (Program.mem_clausesOf.1 hc).2
    obtain rfl : sig = sig'' := Option.some.inj (hsig.symm.trans hsig'')
    exact HasType.typeOf_eq hfits hty
  have hparts : ∀ e ∈ c.body.parts, ∃ ty, (Scope.mk out.signatures names).typeOf e = .ok ty ∧
      ∀ ty', (⟨c, e, ty'⟩ : Note) ∈ notes ↔ ty' = ty := by
    intro e he
    obtain ⟨ty, hmem⟩ := hall f sig hsig c hc e he
    refine ⟨ty, hnote e ty hmem, fun ty' => ⟨fun hmem' => ?_, fun heq => heq ▸ hmem⟩⟩
    exact Except.ok.inj ((hnote e ty' hmem').symm.trans (hnote e ty hmem))
  obtain ⟨code, hcode, -⟩ := hclause.body.lowered hfits
  have hvalue := (Scope.mk out.signatures names).lowerAsked_erases c.body sig.result []
  rw [hcode] at hvalue
  have hrun := run_eq_of_toOption (congrArg Except.toOption hvalue)
  refine ⟨names, code, _, hnames, hparts, Dispatch.clauseCode_eq hnames hcode, hrun,
    fun e ty hmem => ?_⟩
  have hasks := (Scope.lowerAsked_asks hfits hclause.body []).of_ok hrun
  rcases hasks (e, ty) hmem with hnil | ⟨he, hty⟩
  · cases hnil
  · obtain ⟨ty', hty', hiff⟩ := hparts e he
    have hfound := HasType.typeOf_eq hfits hty
    exact (hiff ty).2 (Except.ok.inj (hfound.symm.trans hty'))

/-- Of every part of the clauses of `odd`, the check and the code know the same type. -/
theorem program_types_agree_parity :
    ∃ out j s notes, program Check.parity = (.ok out, j) ∧
      (Check.Traced.validate Check.parity).run.run ⟨initial, []⟩ =
        (.ok out.signatures, ⟨s, notes⟩) ∧
      ∀ c ∈ Check.parity.clausesOf "odd", ∃ names, Dispatch.slots c ⟨[.int], .bool⟩ = .ok names ∧
        ∀ e ∈ c.body.parts, ∃ ty, (Scope.mk out.signatures names).typeOf e = .ok ty ∧
          (⟨c, e, ty⟩ : Note) ∈ notes := by
  have hodd : ((program Check.parity).1.toOption.map fun out => out.signatures.lookup "odd") =
      some (some ⟨[.int], .bool⟩) := by decide +kernel
  obtain ⟨out, hout, hsig⟩ := Option.map_eq_some_iff.1 hodd
  have hrun := run_eq_of_toOption hout
  obtain ⟨s, notes, -, htraced, hagree⟩ := program_types_agree hrun
  refine ⟨out, _, s, notes, hrun, htraced, fun c hc => ?_⟩
  obtain ⟨names, code, asked, hnames, hparts, -⟩ := hagree "odd" _ hsig c hc
  refine ⟨names, hnames, fun e he => ?_⟩
  obtain ⟨ty, hty, hnotes⟩ := hparts e he
  exact ⟨ty, hty, (hnotes ty).2 rfl⟩

end Compile

end Clausal
