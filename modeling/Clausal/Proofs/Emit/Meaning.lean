import Clausal.Proofs.Emit.WellTyped
import Clausal.Proofs.Semantics.Machine
import Clausal.Proofs.Semantics.Source

/-!
# Compilation preserves meaning

`program_preserves_meaning`: in the module of an accepted program, the code of a function finishes
with the representation of a value and with prints exactly if the function does so in the program,
and one traps exactly if the other does.

Both semantics spend fuel in the same places, so the two evaluations can be compared at equal fuel
(`Agrees`): they end in the same way, in states with the same prints, and neither is ever stuck.
The relation is carried through expressions (`Lowered.agrees`), guards (`exec_guard?`) and dispatch
(`Dispatched.agrees`) for any evaluation of calls that respects it, and an induction on the fuel
ties the knot (`Emission.agrees`).
-/

namespace Clausal

variable {F : Floats}

/-! ## Representation -/

namespace Source.Value

/-- The machine value of a value; a boolean is 0 or 1. -/
def rep : Value F → Wasm.Val F
  | .int n => .i32 n.toBitVec
  | .float x => .f32 x
  | .bool b => .i32 (Wasm.truth b)

/-- A value is represented by one of the machine type of its type. -/
theorem type_rep (v : Value F) : v.rep.type = v.ty.machine := by
  cases v <;> rfl

/-- Values of one type with one representation are equal. -/
theorem rep_inj {v w : Value F} (hty : v.ty = w.ty) (h : v.rep = w.rep) : v = w := by
  cases v with
  | int a =>
    cases w with
    | int b => exact congrArg Value.int (Int32.toBitVec_inj.1 (Wasm.Val.i32.inj h))
    | float | bool => cases hty
  | float x =>
    cases w with
    | float y => exact congrArg Value.float (Wasm.Val.f32.inj h)
    | int | bool => cases hty
  | bool a =>
    cases w with
    | bool b =>
      have hbits : Wasm.truth a = Wasm.truth b := Wasm.Val.i32.inj h
      revert hbits
      cases a <;> cases b <;> simp [Wasm.truth]
    | int | float => cases hty

end Source.Value

open Source (Value)

/-- The list holds the representation of a value of a type, and nothing else. -/
def Represents (ty : Ty) (v : Value F) (vs : List (Wasm.Val F)) : Prop :=
  v.ty = ty ∧ vs = [v.rep]

/-! ## Agreement -/

section Agrees
variable {α β γ δ : Type}

/-- Two evaluations ended in the same way, but not stuck: with related values and the same prints,
and with the memory as it was. -/
inductive SameEnd (R : α → β → Prop) (memory : Nat → BitVec 8) :
    Except Halt α × List Print → Except Halt β × Wasm.Store Print → Prop
  | ok {a : α} {b : β} {prints : List Print} : R a b →
      SameEnd R memory (.ok a, prints) (.ok b, ⟨memory, prints⟩)
  | error {e : Halt} {prints : List Print} : e ≠ .stuck →
      SameEnd R memory (.error e, prints) (.error e, ⟨memory, prints⟩)

/-- Two evaluations end in the same way whenever they start with the same prints. -/
def Agrees (R : α → β → Prop) (m : EvalM (List Print) α) (n : EvalM (Wasm.Store Print) β) : Prop :=
  ∀ prints memory, SameEnd R memory (m.run.run prints) (n.run.run ⟨memory, prints⟩)

variable {R : α → β → Prop} {m : EvalM (List Print) α} {n : EvalM (Wasm.Store Print) β}

theorem Agrees.pure {a : α} {b : β} (h : R a b) : Agrees R (Pure.pure a) (Pure.pure b) :=
  fun _ _ => .ok h

/-- A halt other than being stuck agrees with itself. -/
theorem Agrees.throw {e : Halt} (h : e ≠ .stuck) :
    Agrees R (MonadExcept.throw e) (MonadExcept.throw e) :=
  fun _ _ => .error h

/-- Evaluations that agree, one after the other. -/
theorem Agrees.bind {R' : γ → δ → Prop} {f : α → EvalM (List Print) γ}
    {g : β → EvalM (Wasm.Store Print) δ} (h : Agrees R m n)
    (hf : ∀ a b, R a b → Agrees R' (f a) (g b)) : Agrees R' (m >>= f) (n >>= g) := by
  intro prints memory
  have hends := h prints memory
  rw [run_bind, run_bind]
  generalize m.run.run prints = r at hends ⊢
  generalize n.run.run ⟨memory, prints⟩ = r' at hends ⊢
  cases hends with
  | @ok a b prints' hab => exact hf a b hab prints' memory
  | error he => exact .error he

end Agrees

section Outcomes
variable {ty : Ty} {m : EvalM (List Print) (Value F)}
  {n : EvalM (Wasm.Store Print) (List (Wasm.Val F))}

/-- Of two evaluations that agree, one gives a value exactly if the other one gives its
representation. -/
theorem Agrees.ok_iff (h : Agrees (Represents ty) m n) {v : Value F} {prints prints' : List Print}
    {memory : Nat → BitVec 8} : m.run.run prints = (.ok v, prints') ↔
      v.ty = ty ∧ ∃ memory', n.run.run ⟨memory, prints⟩ = (.ok [v.rep], ⟨memory', prints'⟩) := by
  have hends := h prints memory
  generalize m.run.run prints = r at hends ⊢
  generalize n.run.run ⟨memory, prints⟩ = r' at hends ⊢
  cases hends with
  | @ok w ws prints'' hrep =>
    obtain ⟨hw, rfl⟩ := hrep
    constructor
    · intro heq
      cases heq
      exact ⟨hw, memory, rfl⟩
    · rintro ⟨hv, memory', heq⟩
      obtain ⟨hws, hs⟩ := Prod.mk.inj heq
      cases hs
      have hwv := (List.cons.inj (Except.ok.inj hws)).1
      rw [Source.Value.rep_inj (hw.trans hv.symm) hwv]
  | error => exact ⟨nofun, fun ⟨_, _, heq⟩ => nomatch heq⟩

/-- Of two evaluations that agree, one halts exactly if the other one does. -/
theorem Agrees.error_iff (h : Agrees (Represents ty) m n) {e : Halt} {prints prints' : List Print}
    {memory : Nat → BitVec 8} : m.run.run prints = (.error e, prints') ↔
      ∃ memory', n.run.run ⟨memory, prints⟩ = (.error e, ⟨memory', prints'⟩) := by
  have hends := h prints memory
  generalize m.run.run prints = r at hends ⊢
  generalize n.run.run ⟨memory, prints⟩ = r' at hends ⊢
  cases hends with
  | ok => exact ⟨nofun, fun ⟨_, heq⟩ => nomatch heq⟩
  | error =>
    constructor
    · intro heq
      cases heq
      exact ⟨memory, rfl⟩
    · rintro ⟨memory', heq⟩
      cases heq
      rfl

end Outcomes

/-! ## Operators -/

/-- Two integers have no quotient in the program exactly if they have none on the machine. -/
theorem no_quotient_iff {a b : Int32} :
    (b = 0 ∨ (a = Int32.minValue ∧ b = -1)) ↔
      (b.toBitVec = 0 ∨ (a.toBitVec = BitVec.intMin 32 ∧ b.toBitVec = -1)) := by
  rw [← Int32.toBitVec_inj, ← Int32.toBitVec_inj (a := a), ← Int32.toBitVec_inj (b := -1)]
  exact Iff.rfl

/-- Integers are equal if their bits are. -/
theorem beq_toBitVec (a b : Int32) : (a.toBitVec == b.toBitVec) = (a == b) := by
  rw [Bool.eq_iff_iff, beq_iff_eq, beq_iff_eq, Int32.toBitVec_inj]

/-- Booleans are equal if their numbers are. -/
theorem beq_truth (a b : Bool) : (Wasm.truth a == Wasm.truth b) = (a == b) := by
  cases a <;> cases b <;> rfl

/-- The type of the result of an operator on operands of a type: arithmetic keeps the type, a
comparison gives a boolean. -/
def Op.Yields (op : Op) (ty out : Ty) : Prop :=
  op.isArithmetic = true ∧ ty ≠ .bool ∧ out = ty ∨ op.isArithmetic = false ∧ out = .bool

/-- An operator and its instruction: both give a value, of the type of the operands or a boolean,
or both trap. -/
theorem operate_apply {op : Op} {ty out : Ty} {a b : Value F} (ha : a.ty = ty) (hb : b.ty = ty)
    (hout : op.Yields ty out) :
    (∃ v, Source.operate op a b = .ok v ∧ v.ty = out ∧
      (op.instruction ty).apply ty.machine a.rep b.rep = .ok v.rep) ∨
    (Source.operate op a b = .error .trap ∧
      (op.instruction ty).apply ty.machine a.rep b.rep = .error .trap) := by
  subst ha
  cases a with
  | int a =>
    cases b with
    | float | bool => cases hb
    | int b =>
      cases op with
      | add | sub | mul =>
        rcases hout with ⟨-, -, rfl⟩ | ⟨h, -⟩
        · exact .inl ⟨_, rfl, rfl, rfl⟩
        · cases h
      | div =>
        rcases hout with ⟨-, -, rfl⟩ | ⟨h, -⟩
        · by_cases hno : b = 0 ∨ (a = Int32.minValue ∧ b = -1)
          · refine .inr ⟨if_pos hno, ?_⟩
            exact congrArg (Except.map Wasm.Val.i32) (if_pos (no_quotient_iff.1 hno))
          · refine .inl ⟨.int (a / b), if_neg hno, rfl, ?_⟩
            exact congrArg (Except.map Wasm.Val.i32)
              (if_neg fun h => hno (no_quotient_iff.2 h))
        · cases h
      | eq | ne =>
        rcases hout with ⟨h, -⟩ | ⟨-, rfl⟩
        · cases h
        · refine .inl ⟨_, rfl, rfl, ?_⟩
          simp [Op.instruction, Ty.machine, Value.ty, Value.rep, Wasm.Numeric.apply,
            Wasm.Numeric.ofInts, Except.map, bne, beq_toBitVec]
  | float a =>
    cases b with
    | int | bool => cases hb
    | float b =>
      cases op with
      | add | sub | mul | div =>
        rcases hout with ⟨-, -, rfl⟩ | ⟨h, -⟩
        · exact .inl ⟨_, rfl, rfl, rfl⟩
        · cases h
      | eq | ne =>
        rcases hout with ⟨h, -⟩ | ⟨-, rfl⟩
        · cases h
        · exact .inl ⟨_, rfl, rfl, rfl⟩
  | bool a =>
    cases b with
    | int | float => cases hb
    | bool b =>
      cases op with
      | add | sub | mul | div =>
        rcases hout with ⟨-, h, -⟩ | ⟨h, -⟩
        · exact absurd rfl h
        · cases h
      | eq | ne =>
        rcases hout with ⟨h, -⟩ | ⟨-, rfl⟩
        · cases h
        · refine .inl ⟨_, rfl, rfl, ?_⟩
          simp [Op.instruction, Ty.machine, Value.ty, Value.rep, Wasm.Numeric.apply,
            Wasm.Numeric.ofInts, Except.map, bne, beq_truth]

/-! ## Expressions -/

/-- Calls with arguments of the types that the signatures demand agree. -/
def CallsAgree (S : String → Option Signature) (invoke : Source.Invoke F)
    (machine : Wasm.Invoke F Print) : Prop :=
  ∀ f sig (vs : List (Value F)), S f = some sig → vs.map Value.ty = sig.params →
    Agrees (Represents sig.result) (invoke f vs) (machine f (vs.map Value.rep))

/-- The code of a literal gives its value. -/
theorem exec_literal {size : Nat} {machine : Wasm.Invoke F Print} {frame : Wasm.Frame F}
    (value : Literal) :
    Wasm.exec size machine frame value.code = pure [(Value.ofLiteral value).rep] := by
  cases value with
  | int n => rw [Literal.code, Wasm.exec]; rfl
  | float text => rw [Literal.code, Wasm.exec]; rfl
  | bool b =>
    rw [Literal.code, Wasm.exec]
    cases b <;> rfl

/-- The code of an argument position gives the argument. -/
theorem exec_argument {size : Nat} {machine : Wasm.Invoke F Print} {params : Wasm.Params}
    {args : List (Value F)} {i : Nat} {v : Value F} (h : args[i]? = some v) :
    Wasm.exec size machine ⟨params, args.map Value.rep⟩ (.localGet (.index i)) = pure [v.rep] := by
  have hlocal : Wasm.Frame.local? ⟨params, args.map Value.rep⟩ (.index i) = some v.rep := by
    show (args.map Value.rep)[i]? = some v.rep
    rw [List.getElem?_map, h]
    rfl
  rw [Wasm.exec, hlocal]

section Expressions
variable {S : String → Option Signature} {invoke : Source.Invoke F}
  {machine : Wasm.Invoke F Print} {size : Nat} {params : Wasm.Params} {ps : List Pattern}
  {args : List (Value F)}

/-- An operator agrees with its instruction, if the operands do. -/
theorem binary_agrees {env : String → Option (Value F)} {frame : Wasm.Frame F}
    {left right : Expr} {op : Op} {span : Span} {l r : Wasm.Instr} {ty out : Ty}
    (hl : Agrees (Represents ty) (Source.eval invoke env left) (Wasm.exec size machine frame l))
    (hr : Agrees (Represents ty) (Source.eval invoke env right) (Wasm.exec size machine frame r))
    (hout : op.Yields ty out) :
    Agrees (Represents out) (Source.eval invoke env (.binary left op right span))
      (Wasm.exec size machine frame (.numeric ty.machine (op.instruction ty) l r)) := by
  rw [Source.eval, Wasm.exec]
  refine hl.bind ?_
  rintro a vs ⟨ha, rfl⟩
  rw [Wasm.single, pure_bind]
  refine hr.bind ?_
  rintro b ws ⟨hb, rfl⟩
  rw [Wasm.single, pure_bind]
  rcases operate_apply ha hb hout with ⟨v, hv, hty, hmachine⟩ | ⟨htrap, hmachine⟩
  · rw [hv, hmachine]
    exact fun _ _ => .ok ⟨hty, rfl⟩
  · rw [htrap, hmachine]
    exact fun _ _ => .error (by decide)

mutual

/-- **The code of an expression agrees with the expression**, if calls do. -/
theorem Lowered.agrees (hcalls : CallsAgree S invoke machine) {types : List Ty}
    (hargs : args.map Value.ty = types) {e : Expr} {ty : Ty} {code : Wasm.Instr} :
    Lowered S ps types e ty code →
      Agrees (Represents ty) (Source.eval invoke (Pattern.argument? ps args) e)
        (Wasm.exec size machine ⟨params, args.map Value.rep⟩ code)
  | .lit => by
    rw [Source.eval, exec_literal]
    exact .pure ⟨Value.ty_ofLiteral _, rfl⟩
  | .param hpos hty => by
    rw [← hargs, List.getElem?_map] at hty
    obtain ⟨v, hv, rfl⟩ := Option.map_eq_some_iff.1 hty
    rw [Source.eval, Pattern.argument?_of_position hpos, hv, exec_argument hv]
    exact .pure ⟨rfl, rfl⟩
  | .call hpos hsig hes => by
    rw [Source.eval, Pattern.argument?_of_no_position hpos, Wasm.exec]
    refine (hes.agrees hcalls hargs).bind ?_
    rintro vs ws ⟨htypes, rfl⟩
    exact hcalls _ _ vs hsig htypes
  | .arithmetic hop hne hl hr =>
    binary_agrees (hl.agrees hcalls hargs) (hr.agrees hcalls hargs) (.inl ⟨hop, hne, rfl⟩)
  | .comparison hop hl hr =>
    binary_agrees (hl.agrees hcalls hargs) (hr.agrees hcalls hargs) (.inr ⟨hop, rfl⟩)
  | .cond ht hy hn => by
    rw [Source.eval, Wasm.exec]
    refine (ht.agrees hcalls hargs).bind ?_
    rintro c vs ⟨hc, rfl⟩
    cases c with
    | int | float => cases hc
    | bool b =>
      rw [Value.rep, Wasm.integer, pure_bind, Wasm.execAll_singleton,
        Wasm.execAll_singleton]
      cases b with
      | true => exact hy.agrees hcalls hargs
      | false => exact hn.agrees hcalls hargs

/-- The codes of arguments agree with the arguments, if calls do. -/
theorem LoweredArgs.agrees (hcalls : CallsAgree S invoke machine) {types : List Ty}
    (hargs : args.map Value.ty = types) {es : List Expr} {tys : List Ty}
    {codes : List Wasm.Instr} : LoweredArgs S ps types es tys codes →
      Agrees (fun vs ws => vs.map Value.ty = tys ∧ ws = vs.map Value.rep)
        (Source.evalArgs invoke (Pattern.argument? ps args) es)
        (Wasm.execArgs size machine ⟨params, args.map Value.rep⟩ codes)
  | .nil => by
    rw [Source.evalArgs, Wasm.execArgs]
    exact .pure ⟨rfl, rfl⟩
  | .cons he hes => by
    rw [Source.evalArgs, Wasm.execArgs]
    refine (he.agrees hcalls hargs).bind ?_
    rintro v ws ⟨rfl, rfl⟩
    rw [Wasm.single, pure_bind]
    refine (hes.agrees hcalls hargs).bind ?_
    rintro vs ws ⟨rfl, rfl⟩
    exact .pure ⟨rfl, rfl⟩

end

end Expressions

/-! ## Guards and dispatch -/

section Guards
variable {machine : Wasm.Invoke F Print} {size : Nat} {frame : Wasm.Frame F}
  {params : Wasm.Params} {args : List (Value F)}

/-- The instruction that compares two values of a type. -/
theorem apply_eq {v w : Value F} (h : v.ty = w.ty) :
    Wasm.Numeric.eq.apply v.ty.machine v.rep w.rep = .ok (.i32 (Wasm.truth (v.equal w))) := by
  cases v with
  | int a =>
    cases w with
    | int b =>
      show Except.ok (Wasm.Val.i32 (Wasm.truth (a.toBitVec == b.toBitVec))) = _
      rw [beq_toBitVec]
      rfl
    | float | bool => cases h
  | float a =>
    cases w with
    | float b => rfl
    | int | bool => cases h
  | bool a =>
    cases w with
    | bool b =>
      show Except.ok (Wasm.Val.i32 (Wasm.truth (Wasm.truth a == Wasm.truth b))) = _
      rw [beq_truth]
      rfl
    | int | float => cases h

/-- The comparison of an argument with a literal of its type. -/
theorem exec_test {i : Nat} {v : Value F} {value : Literal} (hv : args[i]? = some v)
    (hty : v.ty = value.ty) :
    Wasm.exec size machine ⟨params, args.map Value.rep⟩
        (.numeric value.ty.machine .eq (.localGet (.index i)) value.code) =
      pure [.i32 (Wasm.truth (v.equal (.ofLiteral value)))] := by
  have heq := apply_eq (hty.trans (Value.ty_ofLiteral value).symm)
  rw [hty] at heq
  exact Wasm.exec_numeric_of_pure (exec_argument hv) (exec_literal value) heq

/-- The conjunction of two conditions. -/
theorem exec_and {a b : Bool} {left right : Wasm.Instr}
    (hleft : Wasm.exec size machine frame left = pure [.i32 (Wasm.truth a)])
    (hright : Wasm.exec size machine frame right = pure [.i32 (Wasm.truth b)]) :
    Wasm.exec size machine frame (.numeric .i32 .and left right) =
      pure [.i32 (Wasm.truth (a && b))] := by
  refine Wasm.exec_numeric_of_pure hleft hright ?_
  cases a <;> cases b <;> rfl

/-- The comparisons of the literals from a position on decide whether the arguments from there on
are accepted; without comparisons they are. -/
theorem exec_tests {index : Nat} {ps : List Pattern} (hlen : index + ps.length = args.length)
    (hliterals : ∀ (i : Nat) (value : Literal) (span : Span), ps[i]? = some (.lit value span) →
      ∃ v, args[index + i]? = some v ∧ v.ty = value.ty) :
    match Dispatch.conjunction? (Dispatch.tests index ps) with
    | none => Source.accepts ps (args.drop index) = true
    | some guard => Wasm.exec size machine ⟨params, args.map Value.rep⟩ guard =
        pure [.i32 (Wasm.truth (Source.accepts ps (args.drop index)))] := by
  induction ps generalizing index with
  | nil =>
    have hnil : args.drop index = [] := List.drop_eq_nil_of_le (Nat.le_of_eq hlen.symm)
    rw [hnil]
    rfl
  | cons p ps ih =>
    rw [List.length_cons] at hlen
    have hlt : index < args.length := by omega
    have hshift : ∀ (i : Nat) (value : Literal) (span : Span), ps[i]? = some (.lit value span) →
        ∃ v, args[index + 1 + i]? = some v ∧ v.ty = value.ty := by
      intro i value span hi
      rw [Nat.add_assoc, Nat.add_comm 1 i]
      exact hliterals (i + 1) value span hi
    have hrest := ih (by omega) hshift
    rw [List.drop_eq_getElem_cons hlt]
    cases p with
    | name n span => exact hrest
    | lit value span =>
      obtain ⟨v, hv, hty⟩ := hliterals 0 value span rfl
      rw [Nat.add_zero, List.getElem?_eq_getElem hlt] at hv
      cases hv
      -- this literal's comparison alone, or joined to the guard of the parameters after it
      rw [Dispatch.tests, Dispatch.conjunction?_cons]
      dsimp only
      rw [Source.accepts]
      cases hconj : Dispatch.conjunction? (Dispatch.tests (index + 1) ps) with
      | none =>
        rw [hconj] at hrest
        dsimp only at hrest
        rw [hrest, Bool.and_true]
        exact exec_test (List.getElem?_eq_getElem hlt) hty
      | some guard =>
        rw [hconj] at hrest
        exact exec_and (exec_test (List.getElem?_eq_getElem hlt) hty) hrest

/-- The guard of a clause decides whether the clause accepts the arguments. -/
theorem exec_guard? (machine : Wasm.Invoke F Print) (size : Nat) (params : Wasm.Params)
    {sig : Signature} {c : Clause} (hc : c.Fits sig) (hargs : args.map Value.ty = sig.params) :
    match Dispatch.guard? c with
    | none => Source.accepts c.params args = true
    | some guard => Wasm.exec size machine ⟨params, args.map Value.rep⟩ guard =
        pure [.i32 (Wasm.truth (Source.accepts c.params args))] := by
  have hlen : 0 + c.params.length = args.length := by
    rw [Nat.zero_add, hc.arity, ← hargs, List.length_map]
  refine exec_tests hlen fun i value span hi => ?_
  have hty := hc.literals i value span hi
  rw [← hargs, List.getElem?_map] at hty
  rw [Nat.zero_add]
  exact Option.map_eq_some_iff.1 hty

end Guards

section Dispatch
variable {S : String → Option Signature} {invoke : Source.Invoke F}
  {machine : Wasm.Invoke F Print} {size : Nat} {params : Wasm.Params} {args : List (Value F)}

/-- A clause that accepts the arguments is the one that is evaluated. -/
theorem Source.select_of_accepts {c : Clause} {cs : List Clause}
    (h : accepts c.params args = true) :
    select invoke (c :: cs) args = eval invoke (Pattern.argument? c.params args) c.body := by
  unfold select
  rw [List.find?_cons, h]

/-- A clause that does not accept the arguments is passed over. -/
theorem Source.select_of_not_accepts {c : Clause} {cs : List Clause}
    (h : accepts c.params args = false) :
    select invoke (c :: cs) args = select invoke cs args := by
  unfold select
  rw [List.find?_cons, h]

/-- **The code of clauses agrees with the first clause that accepts the arguments**, if calls
do. -/
theorem Dispatched.agrees (hcalls : CallsAgree S invoke machine) {sig : Signature}
    (hargs : args.map Value.ty = sig.params) {clauses : List Clause} {code : Wasm.Instr}
    (hclauses : ∀ c ∈ clauses, c.HasSignature S sig) (h : Dispatched S sig clauses code) :
    Agrees (Represents sig.result) (Source.select invoke clauses args)
      (Wasm.exec size machine ⟨params, args.map Value.rep⟩ code) := by
  induction h with
  | @catchAll c cs code hall hcode =>
    have haccepts : Source.accepts c.params args = true := by
      have hguard := exec_guard? machine size params (hclauses c List.mem_cons_self).fits hargs
      rw [Dispatch.guard?_eq_none_iff.2 hall] at hguard
      exact hguard
    rw [Source.select_of_accepts haccepts]
    exact hcode.agrees hcalls hargs
  | @guarded c cs guard code rest hguard hcode _ ih =>
    have hexec := exec_guard? machine size params (hclauses c List.mem_cons_self).fits hargs
    rw [hguard] at hexec
    rw [Wasm.exec, hexec, pure_bind, Wasm.integer, pure_bind, Wasm.execAll_singleton,
      Wasm.execAll_singleton]
    cases haccepts : Source.accepts c.params args with
    | true =>
      rw [Source.select_of_accepts haccepts]
      exact hcode.agrees hcalls hargs
    | false =>
      rw [Source.select_of_not_accepts haccepts]
      exact ih fun c' hc' => hclauses c' (List.mem_cons_of_mem _ hc')

end Dispatch

/-! ## Programs -/

/-- The printing functions are the same events. -/
theorem print_agrees {f : String} {vs : List (Value F)} (h : vs.map Value.ty = [.int]) :
    Agrees (Represents .int) (Source.print f vs) (Wasm.print f (vs.map Value.rep)) := by
  match vs with
  | [.int n] => exact fun _ _ => .ok ⟨rfl, rfl⟩

/-- A function is found under its name, if no two functions have one name. -/
theorem Wasm.find?_of_mem {fs : List Func} (hnd : (fs.map (·.name)).Nodup) {g : Func}
    (hg : g ∈ fs) : (fs.find? fun f => f.name = g.name) = some g := by
  induction fs with
  | nil => cases hg
  | cons f fs ih =>
    rw [List.map_cons, List.nodup_cons] at hnd
    rcases List.mem_cons.1 hg with rfl | hg
    · exact List.find?_cons_of_pos (by simp)
    · have hne : f.name ≠ g.name := fun h => hnd.1 (h ▸ List.mem_map.2 ⟨g, hg, rfl⟩)
      rw [List.find?_cons_of_neg (by simpa using hne)]
      exact ih hnd.2 hg

namespace Emission

variable {p : Program} {table : SignatureTable} {user : List Wasm.Func} {m : Wasm.Module}

/-- The functions of the program have no built-in names. -/
theorem user_not_builtin (h : Emission p table user m) (hp : p.Registrable) {g : Wasm.Func}
    (hg : g ∈ user) : ¬ Builtin.signatures.has g.name = true := by
  obtain ⟨⟨l, hl, hname⟩, -⟩ := h.mem_names_iff.1 (List.mem_map.2 ⟨g, hg, rfl⟩)
  exact fun hb => hp.free l hl (.inl (hname ▸ hb))

/-- A function of the module is found under its name. -/
theorem find?_of_mem (h : Emission p table user m) (hp : p.Registrable) {g : Wasm.Func}
    (hg : g ∈ m.functions) : (m.functions.find? fun f => f.name = g.name) = some g := by
  have hnd := h.distinct hp
  unfold Wasm.Module.types Assoc.names at hnd
  rw [List.map_append, List.map_map, List.map_map] at hnd
  exact Wasm.find?_of_mem (List.nodup_append.1 hnd).2.1 hg

/-- **Calls agree at every fuel**: a function of the program and the function of the module with
its name end in the same way. -/
theorem agrees (h : Emission p table user m) (hp : p.Accepted table) (fuel : Nat) :
    CallsAgree (F := F) table.lookup (Source.invoke p fuel) (m.invoke Wasm.prints fuel) := by
  induction fuel with
  | zero => exact fun _ _ _ _ _ => .throw (by decide)
  | succ fuel ih =>
    -- one unit of fuel is spent on both sides, so the calls in the body agree by induction
    intro f sig vs hsig hvs
    rw [Source.invoke, Wasm.Module.invoke]
    unfold Wasm.prints
    rcases h.function_of_signature hp hsig with ⟨q, hq, rfl, rfl⟩ | ⟨g, hg, rfl, hcompiled⟩
    · obtain ⟨hb, hint⟩ := Builtin.signature_of_mem_functions q hq
      rw [hint] at hvs ⊢
      rw [if_pos hb, if_pos hb]
      exact print_agrees hvs
    · have hb : ¬ Builtin.signatures.has g.name = true := h.user_not_builtin hp.registrable hg
      obtain ⟨code, hbody, hcode⟩ := hcompiled.body
      have htypes : (vs.map Value.rep).map Wasm.Val.type = g.params.types := by
        rw [hcompiled.params, Wasm.Params.types, ← hvs, List.map_map, List.map_map]
        exact List.map_congr_left fun v _ => v.type_rep
      rw [if_neg hb, if_neg hb, h.find?_of_mem hp.registrable (h.user_mem hg)]
      dsimp only
      rw [if_pos htypes, hbody, Wasm.execAll_singleton]
      exact hcode.agrees ih hvs hcompiled.typed

/-- A function of the module that a line of the program is about is the code of its clauses. -/
theorem mem_user (h : Emission p table user m) (hp : p.Registrable) {g : Wasm.Func}
    (hg : g ∈ m.functions) (hname : p.Names g.name) : g ∈ user := by
  obtain ⟨l, hl, hlname⟩ := hname
  have hfree : ¬ SystemName g.name := hlname ▸ hp.free l hl
  rw [h.functions] at hg
  rcases List.mem_append.1 hg with hg | hg
  · rcases List.mem_cons.1 hg with rfl | hg
    · exact absurd (by decide) hfree
    · exact hg
  · have hsystem : ∀ f ∈ Builtin.functions.map (·.1), SystemName f.name := by decide
    exact absurd (hsystem g hg) hfree

end Emission

namespace Compile

/-- **Compilation preserves meaning.** The tree that is emitted for an accepted program is read as a
module. Take any function of that module that a line of the program is about. It has a signature,
and for all arguments of its types: the call finishes with a value and some prints in the program
exactly if the call of the emitted function finishes with the representation of the value and the
same prints on the machine, and it traps in the program exactly if it traps on the machine. This
holds for any floating-point arithmetic, and whatever the memory holds. -/
theorem program_preserves_meaning (F : Floats) {p : Program} {out : Output} {j : Journal}
    (h : program p = (.ok out, j)) :
    ∃ m, Wasm.Module.ofSexp? out.code.toSexp = some m ∧
      ∀ g ∈ m.functions, p.Names g.name →
        ∃ sig, out.signatures.lookup g.name = some sig ∧
          ∀ args : List (Value F), args.map Value.ty = sig.params → ∀ memory,
            (∀ v prints, Source.Finishes p g.name args v prints ↔
              v.ty = sig.result ∧
                Wasm.Finishes m memory g.name (args.map Value.rep) [v.rep] prints) ∧
            (∀ prints, Source.Traps p g.name args prints ↔
              Wasm.Traps m memory g.name (args.map Value.rep) prints) := by
  obtain ⟨haccepted, user, hemission⟩ := program_emission h
  refine ⟨out.code, hemission.ofSexp?_toSexp, fun g hg hname => ?_⟩
  have hguser := hemission.mem_user haccepted.registrable hg hname
  obtain ⟨sig, hsig, -⟩ := hemission.compiled g hguser
  refine ⟨sig, hsig, fun args hargs memory => ?_⟩
  have hagrees : ∀ fuel, Agrees (Represents sig.result) (Source.invoke p fuel g.name args)
      (out.code.invoke Wasm.prints fuel g.name (args.map Value.rep)) :=
    fun fuel => hemission.agrees haccepted fuel g.name sig args hsig hargs
  constructor
  · intro v prints
    constructor
    · rintro ⟨fuel, hrun⟩
      obtain ⟨hty, hmachine⟩ := (hagrees fuel).ok_iff.1 hrun
      exact ⟨hty, fuel, hmachine⟩
    · rintro ⟨hty, fuel, hmachine⟩
      exact ⟨fuel, (hagrees fuel).ok_iff.2 ⟨hty, hmachine⟩⟩
  · intro prints
    exact exists_congr fun fuel => (hagrees fuel).error_iff

/-- Floating-point arithmetic with one number. -/
def onePoint : Floats where
  Carrier := Unit
  ofText _ := ()
  add _ _ := ()
  sub _ _ := ()
  mul _ _ := ()
  div _ _ := ()
  eq _ _ := true
  ne _ _ := false

/-- The program prints and returns one, in its source and as a module. -/
theorem program_preserves_meaning_parity :
    ∃ out j m, program Check.parity = (.ok out, j) ∧
      Wasm.Module.ofSexp? out.code.toSexp = some m ∧
      "main" ∈ m.functions.map (·.name) ∧ Check.parity.Names "main" ∧
      Source.Finishes Check.parity "main" [] (.int 1 : Value onePoint) [⟨"printi", 1⟩] ∧
      ∀ memory, Wasm.Finishes m memory "main" []
        [(.i32 1 : Wasm.Val onePoint)] [⟨"printi", 1⟩] := by
  have hout : ((program Check.parity).1.toOption.map fun out =>
      ((Wasm.Module.ofSexp? out.code.toSexp).map fun m => m.functions.map (·.name),
        out.signatures.lookup "main")) =
      some (some ["_start", "even", "odd", "main", "printc", "printu", "printi"],
        some ⟨[], .int⟩) := by
    decide +kernel
  have hnames : Check.parity.Names "main" := by decide +kernel
  have hsource : Source.Finishes Check.parity "main" [] (.int 1 : Value onePoint)
      [⟨"printi", 1⟩] := ⟨12, rfl⟩
  obtain ⟨out, hout, hfacts⟩ := Option.map_eq_some_iff.1 hout
  obtain ⟨hfunctions, hlookup⟩ := Prod.mk.inj hfacts
  have h := run_eq_of_toOption hout
  obtain ⟨m, hm, hprogram⟩ := program_preserves_meaning onePoint h
  rw [hm] at hfunctions
  have hfunctions : m.functions.map (·.name) =
    ["_start", "even", "odd", "main", "printc", "printu", "printi"] := Option.some.inj hfunctions
  have hmem : "main" ∈ m.functions.map (·.name) := by
    rw [hfunctions]
    decide
  obtain ⟨g, hg, hname⟩ := List.mem_map.1 hmem
  refine ⟨out, _, m, h, hm, hmem, hnames, hsource, fun memory => ?_⟩
  obtain ⟨sig, hsig, hmeaning⟩ := hprogram g hg (hname ▸ hnames)
  rw [hname] at hsig hmeaning
  cases hlookup.symm.trans hsig
  exact (((hmeaning [] rfl memory).1 _ _).1 hsource).2

end Compile

end Clausal
