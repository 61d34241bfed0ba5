import Clausal.Compile
import Clausal.Proofs.Check.Sound
import Clausal.Proofs.Wasm.Reading

/-!
# The code of a program

What code generation makes of a checked program, as relations between source and code that say
nothing of how the code is found: `Lowered` for expressions, `Dispatched` for the clauses of a
function, `Compiled` for a function and `Emission` for a module. Statements about emitted code are
proved by induction on these relations.

* `HasType.lowered`: a typed expression has code, and the types that code generation finds again
  are those of the typing.
* `body_spec`: the clauses of a function have code unless every one of them has a literal
  parameter.
* `program_emission`: an accepted program is checked, and its module is the frame around the code
  of the functions that have a signature.
* `Emission.ofSexp?_toSexp`: the tree that is emitted for such a module is read as it.
-/

namespace Clausal

open Wasm

/-! ## Expressions -/

mutual

/-- The code of an expression of a type, in a clause with the parameters `ps` of types `types`. -/
inductive Lowered (S : String → Option Signature) (ps : List Pattern) (types : List Ty) :
    Expr → Ty → Instr → Prop
  | lit {value : Literal} {span : Span} : Lowered S ps types (.lit value span) value.ty value.code
  | param {x : String} {i : Nat} {ty : Ty} {span : Span} : Pattern.position? x ps = some i →
      types[i]? = some ty → Lowered S ps types (.call x [] span) ty (.localGet (.index i))
  | call {f : String} {sig : Signature} {args : List Expr} {codes : List Instr} {span : Span} :
      Pattern.position? f ps = none → S f = some sig →
      LoweredArgs S ps types args sig.params codes →
      Lowered S ps types (.call f args span) sig.result (.call f codes)
  | arithmetic {left right : Expr} {op : Op} {ty : Ty} {l r : Instr} {span : Span} :
      op.isArithmetic = true → ty ≠ .bool → Lowered S ps types left ty l →
      Lowered S ps types right ty r →
      Lowered S ps types (.binary left op right span) ty
        (.numeric ty.machine (op.instruction ty) l r)
  | comparison {left right : Expr} {op : Op} {ty : Ty} {l r : Instr} {span : Span} :
      op.isArithmetic = false → Lowered S ps types left ty l → Lowered S ps types right ty r →
      Lowered S ps types (.binary left op right span) .bool
        (.numeric ty.machine (op.instruction ty) l r)
  | cond {test yes no : Expr} {ty : Ty} {t y n : Instr} {span : Span} :
      Lowered S ps types test .bool t → Lowered S ps types yes ty y →
      Lowered S ps types no ty n →
      Lowered S ps types (.cond test yes no span) ty (.cond (some ty.machine) t [y] [n])

/-- The codes of the arguments of a call, one by one. -/
inductive LoweredArgs (S : String → Option Signature) (ps : List Pattern) (types : List Ty) :
    List Expr → List Ty → List Instr → Prop
  | nil : LoweredArgs S ps types [] [] []
  | cons {e : Expr} {es : List Expr} {ty : Ty} {tys : List Ty} {code : Instr}
      {codes : List Instr} : Lowered S ps types e ty code → LoweredArgs S ps types es tys codes →
      LoweredArgs S ps types (e :: es) (ty :: tys) (code :: codes)

end

/-- The slots of a scope are the positions of parameters `ps` of types `types`. -/
structure Scope.Fits (s : Scope) (ps : List Pattern) (types : List Ty) : Prop where
  arity : ps.length = types.length
  slots : ∀ x, s.slots.value? x =
    (Pattern.position? x ps).bind fun i => types[i]?.map fun ty => ⟨i, ty⟩

section Expressions
variable {s : Scope} {ps : List Pattern} {types : List Ty}

/-- A parameter is found at the last position of its name, with its type. -/
theorem Scope.Fits.slot_of_argument (h : s.Fits ps types) {x : String} {ty : Ty}
    (hx : Pattern.argument? ps types x = some ty) :
    ∃ i : Nat, Pattern.position? x ps = some i ∧ types[i]? = some ty ∧
      s.slots.value? x = some ⟨i, ty⟩ := by
  obtain ⟨i, hi, hty⟩ := Option.bind_eq_some_iff.1 hx
  refine ⟨i, hi, hty, ?_⟩
  rw [h.slots, hi, Option.bind_some, hty]
  rfl

/-- A name that is no parameter has no position. -/
theorem Scope.Fits.slot_of_no_argument (h : s.Fits ps types) {x : String}
    (hx : Pattern.argument? ps types x = none) :
    Pattern.position? x ps = none ∧ s.slots.value? x = none := by
  have hpos := (Pattern.argument?_eq_none_iff (Nat.le_of_eq h.arity)).1 hx
  refine ⟨hpos, ?_⟩
  rw [h.slots, hpos]
  rfl

/-- The type that is found again from parameters and signatures is the type of the expression. -/
theorem HasType.typeOf_eq (h : s.Fits ps types) {e : Expr} {ty : Ty}
    (he : HasType s.signatures.lookup (Pattern.argument? ps types) e ty) :
    s.typeOf e = .ok ty := by
  cases e with
  | lit => cases he; rfl
  | call =>
    rw [Scope.typeOf]
    cases he with
    | param hx =>
      obtain ⟨i, -, -, hslot⟩ := h.slot_of_argument hx
      rw [hslot]
    | call hx hsig =>
      rw [(h.slot_of_no_argument hx).2, hsig]
  | binary left op right span =>
    rw [Scope.typeOf]
    cases he with
    | arithmetic hop _ hleft =>
      rw [if_pos hop]
      exact hleft.typeOf_eq h
    | comparison hop =>
      rw [hop]
      rfl
  | cond test yes no span =>
    rw [Scope.typeOf]
    cases he with
    | cond _ hyes => exact hyes.typeOf_eq h

/-- The code of a binary expression from those of its operands. -/
theorem Scope.lower_binary {left right : Expr} {op : Op} {span : Span} {ty out : Ty} {l r : Instr}
    (hty : s.typeOf left = .ok ty) (hl : s.lower left ty = .ok l) (hr : s.lower right ty = .ok r) :
    s.lower (.binary left op right span) out =
      .ok (.numeric ty.machine (op.instruction ty) l r) := by
  rw [Scope.lower, hty]
  show (do let leftCode ← s.lower left ty; _) = _
  rw [hl]
  show (do let rightCode ← s.lower right ty; _) = _
  rw [hr]
  rfl

mutual

/-- **A typed expression has code.** -/
theorem HasType.lowered (h : s.Fits ps types) {e : Expr} {ty : Ty} :
    HasType s.signatures.lookup (Pattern.argument? ps types) e ty →
      ∃ code, s.lower e ty = .ok code ∧ Lowered s.signatures.lookup ps types e ty code
  | .lit => ⟨_, by rw [Scope.lower], .lit⟩
  | .param hx => by
    obtain ⟨i, hi, hty, hslot⟩ := h.slot_of_argument hx
    refine ⟨_, ?_, .param hi hty⟩
    rw [Scope.lower, hslot]
  | .call hx hsig hargs => by
    obtain ⟨hpos, hslot⟩ := h.slot_of_no_argument hx
    obtain ⟨codes, hcodes, hlowered⟩ := hargs.lowered h
    refine ⟨_, ?_, .call hpos hsig hlowered⟩
    rw [Scope.lower, hslot, hcodes]
    rfl
  | .arithmetic hop hne hleft hright => by
    obtain ⟨l, hl, hleft'⟩ := hleft.lowered h
    obtain ⟨r, hr, hright'⟩ := hright.lowered h
    exact ⟨_, Scope.lower_binary (hleft.typeOf_eq h) hl hr, .arithmetic hop hne hleft' hright'⟩
  | .comparison hop hleft hright => by
    obtain ⟨l, hl, hleft'⟩ := hleft.lowered h
    obtain ⟨r, hr, hright'⟩ := hright.lowered h
    exact ⟨_, Scope.lower_binary (hleft.typeOf_eq h) hl hr, .comparison hop hleft' hright'⟩
  | .cond htest hyes hno => by
    obtain ⟨t, ht, htest'⟩ := htest.lowered h
    obtain ⟨y, hy, hyes'⟩ := hyes.lowered h
    obtain ⟨n, hn, hno'⟩ := hno.lowered h
    refine ⟨_, ?_, .cond htest' hyes' hno'⟩
    rw [Scope.lower, ht, hy, hn]
    rfl

/-- Typed arguments have codes. -/
theorem HaveTypes.lowered (h : s.Fits ps types) {es : List Expr} {tys : List Ty} :
    HaveTypes s.signatures.lookup (Pattern.argument? ps types) es tys →
      ∃ codes, s.lowerArgs es = .ok codes ∧
        LoweredArgs s.signatures.lookup ps types es tys codes
  | .nil => ⟨_, by rw [Scope.lowerArgs], .nil⟩
  | .cons he hes => by
    obtain ⟨code, hcode, he'⟩ := he.lowered h
    obtain ⟨codes, hcodes, hes'⟩ := hes.lowered h
    refine ⟨_, ?_, .cons he' hes'⟩
    rw [Scope.lowerArgs, he.typeOf_eq h]
    show (do let code ← s.lower _ _; _) = _
    rw [hcode, hcodes]
    rfl

end

end Expressions

/-! ## Clauses -/

/-- The code of the clauses of a function: under its guard the code of a clause, otherwise that of
the clauses after it, up to the first clause without literals. -/
inductive Dispatched (S : String → Option Signature) (sig : Signature) : List Clause → Instr → Prop
  | catchAll {c : Clause} {cs : List Clause} {code : Instr} : c.isCatchAll = true →
      Lowered S c.params sig.params c.body sig.result code → Dispatched S sig (c :: cs) code
  | guarded {c : Clause} {cs : List Clause} {guard code rest : Instr} :
      Dispatch.guard? c = some guard → Lowered S c.params sig.params c.body sig.result code →
      Dispatched S sig cs rest →
      Dispatched S sig (c :: cs) (.cond (some sig.result.machine) guard [code] [rest])

/-- A function is the code of clauses, which all have its signature. -/
structure Compiled (S : String → Option Signature) (sig : Signature) (clauses : List Clause)
    (f : Func) : Prop where
  typed : ∀ c ∈ clauses, c.HasSignature S sig
  params : f.params = .positional (sig.params.map Ty.machine)
  result : f.result = some sig.result.machine
  internal : f.exportAs = none
  body : ∃ code, f.body = [code] ∧ Dispatched S sig clauses code

namespace Dispatch

variable {table : SignatureTable} {sig : Signature}

/-- There are no tests if there are no literals. -/
theorem tests_eq_nil_iff (index : Nat) (ps : List Pattern) :
    tests index ps = [] ↔ ps.any Pattern.isLiteral = false := by
  induction ps generalizing index with
  | nil => exact ⟨fun _ => rfl, fun _ => rfl⟩
  | cons p ps ih =>
    cases p with
    | name n span => exact ih (index + 1)
    | lit value span => exact ⟨nofun, nofun⟩

/-- A condition before others, if there are any, is joined to them. -/
theorem conjunction?_cons (code : Instr) (codes : List Instr) :
    conjunction? (code :: codes) =
      some ((conjunction? codes).elim code (.numeric .i32 .and code)) := by
  induction codes generalizing code with
  | nil => rfl
  | cons code' codes ih =>
    rw [conjunction?, ih]
    · rfl
    · nofun

/-- Only no conditions have no conjunction. -/
theorem conjunction?_eq_none_iff {codes : List Instr} : conjunction? codes = none ↔ codes = [] := by
  cases codes with
  | nil => exact ⟨fun _ => rfl, fun _ => rfl⟩
  | cons code codes =>
    rw [conjunction?_cons]
    exact ⟨nofun, nofun⟩

/-- The clauses without a guard are those that take everything. -/
theorem guard?_eq_none_iff {c : Clause} : guard? c = none ↔ c.isCatchAll = true := by
  unfold guard? Clause.isCatchAll
  rw [conjunction?_eq_none_iff, tests_eq_nil_iff, Bool.not_eq_true']

/-- No name is beyond the arguments if there are no more parameters than these. -/
theorem nameBeyond?_eq_none {bound index : Nat} {ps : List Pattern}
    (h : index + ps.length ≤ bound) : nameBeyond? bound index ps = none := by
  induction ps generalizing index with
  | nil => rfl
  | cons p ps ih =>
    rw [List.length_cons] at h
    have hrest : nameBeyond? bound (index + 1) ps = none := ih (by omega)
    cases p with
    | name n span => rw [nameBeyond?, if_neg (by omega), hrest]
    | lit value span => rw [nameBeyond?, hrest]

/-- A position of a signature has its number and its type. -/
theorem getElem?_positions (sig : Signature) (i : Nat) :
    (positions sig)[i]? = sig.params[i]?.map fun ty => ⟨i, ty⟩ := by
  simp [positions, Function.comp_def]

/-- The slots of a clause with a signature are the positions of its parameters. -/
theorem slots_fits (table : SignatureTable) {c : Clause}
    (harity : c.params.length = sig.params.length) :
    ∃ names, slots c sig = .ok names ∧ (Scope.mk table names).Fits c.params sig.params := by
  have hlen : c.params.length ≤ (positions sig).length := by
    simp [positions, harity]
  refine ⟨Assoc.ofPairs (Pattern.bindings c.params (positions sig)), ?_, harity, fun x => ?_⟩
  · unfold slots
    rw [nameBeyond?_eq_none (by omega)]
  · show Assoc.value? (Assoc.ofPairs (Pattern.bindings c.params (positions sig))) x = _
    rw [Pattern.value?_ofPairs_bindings hlen]
    unfold Pattern.argument?
    simp only [getElem?_positions]

/-- The code of a clause is that of its body, under its slots. -/
theorem clauseCode_eq {c : Clause} {names : Assoc Slot} {code : Instr}
    (hnames : slots c sig = .ok names)
    (hcode : (Scope.mk table names).lower c.body sig.result = .ok code) :
    clauseCode table sig c = .ok code := by
  unfold clauseCode
  rw [hnames]
  dsimp only [bind, Except.bind]
  rw [hcode]
  rfl

/-- A clause with a signature has code. -/
theorem clauseCode_lowered {c : Clause} (hc : c.HasSignature table.lookup sig) :
    ∃ code, clauseCode table sig c = .ok code ∧
      Lowered table.lookup c.params sig.params c.body sig.result code := by
  obtain ⟨names, hnames, hfits⟩ := slots_fits table hc.arity
  obtain ⟨code, hcode, hlowered⟩ := hc.body.lowered hfits
  exact ⟨code, clauseCode_eq hnames hcode, hlowered⟩

/-- Clauses with a signature have code if one of them takes everything. -/
theorem branches_dispatched {clauses : List Clause} {s : Split} (hs : split? clauses = some s)
    (hclauses : ∀ c ∈ clauses, c.HasSignature table.lookup sig) :
    ∃ otherwise code, clauseCode table sig s.catchAll = .ok otherwise ∧
      branches table sig otherwise s.guarded = .ok code ∧
      Dispatched table.lookup sig clauses code := by
  induction clauses generalizing s with
  | nil => cases hs
  | cons c cs ih =>
    obtain ⟨code, hcode, hlowered⟩ := clauseCode_lowered (hclauses c List.mem_cons_self)
    rw [split?] at hs
    split at hs
    · next hall =>
      cases hs
      exact ⟨code, code, hcode, rfl, .catchAll hall hlowered⟩
    · next hall =>
      obtain ⟨s', hs', rfl⟩ := Option.map_eq_some_iff.1 hs
      obtain ⟨otherwise, rest, hotherwise, hrest, hdispatched⟩ :=
        ih hs' fun c' hc' => hclauses c' (List.mem_cons_of_mem _ hc')
      cases hguard : guard? c with
      | none => exact absurd (guard?_eq_none_iff.1 hguard) hall
      | some guard =>
        refine ⟨otherwise, _, hotherwise, ?_, .guarded hguard hlowered hdispatched⟩
        rw [branches, hrest]
        dsimp only [bind, Except.bind]
        rw [hguard, hcode]
        rfl

/-! ## Functions -/

theorem ends_liftM_ok {α : Type} {a : α} {j : Journal} {Q : α → Journal → Prop}
    {E : Stop → Journal → Prop} :
    Ends (liftM (.ok a : Except Stop α) : EmitM α) j Q E ↔ Q a j := Iff.rfl

/-- **Clauses with a signature have code**, unless every one of them has a literal parameter. -/
theorem body_spec {name : String} {clauses : List Clause} {span : Option Span} {j : Journal}
    (hclauses : ∀ c ∈ clauses, c.HasSignature table.lookup sig) :
    Ends (body table name clauses sig span) j
      (fun code _ => Dispatched table.lookup sig clauses code)
      (fun e _ => split? clauses = none ∧ ∃ at?, e = .fault ⟨.notCovered name, at?⟩) := by
  unfold body
  cases hs : split? clauses with
  | none => exact ⟨rfl, _, rfl⟩
  | some s =>
    obtain ⟨otherwise, code, hotherwise, hcode, hdispatched⟩ := branches_dispatched hs hclauses
    refine Ends.bind (Ends.forM (I := fun _ _ => True) (fun _ _ _ _ _ _ => trivial) trivial)
      fun _ t _ => ?_
    rw [hotherwise, ends_bind, ends_liftM_ok, hcode, ends_bind, ends_liftM_ok]
    exact hdispatched

/-- The clauses of a function with a signature make up a function of that signature. -/
theorem function_spec {name : String} {clauses : List Clause} {span : Option Span} {j : Journal}
    (hsig : table.lookup name = some sig)
    (hclauses : ∀ c ∈ clauses, c.HasSignature table.lookup sig) :
    Ends (function table name clauses span) j
      (fun f _ => f.name = name ∧ Compiled table.lookup sig clauses f)
      (fun e _ => split? clauses = none ∧ ∃ at?, e = .fault ⟨.notCovered name, at?⟩) := by
  unfold function
  rw [hsig]
  exact (body_spec hclauses).bind fun code t hcode =>
    ⟨rfl, hclauses, rfl, rfl, rfl, code, rfl, hcode⟩

end Dispatch

namespace Compile

/-- The functions with a signature are emitted in order, each as the code of its clauses. -/
theorem emitFunctions_spec {table : SignatureTable} {fs : List (String × Span × List Clause)}
    {j : Journal}
    (hfs : ∀ f ∈ fs, ∀ sig, table.lookup f.1 = some sig →
      ∀ c ∈ f.2.2, c.HasSignature table.lookup sig) :
    Ends (emitFunctions table fs) j
      (fun user _ => user.map (·.name) = (fs.map (·.1)).filter table.has ∧
        ∀ g ∈ user, ∃ f ∈ fs, ∃ sig, f.1 = g.name ∧ table.lookup g.name = some sig ∧
          Compiled table.lookup sig f.2.2 g)
      fun _ _ => True := by
  induction fs generalizing j with
  | nil => exact ⟨rfl, nofun⟩
  | cons f fs ih =>
    obtain ⟨name, span, clauses⟩ := f
    have hrest : ∀ f ∈ fs, ∀ sig, table.lookup f.1 = some sig →
        ∀ c ∈ f.2.2, c.HasSignature table.lookup sig :=
      fun f hf => hfs f (List.mem_cons_of_mem _ hf)
    rw [emitFunctions]
    split
    · next hhas =>
      obtain ⟨sig, hsig⟩ := Option.isSome_iff_exists.1 hhas
      have hsig : table.lookup name = some sig := hsig
      refine Ends.bind ((Dispatch.function_spec hsig (hfs _ List.mem_cons_self sig hsig)).mono
        (fun _ _ h => h) fun _ _ _ => trivial) ?_
      rintro g t ⟨rfl, hg⟩
      refine (ih hrest).bind fun user u ⟨hnames, huser⟩ => ⟨?_, fun g' hg' => ?_⟩
      · rw [List.map_cons, List.map_cons, List.filter_cons_of_pos hhas, hnames]
      · rcases List.mem_cons.1 hg' with rfl | hg'
        · exact ⟨_, List.mem_cons_self, sig, rfl, hsig, hg⟩
        · obtain ⟨f, hf, h⟩ := huser g' hg'
          exact ⟨f, List.mem_cons_of_mem _ hf, h⟩
    · next hhas =>
      refine Ends.bind (m := Dispatch.record _) (Q := fun _ _ => True) trivial fun _ t _ => ?_
      refine (ih hrest).mono (fun user u ⟨hnames, huser⟩ => ⟨?_, fun g hg => ?_⟩) fun _ _ h => h
      · rw [List.map_cons, List.filter_cons_of_neg hhas, hnames]
      · obtain ⟨f, hf, h⟩ := huser g hg
        exact ⟨f, List.mem_cons_of_mem _ hf, h⟩

end Compile

/-! ## Programs -/

/-- The functions of a program are those that lines are about, each once and with its clauses. -/
structure Program.Grouped (lines : List Line) (m : Assoc (Span × List Clause)) : Prop where
  nodup : m.names.Nodup
  clauses : ∀ f, (m.value? f).map (·.2) =
    if f ∈ lines.map Line.name then some ((lines.filterMap Line.clause?).filter fun c => c.name = f)
    else none

/-- One more line adds its clause to the function it is about. -/
theorem Program.Grouped.snoc {lines : List Line} {m : Assoc (Span × List Clause)} (l : Line)
    (h : Grouped lines m) :
    Grouped (lines ++ [l]) (m.put l.name (((m.value? l.name).getD (l.span, [])).1,
      ((m.value? l.name).getD (l.span, [])).2 ++ l.clause?.toList)) := by
  constructor
  · rw [Assoc.names_put]
    split
    · exact h.nodup
    · next hnew =>
      rw [Assoc.has_iff_mem_names] at hnew
      exact List.nodup_append.2 ⟨h.nodup, List.nodup_cons.2 ⟨nofun, List.nodup_nil⟩,
        fun a ha b hb heq => hnew (List.mem_singleton.1 hb ▸ heq ▸ ha)⟩
  · intro f
    have hold := h.clauses f
    rw [Assoc.value?_put]
    simp only [List.map_append, List.mem_append, List.map_cons, List.map_nil, List.mem_singleton,
      List.filterMap_append, List.filter_append]
    by_cases hf : l.name = f
    · subst hf
      have hone : ((List.filterMap Line.clause? [l]).filter fun c => c.name = l.name) =
          l.clause?.toList := by
        cases l with
        | decl d => rfl
        | clause c => simp [Line.clause?, Line.name]
      rw [if_pos rfl, if_pos (.inr rfl), hone]
      cases hm : m.value? l.name with
      | some x =>
        rw [hm] at hold
        split at hold
        · exact congrArg (fun cs => some (cs ++ l.clause?.toList)) (Option.some.inj hold)
        · cases hold
      | none =>
        rw [hm] at hold
        split at hold
        · cases hold
        · next hno =>
          have hnil : ((lines.filterMap Line.clause?).filter fun c => c.name = l.name) = [] := by
            refine List.filter_eq_nil_iff.2 fun c hc hname => hno ?_
            obtain ⟨l', hl', hc⟩ := List.mem_filterMap.1 hc
            cases l' with
            | decl d => cases hc
            | clause c' =>
              cases hc
              exact List.mem_map.2 ⟨_, hl', of_decide_eq_true hname⟩
          rw [hnil]
          rfl
    · have hnone : ((List.filterMap Line.clause? [l]).filter fun c => c.name = f) = [] := by
        cases l with
        | decl d => rfl
        | clause c => simpa [Line.clause?, Line.name] using hf
      have hne : ¬ f = l.name := fun h => hf h.symm
      rw [if_neg hf, hold, hnone, List.append_nil]
      simp only [hne, or_false]

/-- The functions of a program are its lines, grouped by name. -/
theorem Program.grouped_functions (p : Program) : Grouped p.lines p.functions := by
  have key : ∀ (rest done : List Line) (m : Assoc (Span × List Clause)), Grouped done m →
      Grouped (done ++ rest) (rest.foldl (fun m l =>
        m.put l.name (((m.value? l.name).getD (l.span, [])).1,
          ((m.value? l.name).getD (l.span, [])).2 ++ l.clause?.toList)) m) := by
    intro rest
    induction rest with
    | nil => exact fun done m h => (List.append_nil done).symm ▸ h
    | cons l rest ih =>
      intro done m h
      have hstep := ih (done ++ [l]) _ (h.snoc l)
      rw [List.append_assoc, List.singleton_append] at hstep
      exact hstep
  exact key p.lines [] [] ⟨List.nodup_nil, fun f => rfl⟩

/-- The functions of a program are the names of its lines. -/
theorem Program.mem_names_functions {p : Program} {f : String} :
    f ∈ p.functions.names ↔ p.Names f := by
  have h := p.grouped_functions.clauses f
  rw [← Assoc.has_iff_mem_names, Assoc.has]
  cases hv : p.functions.value? f with
  | none =>
    rw [hv] at h
    split at h
    · cases h
    · next hno =>
      constructor
      · intro hf
        cases hf
      · rintro ⟨l, hl, hname⟩
        exact absurd (List.mem_map.2 ⟨l, hl, hname⟩) hno
  | some x =>
    rw [hv] at h
    split at h
    · next hyes =>
      obtain ⟨l, hl, hname⟩ := List.mem_map.1 hyes
      exact ⟨fun _ => ⟨l, hl, hname⟩, fun _ => rfl⟩
    · cases h

/-- A function of a program comes with its clauses. -/
theorem Program.clauses_of_mem_functions {p : Program} {f : String × Span × List Clause}
    (hf : f ∈ p.functions) : f.2.2 = p.clausesOf f.1 := by
  have hgrouped := p.grouped_functions
  have h := hgrouped.clauses f.1
  rw [(Assoc.value?_eq_some_iff hgrouped.nodup).2 hf] at h
  split at h
  · exact Option.some.inj h
  · cases h

/-- The clauses of a function of an accepted program have its signature. -/
theorem Program.Accepted.hasSignature {p : Program} {table : SignatureTable} (h : p.Accepted table)
    {f : String × Span × List Clause} (hf : f ∈ p.functions) (sig : Signature)
    (hsig : table.lookup f.1 = some sig) : ∀ c ∈ f.2.2, c.HasSignature table.lookup sig := by
  intro c hc
  rw [Program.clauses_of_mem_functions hf] at hc
  obtain ⟨sig', hsig', hc⟩ := h.typing.clauses f.1 (Assoc.has_of_value? hsig) c hc
  cases hsig.symm.trans hsig'
  exact hc

/-- The module of a program: the frame, the code `user` of the functions that have a signature, and
the built-in functions. -/
structure Emission (p : Program) (table : SignatureTable) (user : List Func) (m : Module) :
    Prop where
  imports : m.imports = [Builtin.fdWrite]
  functions : m.functions =
    Builtin.start Check.entryPoint :: user ++ Builtin.functions.map (·.1)
  names : user.map (·.name) = p.functions.names.filter table.has
  compiled : ∀ f ∈ user, ∃ sig, table.lookup f.name = some sig ∧
    Compiled table.lookup sig (p.clausesOf f.name) f

namespace Compile

/-- The module of an accepted program is made up of the code of its functions. -/
theorem emit_spec {p : Program} {table : SignatureTable} (h : p.Accepted table) {j : Journal} :
    Ends (emit p table) j (fun m _ => ∃ user, Emission p table user m) fun _ _ => True := by
  refine (emitFunctions_spec fun f => h.hasSignature).bind fun user t ⟨hnames, huser⟩ => ?_
  refine ⟨user, rfl, rfl, hnames, fun g hg => ?_⟩
  obtain ⟨f, hf, sig, hname, hsig, hcompiled⟩ := huser g hg
  rw [Program.clauses_of_mem_functions hf, hname] at hcompiled
  exact ⟨sig, hsig, hcompiled⟩

/-- A compilation that gives a result is a check that returns and a code generation that does. -/
theorem program_steps {p : Program} {out : Output} {j : Journal} (h : program p = (.ok out, j)) :
    (∃ s, (Check.validate p).run.run initial = (.ok out.signatures, s)) ∧
      ∃ j', (emit p out.signatures).run.run [] = (.ok out.code, j') := by
  unfold program at h
  split at h
  · cases h
  · next table s hcheck =>
    split at h
    · cases h
    · next code j' hemit =>
      cases h
      exact ⟨⟨s, hcheck⟩, j', hemit⟩

/-- **An accepted program** is checked, and its module is the code of its functions. -/
theorem program_emission {p : Program} {out : Output} {j : Journal}
    (h : program p = (.ok out, j)) :
    p.Accepted out.signatures ∧ ∃ user, Emission p out.signatures user out.code := by
  obtain ⟨⟨s, hcheck⟩, j', hemit⟩ := program_steps h
  have haccepted := (Check.validate_accepted p).of_ok hcheck
  exact ⟨haccepted, (emit_spec haccepted).of_ok hemit⟩

end Compile

namespace Emission

variable {p : Program} {table : SignatureTable} {user : List Func} {m : Module}

/-- The emitted functions are those of the program that have a signature. -/
theorem mem_names_iff (h : Emission p table user m) {f : String} :
    f ∈ user.map (·.name) ↔ p.Names f ∧ table.has f = true := by
  rw [h.names, List.mem_filter, Program.mem_names_functions]

/-- A function with a signature is built in, or emitted as the code of its clauses. -/
theorem function_of_signature (h : Emission p table user m) (hp : p.Accepted table) {f : String}
    {sig : Signature} (hf : table.lookup f = some sig) :
    (∃ q ∈ Builtin.functions, q.1.name = f ∧ q.2 = sig) ∨
      ∃ g ∈ user, g.name = f ∧ Compiled table.lookup sig (p.clausesOf f) g := by
  have hhas := Assoc.has_of_value? hf
  rcases hp.scope f hhas with hb | hn
  · obtain ⟨sig', hsig'⟩ := Option.isSome_iff_exists.1 hb
    cases hf.symm.trans (hp.typing.builtins f sig' hsig')
    obtain ⟨q, hq, hpair⟩ := List.mem_map.1 (Assoc.mem_of_value? hsig')
    cases hpair
    exact .inl ⟨q, hq, rfl, rfl⟩
  · obtain ⟨g, hg, rfl⟩ := List.mem_map.1 (h.mem_names_iff.2 ⟨hn, hhas⟩)
    obtain ⟨sig', hsig', hcompiled⟩ := h.compiled g hg
    cases hf.symm.trans hsig'
    exact .inr ⟨g, hg, rfl, hcompiled⟩

/-- A function of the module is the start function, the code of clauses, or built in. -/
theorem mem_functions (h : Emission p table user m) {f : Func} (hf : f ∈ m.functions) :
    f = Builtin.start Check.entryPoint ∨ f ∈ user ∨ f ∈ Builtin.functions.map (·.1) := by
  rw [h.functions, List.mem_append, List.mem_cons] at hf
  exact or_assoc.1 hf

/-- A module exports its start function and no other. -/
theorem exports (h : Emission p table user m) {f : Func} (hf : f ∈ m.functions) :
    ∀ e ∈ f.exportAs, e = "_start" := by
  have hbuiltin : ∀ g ∈ Builtin.functions.map (·.1), g.exportAs = none := by decide
  intro e he
  rcases h.mem_functions hf with rfl | hf | hf
  · exact (Option.some.inj he).symm
  · obtain ⟨sig, -, hcompiled⟩ := h.compiled f hf
    rw [hcompiled.internal] at he
    cases he
  · rw [hbuiltin f hf] at he
    cases he

/-- The tree of an emitted module tells the module. -/
theorem readable (h : Emission p table user m) : m.Readable := by
  have hbuiltin : ∀ g ∈ Builtin.functions.map (·.1), g.params ≠ .named [] := by decide
  refine ⟨fun i hi => ?_, fun f hf => ⟨?_, fun e he => ?_⟩⟩
  · rw [h.imports] at hi
    cases List.mem_singleton.1 hi
    exact ⟨rfl, rfl⟩
  · rcases h.mem_functions hf with rfl | hf | hf
    · exact Params.noConfusion
    · obtain ⟨sig, -, hcompiled⟩ := h.compiled f hf
      rw [hcompiled.params]
      exact Params.noConfusion
    · exact hbuiltin f hf
  · rw [h.exports hf e he]
    rfl

/-- **An emitted module is what its tree is read as.** -/
theorem ofSexp?_toSexp (h : Emission p table user m) : Module.ofSexp? m.toSexp = some m :=
  Module.ofSexp?_toSexp h.readable

end Emission

end Clausal
