import Clausal.Proofs.Emit.Meaning
import Clausal.Proofs.Emit.Spine

/-!
# Dispatch takes the first clause that fits

`body_selects_first`: the body of a function evaluates to the code of the first clause whose
literals equal the arguments, for clauses that fit a signature in the number of their parameters and
in the types of their literals. Nothing is assumed of the bodies of the clauses: they may be ill
typed, and a clause whose body calls a function without a signature may have no code at all. That is
the only reason besides a missing clause without literals for which there is no body
(`code?_gives`).

`Reaches` follows the evaluation of an instruction into the branches that it takes, so that it can
be said which leaf of the chain is evaluated, and not only that the outcome is the one of that leaf.
-/

namespace Clausal

open Wasm

variable {F : Floats}

instance (c : Clause) (sig : Signature) : Decidable (c.Fits sig) :=
  decidable_of_iff (c.params.length = sig.params.length ∧
      (Check.literalMismatch? c.params sig.params).isNone = true)
    ⟨fun h => ⟨h.1, (Check.literalMismatch?_eq_none_iff h.1).1 (Option.isNone_iff_eq_none.1 h.2)⟩,
      fun h => ⟨h.arity, Option.isNone_iff_eq_none.2
        ((Check.literalMismatch?_eq_none_iff h.arity).2 h.literals)⟩⟩

/-! ## The way of an evaluation -/

namespace Wasm

variable {size : Nat} {invoke : Invoke F Print} {frame : Frame F}

/-- The evaluation of one instruction comes to another one below it. Each conditional on the way has
a test that leaves a number and does nothing else, and the way goes on in the branch that the number
chooses; the list says which branch that is. -/
inductive Reaches (size : Nat) (invoke : Invoke F Print) (frame : Frame F) :
    List Bool → Instr → Instr → Prop
  | here {code : Instr} : Reaches size invoke frame [] code code
  | yes {way : List Bool} {result : Option Machine} {test code target : Instr} {no : List Instr}
      {n : BitVec 32} : exec size invoke frame test = pure [.i32 n] → n ≠ 0 →
      Reaches size invoke frame way code target →
      Reaches size invoke frame (true :: way) (.cond result test [code] no) target
  | no {way : List Bool} {result : Option Machine} {test code target : Instr} {yes : List Instr} :
      exec size invoke frame test = pure [.i32 0] → Reaches size invoke frame way code target →
      Reaches size invoke frame (false :: way) (.cond result test yes [code]) target

/-- An instruction is evaluated as the one that its evaluation comes to. -/
theorem Reaches.exec_eq {way : List Bool} {code target : Instr}
    (h : Reaches size invoke frame way code target) :
    exec size invoke frame code = exec size invoke frame target := by
  induction h with
  | here => rfl
  | yes htest hn _ ih =>
    rw [exec, htest, pure_bind, integer, pure_bind, if_pos hn, execAll_singleton, ih]
  | no htest _ ih =>
    rw [exec, htest, pure_bind, integer, pure_bind, if_neg fun h => h rfl, execAll_singleton, ih]

/-- The way to a leaf of a chain of `n` conditionals: past the conditionals before it, and into the
next one unless there is none. -/
def wayTo (n leaf : Nat) : List Bool :=
  List.replicate leaf false ++ if leaf < n then [true] else []

/-- The way to a later leaf goes on to the other branch. -/
theorem wayTo_succ_succ (n leaf : Nat) :
    wayTo (n + 1) (leaf + 1) = false :: wayTo n leaf := by
  simp [wayTo, List.replicate_succ]

end Wasm

/-! ## Clauses without code -/

namespace Scope

/-- A function that is asked for is not found. -/
def Missing (f : Fault) : Prop :=
  ∃ g span, f = ⟨.notFound g, span⟩

/-- Asking for a type fails only if a name is missing. -/
theorem typeOf_gives (s : Scope) (e : Expr) : Gives (s.typeOf e) (fun _ => True) Missing := by
  fun_induction typeOf s e with
  | case1 | case2 | case3 | case6 => trivial
  | case4 name _ span => exact ⟨name, span, rfl⟩
  | case5 left _ _ _ _ ih => exact ih
  | case7 _ yes _ _ ih => exact ih

mutual

/-- An expression has code, unless a function in it is not found. -/
theorem lower_gives (s : Scope) : ∀ e ty, Gives (s.lower e ty) (fun _ => True) Missing
  | .lit .., _ => by
    rw [lower]
    trivial
  | .call name args _, _ => by
    rw [lower]
    split
    · trivial
    · exact (lowerArgs_gives s args).bind fun _ _ => trivial
  | .binary left _ right _, _ => by
    rw [lower]
    exact (typeOf_gives s left).bind fun ty _ => (lower_gives s left ty).bind fun _ _ =>
      (lower_gives s right ty).bind fun _ _ => trivial
  | .cond test yes no _, ty => by
    rw [lower]
    exact (lower_gives s test .bool).bind fun _ _ => (lower_gives s yes ty).bind fun _ _ =>
      (lower_gives s no ty).bind fun _ _ => trivial

/-- Arguments have codes, unless a function in them is not found. -/
theorem lowerArgs_gives (s : Scope) : ∀ es, Gives (s.lowerArgs es) (fun _ => True) Missing
  | [] => by
    rw [lowerArgs]
    trivial
  | e :: es => by
    rw [lowerArgs]
    exact (typeOf_gives s e).bind fun ty _ => (lower_gives s e ty).bind fun _ _ =>
      (lowerArgs_gives s es).bind fun _ _ => trivial

end

end Scope

namespace Dispatch

variable {table : SignatureTable} {sig : Signature} {guarded clauses : List Clause} {last : Clause}

/-- A clause with as many parameters as the signature has code, unless a function in it is not
found. -/
theorem clauseCode_gives {c : Clause} (hc : c.Fits sig) :
    Gives (clauseCode table sig c) (fun _ => True)
      fun e => ∃ f, e = .fault f ∧ Scope.Missing f := by
  obtain ⟨names, hnames, -⟩ := slots_fits table hc.arity
  have hlower := (Scope.mk table names).lower_gives c.body sig.result
  unfold clauseCode
  rw [hnames]
  dsimp only [bind, Except.bind]
  split
  · trivial
  · next f hf => exact ⟨f, rfl, hlower.of_error hf⟩

/-- Making the branches fails only if a name is missing. -/
theorem branches_gives {otherwise : Instr} (h : ∀ c ∈ guarded, c.Fits sig) :
    Gives (branches table sig otherwise guarded) (fun _ => True)
      fun e => ∃ f, e = .fault f ∧ Scope.Missing f := by
  induction guarded with
  | nil => trivial
  | cons c cs ih =>
    obtain ⟨hc, hcs⟩ := List.forall_mem_cons.1 h
    rw [branches]
    refine (ih hcs).bind fun rest _ => ?_
    split
    · trivial
    · exact (clauseCode_gives hc).bind fun _ _ => trivial

/-- Cut clauses have code, unless a function in one of them is not found. -/
theorem code?_gives {s : Split} (h : ∀ c ∈ s.guarded ++ [s.catchAll], c.Fits sig) :
    Gives (s.code? table sig) (fun _ => True) fun e => ∃ f, e = .fault f ∧ Scope.Missing f :=
  (clauseCode_gives (h _ (List.mem_append_right _ List.mem_cons_self))).bind fun _ _ =>
    branches_gives fun c hc => h c (List.mem_append_left _ hc)

/-- **A body is refused for coverage exactly if every clause has a literal.** -/
theorem run_body_notCovered_iff (h : ∀ c ∈ clauses, c.Fits sig) {name f : String}
    {span at? : Option Span} {j t : Journal} :
    (body table name clauses sig span).run.run j = (.error (.fault ⟨.notCovered f, at?⟩), t) ↔
      (∀ c ∈ clauses, ∃ q ∈ c.params, q.isLiteral = true) ∧
        f = name ∧ at? = (clauses.getLast?.map (·.span)).or span ∧ t = j := by
  have hcovered : (∀ c ∈ clauses, ∃ q ∈ c.params, q.isLiteral = true) ↔ split? clauses = none := by
    simp [split?_eq_none_iff, Covered]
  rw [hcovered]
  cases hs : split? clauses with
  | none =>
    rw [run_body_uncovered hs]
    constructor
    · intro heq
      cases heq
      exact ⟨rfl, rfl, rfl, rfl⟩
    · rintro ⟨-, rfl, rfl, rfl⟩
      rfl
  | some s =>
    refine ⟨fun hrun => ?_, fun hno => by cases hno.1⟩
    obtain ⟨hok, herror⟩ := run_body table name sig span hs j
    obtain ⟨rfl, -, -⟩ := split?_eq_some_iff.1 hs
    have hcode : Gives (s.code? table sig) _ _ := code?_gives fun c hc => h c (by
      rw [List.append_cons]
      exact List.mem_append_left _ hc)
    cases hcode' : s.code? table sig with
    | ok code =>
      rw [hok code hcode'] at hrun
      cases hrun
    | error e =>
      obtain ⟨f', rfl, g, at', rfl⟩ := hcode.of_error hcode'
      rw [herror _ hcode'] at hrun
      cases hrun

/-! ## Selection -/

/-- **The evaluation of a chain comes to the leaf of the first clause that accepts the arguments.**
The induction is on the clauses with literals: the guard of the first one decides between its leaf
and the chain of the others. -/
theorem Spine.reaches_first (size : Nat) (invoke : Invoke F Print) (params : Params)
    (h : ∀ c ∈ guarded ++ [last], c.Fits sig) (hlast : last.isCatchAll = true)
    {args : List (Source.Value F)} (hargs : args.map Source.Value.ty = sig.params)
    (s : Spine table sig guarded last) :
    ∃ i target, ((guarded ++ [last]).findIdx? fun c => Source.accepts c.params args) = some i ∧
      s.leaves[i]? = some target ∧
      Reaches size invoke ⟨params, args.map Source.Value.rep⟩ (wayTo guarded.length i) s.code
        target := by
  induction guarded with
  | nil =>
    have haccepts := exec_guard? invoke size params (h last List.mem_cons_self) hargs
    rw [guard?_eq_none_iff.2 hlast] at haccepts
    have hguards := List.eq_nil_of_length_eq_zero s.length_guards
    have hcodes := List.eq_nil_of_length_eq_zero s.length_codes
    refine ⟨0, s.otherwise, ?_, ?_, ?_⟩
    · rw [List.nil_append, List.findIdx?_cons, haccepts]
      rfl
    · rw [Spine.leaves, hcodes]
      rfl
    · rw [Spine.code, hguards]
      exact .here
  | cons c cs ih =>
    obtain ⟨guard, code, hguard, hcode, rest, rfl⟩ := s.exists_cons
    have hexec := exec_guard? invoke size params (h c List.mem_cons_self) hargs
    rw [hguard] at hexec
    dsimp only at hexec
    cases haccepts : Source.accepts c.params args with
    | true =>
      rw [haccepts] at hexec
      refine ⟨0, code, ?_, rfl, .yes hexec (by decide) .here⟩
      rw [List.cons_append, List.findIdx?_cons, haccepts]
      rfl
    | false =>
      rw [haccepts] at hexec
      obtain ⟨i, target, hfirst, hleaf, hreaches⟩ :=
        ih (fun c' hc' => h c' (List.mem_cons_of_mem _ hc')) rest
      refine ⟨i + 1, target, ?_, hleaf, ?_⟩
      · rw [List.cons_append, List.findIdx?_cons, haccepts, hfirst]
        rfl
      · rw [List.length_cons, wayTo_succ_succ]
        exact .no hexec hreaches

/-- That leaf is the code of the first clause that accepts the arguments. Clauses after the one
without literals make no difference. -/
theorem Spine.selects_first (size : Nat) (invoke : Invoke F Print) (params : Params)
    (h : ∀ c ∈ guarded ++ [last], c.Fits sig) (hlast : last.isCatchAll = true)
    {args : List (Source.Value F)} (hargs : args.map Source.Value.ty = sig.params)
    (s : Spine table sig guarded last) (later : List Clause) :
    ∃ i d target,
      ((guarded ++ last :: later).findIdx? fun d => Source.accepts d.params args) = some i ∧
      (guarded ++ last :: later)[i]? = some d ∧ clauseCode table sig d = .ok target ∧
      Reaches size invoke ⟨params, args.map Source.Value.rep⟩ (wayTo guarded.length i) s.code
        target := by
  obtain ⟨i, target, hfirst, hleaf, hreaches⟩ :=
    s.reaches_first size invoke params h hlast hargs
  obtain ⟨d, hd, hcode⟩ := s.exists_of_leaf hleaf
  rw [List.append_cons]
  refine ⟨i, d, target, ?_, ?_, hcode, hreaches⟩
  · rw [List.findIdx?_append, hfirst]
    rfl
  · rw [List.getElem?_append_left (List.getElem?_eq_some_iff.1 hd).1, hd]

/-- There is a body exactly if each clause up to the first one without literals has code. -/
theorem exists_run_body_iff {s : Split} (hs : split? clauses = some s) (name : String)
    (span : Option Span) (j : Journal) :
    (∃ code t, (body table name clauses sig span).run.run j = (.ok code, t)) ↔
      ∀ c ∈ s.guarded ++ [s.catchAll], ∃ code, clauseCode table sig c = .ok code := by
  obtain ⟨-, hguarded, -⟩ := split?_eq_some_iff.1 hs
  rw [← Spine.nonempty_iff hguarded]
  constructor
  · rintro ⟨code, t, hrun⟩
    obtain ⟨⟨sp, -⟩, -⟩ := (run_body_eq_ok_iff table name sig span hs).1 hrun
    exact ⟨sp⟩
  · rintro ⟨sp⟩
    exact ⟨_, _, (run_body_eq_ok_iff table name sig span hs).2 ⟨⟨sp, rfl⟩, rfl⟩⟩

/-- **Dispatch takes the first clause that fits.** Let clauses fit a signature in the number of
their parameters and in the types of their literals. Their body is refused for coverage exactly if
every clause has a literal. Otherwise let `c` be the first clause without literals, after the
clauses `guarded`. There is a body exactly if each of these clauses has code, and then its tree is
read as a chain with one conditional for each clause of `guarded`, annotated with the result type,
and with the codes of these clauses and of `c` as its leaves; it is the same whatever clauses come
later. For all arguments of the types of the signature, its evaluation comes to the leaf of the
first clause whose literals equal the arguments. -/
theorem body_selects_first (F : Floats) {table : SignatureTable} {sig : Signature}
    {clauses : List Clause} (h : ∀ c ∈ clauses, c.Fits sig) (name : String) (span : Option Span)
    (j : Journal) :
    ((∃ f at? t, (body table name clauses sig span).run.run j =
        (.error (.fault ⟨.notCovered f, at?⟩), t)) ↔
      ∀ c ∈ clauses, ∃ q ∈ c.params, q.isLiteral = true) ∧
    ∀ guarded c later, clauses = guarded ++ c :: later →
      (∀ g ∈ guarded, ∃ q ∈ g.params, q.isLiteral = true) →
      (∀ q ∈ c.params, q.isLiteral = false) →
      ((∃ code t, (body table name clauses sig span).run.run j = (.ok code, t)) ↔
        ∀ d ∈ guarded ++ [c], ∃ code, clauseCode table sig d = .ok code) ∧
      ∀ code t, (body table name clauses sig span).run.run j = (.ok code, t) →
        ∃ read, Instr.ofSexp? code.toSexp = some read ∧ ∃ s : Spine table sig guarded c,
          read = chain sig.result.machine s.otherwise (s.guards.zip s.codes) ∧
          (s.guards.zip s.codes).length = guarded.length ∧
          (guarded ++ [c]).map (clauseCode table sig) = s.leaves.map .ok ∧
          (∀ later', ((body table name (guarded ++ c :: later') sig span).run.run j).1 =
            .ok code) ∧
          ∀ (args : List (Source.Value F)), args.map Source.Value.ty = sig.params →
            ∀ (size : Nat) (invoke : Invoke F Print) (params : Params),
              ∃ i d target,
                (clauses.findIdx? fun d => Source.accepts d.params args) = some i ∧
                clauses[i]? = some d ∧ clauseCode table sig d = .ok target ∧
                Reaches size invoke ⟨params, args.map Source.Value.rep⟩
                  (wayTo guarded.length i) read target ∧
                exec size invoke ⟨params, args.map Source.Value.rep⟩ read =
                  exec size invoke ⟨params, args.map Source.Value.rep⟩ target := by
  constructor
  · constructor
    · rintro ⟨f, at?, t, hrun⟩
      exact ((run_body_notCovered_iff h).1 hrun).1
    · intro hall
      exact ⟨_, _, _, (run_body_notCovered_iff h).2 ⟨hall, rfl, rfl, rfl⟩⟩
  rintro guarded c later rfl hguarded hc
  have hguarded : ∀ g ∈ guarded, g.isCatchAll = false := by
    intro g hg
    simpa [Clause.isCatchAll] using hguarded g hg
  have hc : c.isCatchAll = true := Clause.isCatchAll_iff.2 hc
  have hsplit : ∀ later', split? (guarded ++ c :: later') = some ⟨guarded, c, later'⟩ :=
    fun later' => split?_eq_some_iff.2 ⟨rfl, hguarded, hc⟩
  have hfits : ∀ d ∈ guarded ++ [c], d.Fits sig := by
    intro d hd
    refine h d ?_
    rw [List.append_cons]
    exact List.mem_append_left _ hd
  refine ⟨exists_run_body_iff (hsplit later) name span j, fun code t hrun => ?_⟩
  obtain ⟨⟨s, rfl⟩, -⟩ := (run_body_eq_ok_iff table name sig span (hsplit later)).1 hrun
  refine ⟨_, s.code.ofSexp?_toSexp, s, rfl, ?_, s.map_leaves, fun later' => ?_,
    fun args hargs size invoke params => ?_⟩
  · simp [s.length_guards, s.length_codes]
  · -- the spine of the clauses up to `c` does not depend on those that are dropped
    rw [(run_body_eq_ok_iff table name sig span (hsplit later')).2 ⟨⟨s, rfl⟩, rfl⟩]
  · obtain ⟨i, d, target, hfirst, hd, hcode, hreaches⟩ :=
      s.selects_first size invoke params hfits hc hargs later
    exact ⟨i, d, target, hfirst, hd, hcode, hreaches, hreaches.exec_eq⟩

/-- Clauses with overlapping literals of all types, one that takes everything, and one after it. -/
def gauge : List Clause :=
  let on (row : Nat) : Span := ⟨"gauge", row, 1, row, 1⟩
  let int (row : Nat) (n : Int) : Expr := .lit (.int n) (on row)
  let name (row : Nat) (x : String) : Pattern := .name x (on row)
  let lit (row : Nat) (value : Literal) : Pattern := .lit value (on row)
  let clause (row : Nat) (params : List Pattern) (body : Expr) : Clause :=
    ⟨"gauge", params, body, on row⟩
  [clause 1 [lit 1 (.int 0), lit 1 (.bool true), name 1 "x"] (int 1 1),
    clause 2 [name 2 "n", lit 2 (.bool true), lit 2 (.float "0.5")] (.call "n" [] (on 2)),
    clause 3 [lit 3 (.int 3), lit 3 (.bool true), lit 3 (.float "0.5")] (int 3 7),
    clause 4 [name 4 "n", name 4 "b", name 4 "x"] (int 4 9),
    clause 5 [lit 5 (.int 1), name 5 "b", name 5 "x"] (.call "nowhere" [] (on 5))]

/-- The signature that the clauses of `gauge` fit. -/
def gaugeSignature : Signature := ⟨[.int, .bool, .float], .int⟩

/-- The clauses fit the signature. -/
theorem gauge_fits : ∀ c ∈ gauge, c.Fits gaugeSignature := by
  decide

/-- The second clause is selected, at the end of its way. -/
theorem body_selects_first_gauge :
    (∀ c ∈ gauge, c.Fits gaugeSignature) ∧
      ∃ code t read, (body [] "gauge" gauge gaugeSignature none).run.run [] = (.ok code, t) ∧
        Instr.ofSexp? code.toSexp = some read ∧
        ∀ (size : Nat) (invoke : Invoke Compile.onePoint Print) (params : Params),
          Reaches size invoke ⟨params, [.i32 3, .i32 1, .f32 ()]⟩ [false, true] read
            (.localGet (.index 0)) := by
  obtain ⟨-, hselects⟩ :=
    @body_selects_first Compile.onePoint [] gaugeSignature gauge gauge_fits "gauge" none []
  obtain ⟨-, hbody⟩ := hselects (gauge.take 3) (gauge.getD 3 default) (gauge.drop 4) rfl
    (by decide) (by decide)
  have hrun : ∃ code t, (body [] "gauge" gauge gaugeSignature none).run.run [] = (.ok code, t) :=
    ⟨_, _, rfl⟩
  obtain ⟨code, t, hrun⟩ := hrun
  obtain ⟨read, hread, s, -, -, -, -, hargs⟩ := hbody code t hrun
  refine ⟨gauge_fits, code, t, read, hrun, hread, fun size invoke params => ?_⟩
  obtain ⟨i, d, target, hfirst, hd, htarget, hreaches, -⟩ :=
    hargs [.int 3, .bool true, .float ()] rfl size invoke params
  cases hfirst
  cases hd
  cases htarget
  exact hreaches

end Dispatch

end Clausal
