import Mathlib.Data.List.Nodup
import Clausal.Proofs.Emit.Constants
import Clausal.Proofs.Emit.Spine
import Clausal.Proofs.Insertion

/-!
# No clause is lost

`program_accounts`: in a compilation that gives a result, every clause of the program is lowered in
the function of its name, or reported as unreachable, or belongs to a function that is reported as
never used, and only one of the three, and only once.

The clauses of a program are told apart by their places (`numbered`), so that equal clauses count as
often as they are written. The clauses of one function are cut after the first one that takes
everything: those up to it are lowered, the others are reported. What one function contributes
(`function_assembles`) adds up over the functions in the order in which they are emitted
(`emitFunctions_assembles`), which is that of the first lines that name them (`names_functions`).
-/

namespace Clausal

open Wasm

/-- In a numbered list each number occurs once, with the element at its place. -/
theorem countP_zipIdx {α : Type} {xs : List α} {k : Nat} {x : α} (h : xs[k]? = some x) (n : Nat)
    (q : α → Bool) :
    (xs.zipIdx n).countP (fun y => decide (y.2 = n + k) && q y.1) = if q x then 1 else 0 := by
  induction xs generalizing k n with
  | nil => simp at h
  | cons y ys ih =>
    rw [List.zipIdx_cons, List.countP_cons]
    cases k with
    | zero =>
      have hlater : (ys.zipIdx (n + 1)).countP (fun z => decide (z.2 = n + 0) && q z.1) = 0 := by
        rw [List.countP_eq_zero]
        intro z hz
        have hle := List.le_snd_of_mem_zipIdx hz
        have hne : ¬ z.2 = n := by omega
        simp [hne]
      obtain rfl : y = x := by simpa using h
      rw [hlater]
      simp
    | succ k =>
      have hrest := ih (k := k) (by simpa using h) (n + 1)
      rw [Nat.add_right_comm, Nat.add_assoc] at hrest
      rw [hrest]
      simp

namespace Program

/-! ## The order of functions -/

/-- **The functions of a program come in the order of the first lines that name them.** -/
theorem names_functions (p : Program) :
    p.functions.names = firstsBy id (p.lines.map Line.name) := by
  have key : ∀ (rest done : List Line) (m : Assoc (Span × List Clause)),
      m.names = firstsBy id (done.map Line.name) →
      Assoc.names (rest.foldl enter m) = firstsBy id ((done ++ rest).map Line.name) := by
    intro rest
    induction rest with
    | nil =>
      intro done m h
      rw [List.append_nil]
      exact h
    | cons l rest ih =>
      intro done m h
      have hput := Assoc.names_put_firstsBy h l.name
        (((m.value? l.name).getD (l.span, [])).1,
          ((m.value? l.name).getD (l.span, [])).2 ++ l.clause?.toList)
      rw [List.append_cons]
      exact ih (done ++ [l]) (enter m l) (by rw [List.map_append]; exact hput)
  rw [functions_eq]
  exact key p.lines [] [] rfl

/-! ## Numbered clauses -/

/-- The clauses of a program, each with its place among them. -/
def numbered (p : Program) : List (Clause × Nat) :=
  p.clauses.zipIdx

/-- The numbered clauses of one function. -/
def numberedOf (p : Program) (f : String) : List (Clause × Nat) :=
  p.numbered.filter fun q => q.1.name = f

/-- The clauses of a function up to the first one that takes everything, and with it. -/
def lowered (p : Program) (f : String) : List (Clause × Nat) :=
  (p.numberedOf f).take (Dispatch.reached (p.clausesOf f)).length

/-- The clauses of a function after the first one that takes everything. -/
def unreachable (p : Program) (f : String) : List (Clause × Nat) :=
  (p.numberedOf f).drop (Dispatch.reached (p.clausesOf f)).length

variable {p : Program} {f : String}

/-- Numbers aside, the numbered clauses of a function are its clauses. -/
theorem map_numberedOf : (p.numberedOf f).map Prod.fst = p.clausesOf f := by
  have hfst : p.numbered.map Prod.fst = p.clauses := List.zipIdx_map_fst 0 p.clauses
  unfold numberedOf clausesOf
  rw [← hfst, List.filter_map]
  rfl

/-- Every clause of a function is lowered or unreachable. -/
theorem lowered_append_unreachable : p.lowered f ++ p.unreachable f = p.numberedOf f :=
  List.take_append_drop ..

/-- The lowered clauses are the first ones, as far as they are reached. -/
theorem map_lowered :
    (p.lowered f).map Prod.fst =
      (p.clausesOf f).take (Dispatch.reached (p.clausesOf f)).length := by
  rw [lowered, List.map_take, map_numberedOf]

/-- The unreachable clauses are those behind. -/
theorem map_unreachable :
    (p.unreachable f).map Prod.fst =
      (p.clausesOf f).drop (Dispatch.reached (p.clausesOf f)).length := by
  rw [unreachable, List.map_drop, map_numberedOf]

/-- A clause is among the clauses of its own function, once, and among those of no other. -/
theorem countP_numberedOf {k : Nat} {c : Clause} (h : p.clauses[k]? = some c) (f : String) :
    (p.numberedOf f).countP (fun q => q.2 = k) = if c.name = f then 1 else 0 := by
  have hcount := countP_zipIdx h 0 fun d => decide (d.name = f)
  rw [Nat.zero_add] at hcount
  unfold numberedOf numbered
  rw [List.countP_filter]
  simpa using hcount

/-- Over several functions, a clause counts as often as the functions have its name. -/
theorem countP_cut {k : Nat} {c : Clause} (h : p.clauses[k]? = some c) (names : List String) :
    (names.flatMap p.lowered).countP (fun q => q.2 = k) +
      (names.flatMap p.unreachable).countP (fun q => q.2 = k) = names.count c.name := by
  induction names with
  | nil => rfl
  | cons f names ih =>
    have hcut := countP_numberedOf h f
    rw [← lowered_append_unreachable, List.countP_append] at hcut
    have hone : (if c.name = f then 1 else 0) = if f == c.name then 1 else 0 := by
      simp only [beq_iff_eq, @eq_comm _ f]
    rw [List.flatMap_cons, List.flatMap_cons, List.countP_append, List.countP_append,
      List.count_cons, ← ih, ← hone, ← hcut]
    omega

/-- The functions without a signature that have a clause are those of the first clauses. -/
theorem countP_firstClauses {k : Nat} {c : Clause} (h : p.clauses[k]? = some c)
    (q : String → Bool) :
    (p.firstClauses.filter fun d => q d.name).countP (fun d => d.name = c.name) =
      if q c.name then 1 else 0 := by
  have hnames : (p.firstClauses.filter fun d => q d.name).map (·.name) =
      (firstsBy id (p.clauses.map (·.name))).filter q := by
    rw [← map_firstsBy, List.filter_map]
    rfl
  have hmem : c.name ∈ firstsBy id (p.clauses.map (·.name)) :=
    mem_firstsBy_id.2 (List.mem_map.2 ⟨c, List.mem_of_getElem? h, rfl⟩)
  have hcount : (p.firstClauses.filter fun d => q d.name).countP (fun d => d.name = c.name) =
      ((firstsBy id (p.clauses.map (·.name))).filter q).count c.name := by
    rw [← hnames, List.count, List.countP_map]
    rfl
  rw [hcount]
  split
  · next hq =>
    exact List.count_eq_one_of_mem ((nodup_firstsBy_id _).filter _) (List.mem_filter.2 ⟨hmem, hq⟩)
  · next hq => exact List.count_eq_zero.2 fun hin => hq (List.mem_filter.1 hin).2

end Program

/-! ## Functions and their reports -/

namespace Dispatch

variable {table : SignatureTable}

/-- The clauses are reached up to the first one that takes everything. -/
theorem reached_append {guarded later : List Clause} {c : Clause}
    (hguarded : ∀ d ∈ guarded, d.isCatchAll = false) (hc : c.isCatchAll = true) :
    reached (guarded ++ c :: later) = guarded ++ [c] := by
  induction guarded with
  | nil =>
    rw [List.nil_append, reached, if_pos hc]
    rfl
  | cons d ds ih =>
    obtain ⟨hd, hds⟩ := List.forall_mem_cons.1 hguarded
    rw [List.cons_append, reached, if_neg (by simp [hd]), ih hds]
    rfl

/-- Clauses that are cut are those up to the cut and the others. -/
theorem reached_of_split {clauses : List Clause} {s : Split} (h : split? clauses = some s) :
    reached clauses = s.guarded ++ [s.catchAll] ∧
      clauses.drop (reached clauses).length = s.dropped := by
  obtain ⟨rfl, hguarded, hc⟩ := split?_eq_some_iff.1 h
  rw [reached_append hguarded hc, List.append_cons s.guarded s.catchAll s.dropped]
  exact ⟨rfl, List.drop_left⟩

/-- The clauses up to the cut come first. -/
theorem take_reached (clauses : List Clause) :
    clauses.take (reached clauses).length = reached clauses := by
  induction clauses with
  | nil => rfl
  | cons c cs ih =>
    rw [reached]
    split
    · rfl
    · rw [List.length_cons, List.take_succ_cons, ih]

/-- The warning about a clause that is never reached. -/
def unreachableWarning (c : Clause) : Diagnostic :=
  .warning "W301" ("unreachable clause of '" ++ c.name ++ "'") c.span

/-- There is one warning for each clause that is not reached. -/
theorem warnings_unreachable {name : String} {cs : List Clause} (h : ∀ c ∈ cs, c.name = name) :
    Journal.warnings (cs.map (unreachableEvent name)) = cs.map unreachableWarning := by
  unfold Journal.warnings
  rw [List.filterMap_map, ← List.filterMap_eq_map]
  refine List.filterMap_congr fun c hc => ?_
  show (unreachableEvent name c).warning? = some (unreachableWarning c)
  rw [unreachableWarning, h c hc]
  rfl

/-- A function has the signature of its name, and its body is the chain of the codes of clauses, of
which the last one and no other takes everything. -/
def Assembles (table : SignatureTable) (clauses : List Clause) (g : Func) : Prop :=
  ∃ sig guarded last, ∃ s : Spine table sig guarded last,
    table.lookup g.name = some sig ∧ clauses = guarded ++ [last] ∧
      (∀ c ∈ guarded, c.isCatchAll = false) ∧ last.isCatchAll = true ∧
      g = { name := g.name
            params := .positional (sig.params.map Ty.machine)
            result := some sig.result.machine
            body := [s.code] }

/-- **A function is made of the clauses up to the first one that takes everything, and the others
are reported.** -/
theorem function_assembles {name : String} {clauses : List Clause} {span : Option Span}
    (hname : ∀ c ∈ clauses, c.name = name) (j : Journal) :
    Ends (function table name clauses span) j
      (fun g t => g.name = name ∧ Assembles table (reached clauses) g ∧
        t.warnings = j.warnings ++
          (clauses.drop (reached clauses).length).map unreachableWarning)
      fun _ _ => True := by
  unfold function
  split
  · trivial
  next sig hsig =>
  refine ends_bind.2 (ends_iff.2 ⟨fun code t hrun => ?_, fun _ _ _ => trivial⟩)
  cases hs : split? clauses with
  | none =>
    rw [run_body_uncovered hs] at hrun
    cases hrun
  | some s =>
    obtain ⟨⟨sp, rfl⟩, rfl⟩ := (run_body_eq_ok_iff table name sig span hs).1 hrun
    obtain ⟨-, hguarded, hall⟩ := split?_eq_some_iff.1 hs
    obtain ⟨hreached, hdrop⟩ := reached_of_split hs
    refine ⟨rfl, ⟨sig, s.guarded, s.catchAll, sp, hsig, hreached, hguarded, hall, rfl⟩, ?_⟩
    have hdropped : ∀ c ∈ s.dropped, c.name = name := fun c hc =>
      hname c (List.mem_of_mem_drop (hdrop ▸ hc))
    rw [Check.warnings_append, Check.warnings_append, warnings_unreachable hdropped, hdrop]
    exact List.append_nil _

end Dispatch

namespace Compile

open Dispatch (Assembles unreachableWarning)

/-- **The functions with a signature are emitted in order**, each made of its clauses, with the
reports on those that are left over. The induction is on the functions. -/
theorem emitFunctions_assembles {p : Program} {table : SignatureTable}
    {fs : List (String × Span × List Clause)} (hfs : ∀ f ∈ fs, f.2.2 = p.clausesOf f.1)
    (j : Journal) :
    Ends (emitFunctions table fs) j
      (fun user t => user.map (·.name) = (fs.map (·.1)).filter table.has ∧
        (∀ g ∈ user, Assembles table ((p.lowered g.name).map Prod.fst) g) ∧
        t.warnings = j.warnings ++
          (user.flatMap fun g => p.unreachable g.name).map fun q => unreachableWarning q.1)
      fun _ _ => True := by
  induction fs generalizing j with
  | nil =>
    refine ⟨rfl, fun g hg => ?_, (List.append_nil _).symm⟩
    cases hg
  | cons f fs ih =>
    have hrest : ∀ f' ∈ fs, f'.2.2 = p.clausesOf f'.1 :=
      fun f' hf' => hfs f' (List.mem_cons_of_mem _ hf')
    have hclauses := hfs f List.mem_cons_self
    obtain ⟨name, span, clauses⟩ := f
    dsimp only at hclauses
    subst hclauses
    rw [emitFunctions]
    split
    · next hhas =>
      have hnames : ∀ c ∈ p.clausesOf name, c.name = name :=
        fun c hc => (Program.mem_clausesOf.1 hc).2
      refine (Dispatch.function_assembles hnames j).bind ?_
      rintro g t ⟨rfl, hg, hwarnings⟩
      rw [← Dispatch.take_reached, ← Program.map_lowered] at hg
      rw [← Program.map_unreachable, List.map_map] at hwarnings
      refine (ih hrest t).bind fun user u hrest => ?_
      obtain ⟨hnames, huser, hwarnings'⟩ := hrest
      refine ⟨?_, ?_, ?_⟩
      · rw [List.map_cons, List.map_cons, List.filter_cons_of_pos hhas, hnames]
      · exact List.forall_mem_cons.2 ⟨hg, huser⟩
      · rw [hwarnings', hwarnings, List.flatMap_cons, List.map_append, List.append_assoc]
        rfl
    · next hhas =>
      refine Ends.bind (m := Dispatch.record _) (Q := fun _ t => t.warnings = j.warnings) ?_
        fun _ t hj => ?_
      · exact (Check.warnings_append _ _).trans (List.append_nil _)
      · refine (ih hrest t).mono (fun user u hrest => ?_) fun _ _ h => h
        obtain ⟨hnames, huser, hwarnings⟩ := hrest
        refine ⟨?_, huser, ?_⟩
        · rw [List.map_cons, List.filter_cons_of_neg hhas, hnames]
        · rw [hwarnings, hj]

/-- A module is the frame, the start function, the functions with a signature and the built-in ones.
-/
theorem emit_assembles {p : Program} {table : SignatureTable} (j : Journal) :
    Ends (emit p table) j
      (fun m t => ∃ user : List Func,
        m = { imports := [Builtin.fdWrite]
              pages := 1
              functions := Builtin.start Check.entryPoint :: user ++
                Builtin.functions.map (·.1) } ∧
        user.map (·.name) = (firstsBy id (p.lines.map Line.name)).filter table.has ∧
        (∀ g ∈ user, Assembles table ((p.lowered g.name).map Prod.fst) g) ∧
        t.warnings = j.warnings ++
          (user.flatMap fun g => p.unreachable g.name).map fun q => unreachableWarning q.1)
      fun _ _ => True := by
  refine (emitFunctions_assembles (fun f hf => Program.clauses_of_mem_functions hf) j).bind ?_
  rintro user t ⟨hnames, huser, hwarnings⟩
  refine ⟨user, rfl, ?_, huser, hwarnings⟩
  rw [hnames, ← p.names_functions]
  rfl

/-! ## The account of a program -/

/-- The trees in front of the functions of a module: the host function that writes, the export of
the memory, and the memory. -/
def header : List Sexp :=
  [.list [.atom "import", .atom "\"wasi_unstable\"", .atom "\"fd_write\"",
      .list [.atom "func", .atom "$fd_write",
        .list [.atom "param", .atom "i32", .atom "i32", .atom "i32", .atom "i32"],
        .list [.atom "result", .atom "i32"]]],
    .list [.atom "export", .atom "\"memory\"", .list [.atom "memory", .atom "0"]],
    .list [.atom "memory", .atom "1"]]

/-- A module with the frame of compiled programs has the header before its functions. -/
theorem toSexp_header (functions : List Func) :
    ({ imports := [Builtin.fdWrite], pages := 1, functions } : Module).toSexp =
      .list (.atom "module" :: header ++ functions.map Func.toSexp) := by
  have hheader : [Builtin.fdWrite].map Import.toSexp ++
      [word "export" [.quotation "memory", word "memory" [.atom "0"]],
        word "memory" [.atom (toString 1)]] = header := by
    decide +kernel
  rw [Module.toSexp, hheader]
  rfl

/-- What became of the clauses of a program that was compiled to the functions `user`. -/
structure Account (p : Program) (out : Output) (user : List Func) : Prop where
  /-- The module is the frame, the functions, and the built-in functions. -/
  code : out.code =
    { imports := [Builtin.fdWrite]
      pages := 1
      functions := Builtin.start Check.entryPoint :: user ++ Builtin.functions.map (·.1) }
  /-- The tree is made of these parts and no others: the trees behind the header are functions, and
  are read as those of the module. -/
  tree : ∃ trees, out.code.toSexp = .list (.atom "module" :: header ++ trees) ∧
    (∀ t ∈ trees, ∃ rest, t = .list (.atom "func" :: rest)) ∧
    trees.mapM Func.ofSexp? =
      some (Builtin.start Check.entryPoint :: user ++ Builtin.functions.map (·.1))
  /-- There is one function for each name that has a signature, in the order of first lines. -/
  names : user.map (·.name) = (firstsBy id (p.lines.map Line.name)).filter out.signatures.has
  /-- A function is made of its clauses up to the first one that takes everything. -/
  bodies : ∀ g ∈ user, Assembles out.signatures ((p.lowered g.name).map Prod.fst) g
  /-- Unused functions are reported, and then the clauses that come later. -/
  diagnostics : out.diagnostics =
    (p.firstClauses.filter fun c => !out.signatures.has c.name).map unusedWarning ++
      (user.flatMap fun g => p.unreachable g.name).map fun q => unreachableWarning q.1
  /-- Every clause counts once: as lowered, as reported, or by the report on its function. -/
  clauses : ∀ k c, p.clauses[k]? = some c →
    (user.flatMap fun g => p.lowered g.name).countP (fun q => q.2 = k) +
      (user.flatMap fun g => p.unreachable g.name).countP (fun q => q.2 = k) +
      (p.firstClauses.filter fun d => !out.signatures.has d.name).countP
        (fun d => d.name = c.name) = 1

/-- The functions of a table with a clause count it once, or the report on its name does. -/
theorem countP_fates {p : Program} {k : Nat} {c : Clause} (h : p.clauses[k]? = some c)
    {table : SignatureTable} {user : List Func}
    (hnames : user.map (·.name) = (firstsBy id (p.lines.map Line.name)).filter table.has) :
    (user.flatMap fun g => p.lowered g.name).countP (fun q => q.2 = k) +
      (user.flatMap fun g => p.unreachable g.name).countP (fun q => q.2 = k) +
      (p.firstClauses.filter fun d => !table.has d.name).countP (fun d => d.name = c.name) = 1 := by
  have hcut := p.countP_cut h (user.map (·.name))
  rw [List.flatMap_map, List.flatMap_map] at hcut
  rw [hcut, p.countP_firstClauses h fun f => !table.has f, hnames]
  have hmem : c.name ∈ firstsBy id (p.lines.map Line.name) := by
    obtain ⟨l, hl, hc⟩ := List.mem_filterMap.1 (List.mem_of_getElem? h)
    refine mem_firstsBy_id.2 (List.mem_map.2 ⟨l, hl, ?_⟩)
    cases l with
    | decl d => cases hc
    | clause d =>
      cases hc
      rfl
  cases hhas : table.has c.name with
  | true =>
    rw [List.count_eq_one_of_mem ((nodup_firstsBy_id _).filter _) (List.mem_filter.2 ⟨hmem, hhas⟩)]
    rfl
  | false =>
    rw [List.count_eq_zero.2 fun hin => by simp [hhas] at hin]
    rfl

/-- **No clause is lost silently.** The module of a program that is accepted is the frame, one
function for each name of the program that has a signature, in the order of the first lines that
name them, and the built-in functions, and so is the tree that is emitted for it. Each function is
made of its clauses up to the first one without literals. The diagnostics are one for each function
that has a clause and no signature, and after them, function by function, one for each clause that
comes later. Every clause of the program is lowered, or reported, or its function is, and only one
of these, and once. -/
theorem program_accounts {p : Program} {out : Output} {j : Journal}
    (h : program p = (.ok out, j)) : ∃ user, Account p out user := by
  obtain ⟨⟨s, hcheck⟩, k, hemit⟩ := program_steps h
  obtain ⟨user, hcode, hnames, hbodies, hwarnings⟩ := (emit_assembles []).of_ok hemit
  obtain ⟨-, user', hemission⟩ := program_emission h
  refine ⟨user, hcode, ?_, hnames, hbodies, ?_, fun k c hc => countP_fates hc hnames⟩
  · refine ⟨_, by rw [hcode, toSexp_header], fun t ht => ?_, mapM_map_write fun f hf => ?_⟩
    · obtain ⟨f, -, rfl⟩ := List.mem_map.1 ht
      exact ⟨_, rfl⟩
    · refine Func.ofSexp?_toSexp (hemission.readable.functions f ?_)
      rw [hcode]
      exact hf
  have hdiagnostics : out.diagnostics = (s.journal ++ k).warnings := by
    rw [program_of_steps hcheck hemit] at h
    exact (congrArg Output.diagnostics (Except.ok.inj (congrArg Prod.fst h))).symm
  rw [hdiagnostics, Check.warnings_append, Check.validate_warnings hcheck, hwarnings]
  rfl

/-- A program whose functions are interleaved. The function `pick` is named by a declaration first
and has two equal clauses behind one that takes everything, and nothing calls `spare`. -/
def fair : Program where
  file := "fair"
  lines :=
    let on (row : Nat) : Span := ⟨"fair", row, 1, row, 1⟩
    let int (row : Nat) (n : Int) : Expr := .lit (.int n) (on row)
    let call (row : Nat) (f : String) (args : List Expr) : Expr := .call f args (on row)
    let clause (row : Nat) (f : String) (params : List Pattern) (body : Expr) : Line :=
      .clause ⟨f, params, body, on row⟩
    [clause 1 "spare" [.name "n" (on 1)] (call 1 "n" []),
      .decl ⟨"pick", ⟨[.int], .int⟩, on 2⟩,
      clause 3 "main" [] (call 3 "pick" [int 3 1]),
      clause 4 "pick" [.lit (.int 0) (on 4)] (int 4 10),
      clause 5 "spare" [.lit (.int 0) (on 5)] (int 5 0),
      clause 6 "pick" [.name "n" (on 6)] (call 6 "n" []),
      clause 7 "pick" [.lit (.int 1) (on 7)] (int 7 7),
      clause 7 "pick" [.lit (.int 1) (on 7)] (int 7 7)]

/-- The signatures of the functions of `fair` that are in use. -/
def fairSignatures : SignatureTable :=
  Builtin.signatures ++ [("pick", ⟨[.int], .int⟩), ("main", ⟨[], .int⟩)]

/-- The program is accepted with these signatures. -/
theorem program_fair :
    (program fair).1.toOption.map (·.signatures) = some fairSignatures := by
  decide +kernel

/-- Of the four clauses of `pick` two are lowered, and the others are reported. -/
theorem program_accounts_fair :
    ∃ out j user, program fair = (.ok out, j) ∧ Account fair out user ∧
      user.map (·.name) = ["pick", "main"] ∧
      (fair.lowered "pick").map Prod.snd = [2, 4] ∧
      out.diagnostics =
        [.warning "W300" "function 'spare' is never used" (some ⟨"fair", 1, 1, 1, 1⟩),
          .warning "W301" "unreachable clause of 'pick'" (some ⟨"fair", 7, 1, 7, 1⟩),
          .warning "W301" "unreachable clause of 'pick'" (some ⟨"fair", 7, 1, 7, 1⟩)] := by
  obtain ⟨out, hout, hsignatures⟩ := Option.map_eq_some_iff.1 program_fair
  have h := run_eq_of_toOption hout
  obtain ⟨user, haccount⟩ := program_accounts h
  have hnames : user.map (·.name) = ["pick", "main"] := by
    rw [haccount.names, hsignatures]
    decide +kernel
  refine ⟨out, _, user, h, haccount, hnames, by decide +kernel, ?_⟩
  rw [haccount.diagnostics, ← List.flatMap_map, hnames, hsignatures]
  decide +kernel

end Compile

end Clausal
