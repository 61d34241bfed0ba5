import Clausal.Proofs.Emit.Code
import Clausal.Proofs.Wasm.Typing

/-!
# Emitted modules are well typed

`program_wellTyped`: the module of every accepted program is well typed on the machine. Expressions
and dispatch are typed by induction on the relations of `Clausal.Proofs.Emit.Code`; that every call
finds a function of the right type is `Emission.type_of_signature`, which needs that the functions
with a signature are exactly those that are emitted or built in, and that their names differ.
-/

namespace Clausal

open Wasm

/-- The machine type of a function with a signature. -/
def Signature.type (sig : Signature) : FuncType :=
  ⟨sig.params.map Ty.machine, some sig.result.machine⟩

/-! ## Expressions -/

/-- The instruction of an arithmetic operator gives what its operands are. -/
theorem Op.result?_arithmetic {op : Op} {ty : Ty} (hop : op.isArithmetic = true)
    (hne : ty ≠ .bool) : (op.instruction ty).result? ty.machine = some ty.machine := by
  cases op with
  | add | sub | mul => rfl
  | div =>
    cases ty with
    | bool => exact absurd rfl hne
    | int | float => rfl
  | eq | ne => cases hop

/-- The instruction of a comparison gives a truth value. -/
theorem Op.result?_comparison {op : Op} {ty : Ty} (hop : op.isArithmetic = false) :
    (op.instruction ty).result? ty.machine = some .i32 := by
  cases op with
  | eq | ne => rfl
  | add | sub | mul | div => cases hop

section Expressions
variable {S : String → Option Signature} {F : String → Option FuncType} {types : List Ty}

/-- The code of a literal leaves a value of its type. -/
theorem Literal.code_leaves {L : Local → Option Machine} (value : Literal) :
    Leaves F L value.code (some value.ty.machine) := by
  cases value with
  | int n => exact .i32Const
  | float text => exact .f32Const
  | bool b => exact .i32Const

/-- An argument is of the machine type of its position. -/
theorem local?_index {i : Nat} {ty : Ty} (h : types[i]? = some ty) :
    (Params.positional (types.map Ty.machine)).local? (.index i) = some ty.machine := by
  show (types.map Ty.machine)[i]? = some ty.machine
  rw [List.getElem?_map, h]
  rfl

mutual

/-- The code of an expression leaves a value of the machine type of the expression. -/
theorem Lowered.leaves {ps : List Pattern} (hF : ∀ f sig, S f = some sig → F f = some sig.type)
    {e : Expr} {ty : Ty} {code : Instr} : Lowered S ps types e ty code →
      Leaves F (Params.positional (types.map Ty.machine)).local? code (some ty.machine)
  | .lit => Literal.code_leaves _
  | .param _ hty => .localGet (local?_index hty)
  | .call _ hsig hargs => .call (hF _ _ hsig) (hargs.operands hF)
  | .arithmetic hop hne hl hr =>
    .numeric (Op.result?_arithmetic hop hne) (hl.leaves hF) (hr.leaves hF)
  | .comparison hop hl hr => .numeric (Op.result?_comparison hop) (hl.leaves hF) (hr.leaves hF)
  | .cond ht hy hn => .cond (ht.leaves hF) (hy.leaves hF).sequence (hn.leaves hF).sequence

/-- The codes of arguments leave one value each, of the machine types of the arguments. -/
theorem LoweredArgs.operands {ps : List Pattern}
    (hF : ∀ f sig, S f = some sig → F f = some sig.type) {es : List Expr} {tys : List Ty}
    {codes : List Instr} : LoweredArgs S ps types es tys codes →
      Operands F (Params.positional (types.map Ty.machine)).local? codes (tys.map Ty.machine)
  | .nil => .nil
  | .cons he hes => .cons (he.leaves hF) (hes.operands hF)

end

/-! ## Guards and dispatch -/

namespace Dispatch

/-- A literal is compared with an argument of its own type. -/
theorem tests_leaves {index : Nat} {ps : List Pattern}
    (h : ∀ (i : Nat) (value : Literal) (span : Span), ps[i]? = some (.lit value span) →
      types[index + i]? = some value.ty) :
    ∀ test ∈ tests index ps,
      Leaves F (Params.positional (types.map Ty.machine)).local? test (some .i32) := by
  induction ps generalizing index with
  | nil => nofun
  | cons p ps ih =>
    have hshift : ∀ (i : Nat) (value : Literal) (span : Span), ps[i]? = some (.lit value span) →
        types[index + 1 + i]? = some value.ty := by
      intro i value span hi
      rw [Nat.add_assoc, Nat.add_comm 1 i]
      exact h (i + 1) value span hi
    cases p with
    | name n span => exact ih hshift
    | lit value span =>
      intro test htest
      rcases List.mem_cons.1 htest with rfl | htest
      · have hty : types[index]? = some value.ty := h 0 value span rfl
        exact .numeric rfl (.localGet (local?_index hty)) (Literal.code_leaves value)
      · exact ih hshift test htest

/-- A conjunction of conditions leaves a truth value. -/
theorem conjunction?_leaves {L : Local → Option Machine} {codes : List Instr} {guard : Instr}
    (h : ∀ code ∈ codes, Leaves F L code (some .i32)) (hguard : conjunction? codes = some guard) :
    Leaves F L guard (some .i32) := by
  induction codes generalizing guard with
  | nil => cases hguard
  | cons code codes ih =>
    have hcode := h code List.mem_cons_self
    rw [conjunction?_cons] at hguard
    cases hguard
    cases hrest : conjunction? codes with
    | none => exact hcode
    | some rest => exact .numeric rfl hcode (ih (fun c hc => h c (List.mem_cons_of_mem _ hc)) hrest)

end Dispatch

/-- The code of clauses leaves a value of the machine type of the result. -/
theorem Dispatched.leaves {sig : Signature} {clauses : List Clause} {code : Instr}
    (hF : ∀ f sig, S f = some sig → F f = some sig.type)
    (hclauses : ∀ c ∈ clauses, c.HasSignature S sig) (h : Dispatched S sig clauses code) :
    Leaves F (Params.positional (sig.params.map Ty.machine)).local? code
      (some sig.result.machine) := by
  induction h with
  | catchAll _ hcode => exact hcode.leaves hF
  | @guarded c cs guard code rest hguard hcode _ ih =>
    have hliterals := (hclauses c List.mem_cons_self).literals
    have htests : ∀ test ∈ Dispatch.tests 0 c.params,
        Leaves F (Params.positional (sig.params.map Ty.machine)).local? test (some .i32) := by
      refine Dispatch.tests_leaves fun i value span hi => ?_
      rw [Nat.zero_add]
      exact hliterals i value span hi
    exact .cond (Dispatch.conjunction?_leaves htests hguard) (hcode.leaves hF).sequence
      (ih fun c' hc' => hclauses c' (List.mem_cons_of_mem _ hc')).sequence

end Expressions

/-! ## Built-in functions -/

namespace Builtin

variable {F : String → Option FuncType}

/-- The body of `printc` is well typed. -/
theorem printc_sequence (hwrite : F "fd_write" = some fdWrite.type) :
    Sequence F printc.params.local? printc.body printc.result :=
  .effect (.store .i32Const .i32Const) <|
  .effect (.store .i32Const .i32Const) <|
  .effect (.store8 .i32Const (.localGet rfl)) <|
  .effect (.drop (.call hwrite
    (.cons .i32Const (.cons .i32Const (.cons .i32Const (.cons .i32Const .nil)))))) <|
  .value (.localGet rfl) .nil

/-- So is that of `printu`. -/
theorem printu_sequence (hprintc : F "printc" = some printc.type)
    (hprintu : F "printu" = some printu.type) :
    Sequence F printu.params.local? printu.body printu.result :=
  .effect (.cond (.numeric rfl (.localGet rfl) .i32Const)
    (.effect (.drop (.call hprintu (.cons (.numeric rfl (.localGet rfl) .i32Const) .nil))) .nil)
    .nil) <|
  .effect (.drop (.call hprintc
    (.cons (.numeric rfl .i32Const (.numeric rfl (.localGet rfl) .i32Const)) .nil))) <|
  .value (.localGet rfl) .nil

/-- So is that of `printi`. -/
theorem printi_sequence (hprintc : F "printc" = some printc.type)
    (hprintu : F "printu" = some printu.type) :
    Sequence F printi.params.local? printi.body printi.result :=
  .effect (.cond (.numeric rfl (.localGet rfl) .i32Const)
    (.effect (.drop (.call hprintc (.cons .i32Const .nil))) <|
      .effect (.drop (.call hprintu (.cons (.numeric rfl .i32Const (.localGet rfl)) .nil))) .nil)
    (.effect (.drop (.call hprintu (.cons (.localGet rfl) .nil))) .nil)) <|
  .value (.localGet rfl) .nil

/-- So is that of the start function. -/
theorem start_sequence {main : String} (hmain : F main = some ⟨[], some .i32⟩)
    (hprintc : F "printc" = some printc.type) (hprinti : F "printi" = some printi.type) :
    Sequence F (start main).params.local? (start main).body (start main).result :=
  .effect (.drop (.call hprinti (.cons (.call hmain .nil) .nil))) <|
  .effect (.drop (.call hprintc (.cons .i32Const .nil))) .nil

/-- The built-in functions have the machine types of their signatures. -/
theorem type_of_mem_functions : ∀ q ∈ functions, q.1.type = q.2.type := by
  decide

/-- The built-in functions take and return an integer. -/
theorem signature_of_mem_functions :
    ∀ q ∈ functions, signatures.has q.1.name = true ∧ q.2 = ⟨[.int], .int⟩ := by
  decide

end Builtin

/-! ## Modules -/

namespace Emission

variable {p : Program} {table : SignatureTable} {user : List Func} {m : Module}

/-- The functions of an emitted module have different names. -/
theorem distinct (h : Emission p table user m) (hp : p.Registrable) : m.types.names.Nodup := by
  have hnames : m.types.names =
      ["fd_write", "_start"] ++ (user.map (·.name) ++ ["printc", "printu", "printi"]) := by
    unfold Module.types Assoc.names
    rw [h.imports, h.functions]
    simp [Builtin.fdWrite, Builtin.start, Builtin.functions, Builtin.printc, Builtin.printu,
      Builtin.printi, Function.comp_def]
  have hsystem : ∀ f ∈ ["fd_write", "_start", "printc", "printu", "printi"], SystemName f := by
    decide
  have hfree : ∀ f ∈ user.map (·.name),
      f ∉ ["fd_write", "_start", "printc", "printu", "printi"] := by
    intro f hf hsys
    obtain ⟨l, hl, rfl⟩ := (h.mem_names_iff.1 hf).1
    exact hp.free l hl (hsystem _ hsys)
  have huser : (user.map (·.name)).Nodup := by
    rw [h.names]
    exact p.grouped_functions.nodup.sublist List.filter_sublist
  have hapart : ∀ f ∈ ["fd_write", "_start"], f ∉ ["printc", "printu", "printi"] := by decide
  rw [hnames, List.nodup_append, List.nodup_append]
  refine ⟨by decide, ⟨huser, by decide, ?_⟩, ?_⟩
  · rintro f hf g hg rfl
    exact hfree f hf (List.mem_cons_of_mem _ (List.mem_cons_of_mem _ hg))
  · rintro f hf g hg rfl
    rcases List.mem_append.1 hg with hg | hg
    · exact hfree f hg (List.mem_append_left _ hf)
    · exact hapart f hf hg

/-- A function of the module is known with its type. -/
theorem value?_types_func (h : Emission p table user m) (hp : p.Registrable) {f : Func}
    (hf : f ∈ m.functions) : m.types.value? f.name = some f.type :=
  (Assoc.value?_eq_some_iff (h.distinct hp)).2
    (List.mem_append_right _ (List.mem_map.2 ⟨f, hf, rfl⟩))

/-- The import is known with its type. -/
theorem value?_types_fdWrite (h : Emission p table user m) (hp : p.Registrable) :
    m.types.value? "fd_write" = some Builtin.fdWrite.type := by
  refine (Assoc.value?_eq_some_iff (h.distinct hp)).2 (List.mem_append_left _ ?_)
  rw [h.imports]
  exact List.mem_singleton.2 rfl

/-- The functions of the program are in the module. -/
theorem user_mem (h : Emission p table user m) {f : Func} (hf : f ∈ user) : f ∈ m.functions := by
  rw [h.functions]
  exact List.mem_append_left _ (List.mem_cons_of_mem _ hf)

/-- So are the built-in ones. -/
theorem builtin_mem (h : Emission p table user m) {q : Func × Signature}
    (hq : q ∈ Builtin.functions) : q.1 ∈ m.functions := by
  rw [h.functions]
  exact List.mem_append_right _ (List.mem_map.2 ⟨q, hq, rfl⟩)

/-- **Every function with a signature is in the module**, with the machine type of the
signature. -/
theorem type_of_signature (h : Emission p table user m) (hp : p.Accepted table) {f : String}
    {sig : Signature} (hf : table.lookup f = some sig) : m.types.value? f = some sig.type := by
  rcases h.function_of_signature hp hf with ⟨q, hq, rfl, rfl⟩ | ⟨g, hg, rfl, hcompiled⟩
  · rw [h.value?_types_func hp.registrable (h.builtin_mem hq), Builtin.type_of_mem_functions q hq]
  · rw [h.value?_types_func hp.registrable (h.user_mem hg)]
    unfold Func.type Signature.type
    rw [hcompiled.params, hcompiled.result]
    rfl

/-- The module of a checked program is well typed. -/
theorem wellTyped (h : Emission p table user m) (hp : p.Accepted table) : m.WellTyped := by
  have htype : ∀ f sig, table.lookup f = some sig → m.types.value? f = some sig.type :=
    fun f sig hf => h.type_of_signature hp hf
  have hbuiltin : ∀ q ∈ Builtin.functions, m.types.value? q.1.name = some q.1.type :=
    fun q hq => h.value?_types_func hp.registrable (h.builtin_mem hq)
  have hprintc := hbuiltin (Builtin.printc, ⟨[.int], .int⟩) List.mem_cons_self
  have hprintu := hbuiltin (Builtin.printu, ⟨[.int], .int⟩)
    (List.mem_cons_of_mem _ List.mem_cons_self)
  have hprinti := hbuiltin (Builtin.printi, ⟨[.int], .int⟩)
    (List.mem_cons_of_mem _ (List.mem_cons_of_mem _ List.mem_cons_self))
  refine ⟨h.distinct hp.registrable, fun f hf => ?_⟩
  rw [h.functions] at hf
  rcases List.mem_append.1 hf with hf | hf
  · rcases List.mem_cons.1 hf with rfl | hf
    · exact Builtin.start_sequence (htype _ _ hp.typing.entry) hprintc hprinti
    · obtain ⟨sig, -, hcompiled⟩ := h.compiled f hf
      obtain ⟨code, hbody, hcode⟩ := hcompiled.body
      rw [hbody, hcompiled.params, hcompiled.result]
      exact (hcode.leaves htype hcompiled.typed).sequence
  · have hthree : f = Builtin.printc ∨ f = Builtin.printu ∨ f = Builtin.printi := by
      simpa [Builtin.functions] using hf
    rcases hthree with rfl | rfl | rfl
    · exact Builtin.printc_sequence (h.value?_types_fdWrite hp.registrable)
    · exact Builtin.printu_sequence hprintc hprintu
    · exact Builtin.printi_sequence hprintc hprintu

end Emission

namespace Compile

/-- **Every emitted module is closed and well typed.** The emitted tree is read as a module. Its
functions have different names, every call in it names one of them and passes what that one takes,
every local is a parameter, operands and branches have the types that the instructions demand, and
every body leaves exactly what its function declares. -/
theorem program_wellTyped {p : Program} {out : Output} {j : Journal}
    (h : program p = (.ok out, j)) :
    ∃ m, Module.ofSexp? out.code.toSexp = some m ∧ m.WellTyped := by
  obtain ⟨haccepted, user, hemission⟩ := program_emission h
  exact ⟨out.code, hemission.ofSexp?_toSexp, hemission.wellTyped haccepted⟩

/-- The tree of the module is read as a well-typed module with these functions. -/
theorem program_wellTyped_parity :
    ∃ out j m, program Check.parity = (.ok out, j) ∧
      Module.ofSexp? out.code.toSexp = some m ∧
      m.functions.map (·.name) =
        ["_start", "even", "odd", "main", "printc", "printu", "printi"] ∧
      m.WellTyped := by
  have hnames : ((program Check.parity).1.toOption.map fun out =>
      (Module.ofSexp? out.code.toSexp).map fun m => m.functions.map (·.name)) =
      some (some ["_start", "even", "odd", "main", "printc", "printu", "printi"]) := by
    decide +kernel
  obtain ⟨out, hout, hnames⟩ := Option.map_eq_some_iff.1 hnames
  have h := run_eq_of_toOption hout
  obtain ⟨m, hm, hwellTyped⟩ := program_wellTyped h
  rw [hm] at hnames
  exact ⟨out, _, m, h, hm, Option.some.inj hnames, hwellTyped⟩

end Compile

end Clausal
