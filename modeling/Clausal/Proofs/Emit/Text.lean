import Clausal.Proofs.Emit.Code
import Clausal.Proofs.Grammar.Formed
import Clausal.Proofs.Sexp.Reading

/-!
# The text of compiled modules

The names and literals of a program that was read from a text can be written (`parse_writable`).
Code generation takes over these names and literals and adds none but those of the frame and of the
built-in functions, so the same holds of the module (`source_writable`). The atoms of the text form
of such a module are made of visible characters and have no brackets in them
(`Module.toSexp_solid`).

`pretty_denotes` is about all trees whose atoms are words: at every width at which a tree is
printed, the text denotes the tree. It also says at which widths a list is refused, and why;
`prettyAt_refuses_width` is one of them.
-/

namespace Clausal

open Token

/-! ## Names and constants of code -/

namespace Wasm

mutual

/-- The names and constants of an instruction can be written. -/
def Instr.Writable : Instr → Prop
  | .i32Const n => -2147483648 ≤ n ∧ n ≤ 2147483647
  | .f32Const t => IsFraction t
  | .localGet (.index _) => True
  | .localGet (.name n) => IsName n
  | .call f args => IsName f ∧ WritableAll args
  | .numeric _ _ a b => a.Writable ∧ b.Writable
  | .cond _ test yes no => test.Writable ∧ WritableAll yes ∧ WritableAll no
  | .drop x => x.Writable
  | .store a x => a.Writable ∧ x.Writable
  | .store8 a x => a.Writable ∧ x.Writable

/-- The names and constants of several instructions can be written. -/
def Instr.WritableAll : List Instr → Prop
  | [] => True
  | i :: is => i.Writable ∧ WritableAll is

end

/-- The names and constants of a function can be written. -/
structure Func.Writable (f : Func) : Prop where
  name : IsName f.name
  exported : ∀ e ∈ f.exportAs, IsName e
  params : ∀ ps, f.params = .named ps → ∀ p ∈ ps, IsName p.1
  body : Instr.WritableAll f.body

/-- The names and constants of a module can be written. -/
structure Module.Writable (m : Module) : Prop where
  imports : ∀ i ∈ m.imports, IsName i.library ∧ IsName i.item ∧ IsName i.name
  functions : ∀ f ∈ m.functions, f.Writable

end Wasm

open Wasm

/-- The constant of a literal that can be written can be written. -/
theorem Literal.Writable.code {v : Literal} (h : v.Writable) : v.code.Writable := by
  cases v with
  | int n => exact h
  | float t => exact h
  | bool b => cases b <;> exact ⟨by decide, by decide⟩

section Lowering
variable {S : String → Option Signature} {ps : List Pattern} {types : List Ty}

mutual

/-- The code of an expression has no other names and constants than the expression. -/
theorem Lowered.writable : ∀ {e : Expr} {ty : Ty} {code : Instr},
    Lowered S ps types e ty code → e.Writable → code.Writable
  | _, _, _, .lit, he => Literal.Writable.code he
  | _, _, _, .param .., _ => trivial
  | _, _, _, .call _ _ hargs, he => ⟨he.1, hargs.writable he.2⟩
  | _, _, _, .arithmetic _ _ hleft hright, he => ⟨hleft.writable he.1, hright.writable he.2⟩
  | _, _, _, .comparison _ hleft hright, he => ⟨hleft.writable he.1, hright.writable he.2⟩
  | _, _, _, .cond htest hyes hno, he =>
    ⟨htest.writable he.1, ⟨hyes.writable he.2.1, trivial⟩, hno.writable he.2.2, trivial⟩

/-- Arguments that can be written have code that can be written. -/
theorem LoweredArgs.writable : ∀ {es : List Expr} {tys : List Ty} {codes : List Instr},
    LoweredArgs S ps types es tys codes → Expr.WritableAll es → Instr.WritableAll codes
  | _, _, _, .nil, _ => trivial
  | _, _, _, .cons hcode hcodes, hes => ⟨hcode.writable hes.1, hcodes.writable hes.2⟩

end

end Lowering

namespace Dispatch

/-- The comparisons of literals that can be written can be written. -/
theorem tests_writable {ps : List Pattern} (h : ∀ p ∈ ps, p.Writable) (index : Nat) :
    ∀ test ∈ tests index ps, test.Writable := by
  induction ps generalizing index with
  | nil =>
    intro test htest
    cases htest
  | cons p ps ih =>
    have hps := ih (fun q hq => h q (List.mem_cons_of_mem _ hq)) (index + 1)
    cases p with
    | name x span => exact hps
    | lit v span =>
      have hv : v.Writable := h _ List.mem_cons_self
      exact List.forall_mem_cons.2 ⟨⟨trivial, hv.code⟩, hps⟩

/-- A conjunction of conditions that can be written can be written. -/
theorem conjunction?_writable {codes : List Instr} {guard : Instr}
    (h : ∀ code ∈ codes, code.Writable) (hguard : conjunction? codes = some guard) :
    guard.Writable := by
  induction codes generalizing guard with
  | nil => cases hguard
  | cons code codes ih =>
    have hcode := h code List.mem_cons_self
    rw [conjunction?_cons] at hguard
    cases hguard
    cases hrest : conjunction? codes with
    | none => exact hcode
    | some rest => exact ⟨hcode, ih (fun c hc => h c (List.mem_cons_of_mem _ hc)) hrest⟩

end Dispatch

/-- The body of a function can be written if its clauses can. -/
theorem Dispatched.writable {S : String → Option Signature} {sig : Signature}
    {clauses : List Clause} {code : Instr} (h : Dispatched S sig clauses code)
    (hclauses : ∀ c ∈ clauses, (Line.clause c).Writable) : code.Writable := by
  induction h with
  | catchAll _ hcode => exact hcode.writable (hclauses _ List.mem_cons_self).2.2
  | guarded hguard hcode _ ih =>
    obtain ⟨-, hparams, hbody⟩ := hclauses _ List.mem_cons_self
    exact ⟨Dispatch.conjunction?_writable (Dispatch.tests_writable hparams 0) hguard,
      ⟨hcode.writable hbody, trivial⟩,
      ih fun c hc => hclauses c (List.mem_cons_of_mem _ hc), trivial⟩

/-! ## The module of a program -/

namespace Builtin

/-- The names in every module, whatever the program. -/
theorem isName_frame : IsName "wasi_unstable" ∧ IsName "fd_write" ∧ IsName "_start" ∧
    IsName Check.entryPoint ∧ IsName "printc" ∧ IsName "printu" ∧ IsName "printi" ∧
    IsName "char" ∧ IsName "num" := by
  refine ⟨?_, ?_, ?_, ?_, ?_, ?_, ?_, ?_, ?_⟩ <;> exact ⟨⟨_, _, rfl, rfl, rfl⟩, by decide⟩

/-- Parameters of one name. -/
theorem named_singleton {x : String} {ty : Machine} (hx : IsName x) :
    ∀ ps, Params.named [(x, ty)] = .named ps → ∀ p ∈ ps, IsName p.1 := by
  intro ps hps p hp
  cases hps
  rw [List.mem_singleton.1 hp]
  exact hx

/-- The built-in functions can be written. -/
theorem functions_writable : ∀ f ∈ functions.map (·.1), f.Writable := by
  have hchar : IsName "char" := by simp [isName_frame]
  have hnum : IsName "num" := by simp [isName_frame]
  have hprintc : printc.Writable := by
    refine ⟨?_, nofun, named_singleton hchar, ?_⟩
    · simp [printc, isName_frame]
    · simp [printc, param, Instr.WritableAll, Instr.Writable, isName_frame]
  have hprintu : printu.Writable := by
    refine ⟨?_, nofun, named_singleton hnum, ?_⟩
    · simp [printu, isName_frame]
    · simp [printu, param, Instr.WritableAll, Instr.Writable, isName_frame]
  have hprinti : printi.Writable := by
    refine ⟨?_, nofun, named_singleton hnum, ?_⟩
    · simp [printi, isName_frame]
    · simp [printi, param, Instr.WritableAll, Instr.Writable, isName_frame]
  simp [functions, hprintc, hprintu, hprinti]

/-- The start function can be written. -/
theorem start_writable : (start Check.entryPoint).Writable := by
  refine ⟨?_, fun e he => ?_, fun ps hps => ?_, ?_⟩
  · simp [start, isName_frame]
  · cases he
    simp [isName_frame]
  · cases hps
  · simp [start, Instr.WritableAll, Instr.Writable, isName_frame]

end Builtin

/-- The module of a program that can be written can be written. -/
theorem Emission.writable {p : Program} {table : SignatureTable} {user : List Func} {m : Module}
    (h : Emission p table user m) (hp : ∀ l ∈ p.lines, l.Writable) : m.Writable := by
  have hname : ∀ l ∈ p.lines, IsName l.name := by
    intro l hl
    cases l with
    | decl d => exact hp _ hl
    | clause c => exact (hp _ hl).1
  have huser : ∀ f ∈ user, f.Writable := by
    intro f hf
    obtain ⟨sig, -, hcompiled⟩ := h.compiled f hf
    obtain ⟨code, hbody, hcode⟩ := hcompiled.body
    have hmem : f.name ∈ p.functions.names := by
      have hmem : f.name ∈ user.map (·.name) := List.mem_map.2 ⟨f, hf, rfl⟩
      rw [h.names] at hmem
      exact (List.mem_filter.1 hmem).1
    obtain ⟨l, hl, hlname⟩ := Program.mem_names_functions.1 hmem
    refine ⟨hlname ▸ hname l hl, fun e he => ?_, fun ps hps => ?_, ?_⟩
    · rw [hcompiled.internal] at he
      cases he
    · rw [hcompiled.params] at hps
      cases hps
    · rw [hbody]
      refine ⟨hcode.writable fun c hc => hp _ ?_, trivial⟩
      exact Program.mem_clauses.1 (Program.mem_clausesOf.1 hc).1
  refine ⟨fun i hi => ?_, fun f hf => ?_⟩
  · rw [h.imports] at hi
    rw [List.mem_singleton.1 hi]
    simp [Builtin.fdWrite, Builtin.isName_frame]
  · rcases h.mem_functions hf with rfl | hf | hf
    · exact Builtin.start_writable
    · exact huser f hf
    · exact Builtin.functions_writable f hf

namespace Compile

/-- A text that compiles was read as a program, and that program compiles. -/
theorem program_of_source {text file : String} {out : Output} {j : Journal}
    (h : source text file = (.ok out, j)) :
    ∃ p j', Program.parse text file = .ok p ∧ program p = (.ok out, j') := by
  unfold source at h
  split at h
  · cases h
  · next p hp =>
    dsimp only at h
    split at h
    · cases h
    · next out' j' hout =>
      cases h
      exact ⟨p, j', hp, hout⟩

/-- **The module of a source text** has no names and constants but those that can be written. -/
theorem source_writable {text file : String} {out : Output} {j : Journal}
    (h : source text file = (.ok out, j)) : out.code.Writable := by
  obtain ⟨p, j', hp, hout⟩ := program_of_source h
  obtain ⟨-, user, huser⟩ := program_emission hout
  exact huser.writable (Program.parse_writable hp)

end Compile

/-! ## Solid atoms -/

/-- Whether a text is made of visible characters other than brackets. -/
def isSolid (t : String) : Bool :=
  !t.toList.isEmpty && t.toList.all fun c => Sexp.isGraphic c && c ≠ '(' && c ≠ ')'

/-- A solid text is not empty, and it has no blank and no parenthesis in it. -/
theorem isSolid_iff {t : String} : isSolid t = true ↔ t.toList ≠ [] ∧
    ∀ c ∈ t.toList, Sexp.isGraphic c = true ∧ c ≠ '(' ∧ c ≠ ')' := by
  simp [isSolid, and_assoc]

/-- Two solid texts in one are solid. -/
theorem isSolid_append {t u : String} (ht : isSolid t = true) (hu : isSolid u = true) :
    isSolid (t ++ u) = true := by
  rw [isSolid_iff] at ht hu ⊢
  rw [String.toList_append]
  refine ⟨fun hnil => ht.1 (List.append_eq_nil_iff.1 hnil).1, fun c hc => ?_⟩
  exact (List.mem_append.1 hc).elim (ht.2 c) (hu.2 c)

/-- Digits, letters and the characters between them are visible and no brackets. -/
theorem solid_of_bounds {c : Char} (hlow : 0x2D ≤ c.toNat) (hhigh : c.toNat ≤ 0x7A) :
    Sexp.isGraphic c = true ∧ c ≠ '(' ∧ c ≠ ')' := by
  refine ⟨?_, ?_, ?_⟩
  · simp only [Sexp.isGraphic, Bool.and_eq_true, decide_eq_true_eq]
    omega
  · rintro rfl
    exact absurd hlow (by decide)
  · rintro rfl
    exact absurd hlow (by decide)

/-- A digit is neither a blank nor a parenthesis. -/
theorem solid_of_isDigit {c : Char} (h : c.isDigit = true) :
    Sexp.isGraphic c = true ∧ c ≠ '(' ∧ c ≠ ')' := by
  obtain ⟨hlow, hhigh⟩ := Text.isDigit_bounds h
  exact solid_of_bounds (by omega) (by omega)

/-- Letters and digits lie between the digit zero and the letter z. -/
theorem isAlphanum_bounds {c : Char} (h : c.isAlphanum = true) : 48 ≤ c.toNat ∧ c.toNat ≤ 122 := by
  have hcases : (c.isUpper || c.isLower || c.isDigit) = true := h
  rw [Bool.or_eq_true, Bool.or_eq_true] at hcases
  rcases hcases with (h | h) | h
  · have hbounds : 'A'.val ≤ c.val ∧ c.val ≤ 'Z'.val := of_decide_eq_true h
    have hlow : 65 ≤ c.toNat := UInt32.le_iff_toNat_le.1 hbounds.1
    have hhigh : c.toNat ≤ 90 := UInt32.le_iff_toNat_le.1 hbounds.2
    omega
  · have hbounds := Bool.and_eq_true_iff.1 h
    have hlow : 97 ≤ c.toNat := UInt32.le_iff_toNat_le.1 (of_decide_eq_true hbounds.1)
    have hhigh : c.toNat ≤ 122 := UInt32.le_iff_toNat_le.1 (of_decide_eq_true hbounds.2)
    omega
  · have hbounds := Text.isDigit_bounds h
    omega

/-- A character of a name is neither a blank nor a parenthesis. -/
theorem solid_of_isNameChar {c : Char} (h : isNameChar c = true) :
    Sexp.isGraphic c = true ∧ c ≠ '(' ∧ c ≠ ')' := by
  simp only [isNameChar, Bool.or_eq_true, decide_eq_true_eq] at h
  rcases h with h | rfl
  · obtain ⟨hlow, hhigh⟩ := isAlphanum_bounds h
    exact solid_of_bounds (by omega) hhigh
  · decide

/-- What may start a name may stand in it. -/
theorem isNameChar_of_isNameStart {c : Char} (h : isNameStart c = true) : isNameChar c = true := by
  have hstart : (c.isLower || decide (c = '_')) = true := h
  show (c.isUpper || c.isLower || c.isDigit || decide (c = '_')) = true
  rw [Bool.or_eq_true] at hstart
  rcases hstart with h | h
  · rw [h, Bool.or_true, Bool.true_or, Bool.true_or]
  · rw [h, Bool.or_true]

/-- Names are solid. -/
theorem isSolid_of_isName {t : String} (h : IsName t) : isSolid t = true := by
  obtain ⟨⟨c, cs, ht, hc, hcs⟩, -⟩ := h
  have hstart := isNameChar_of_isNameStart hc
  rw [isSolid_iff, ht]
  refine ⟨List.cons_ne_nil _ _, List.forall_mem_cons.2 ⟨solid_of_isNameChar hstart, ?_⟩⟩
  exact fun d hd => solid_of_isNameChar (List.all_eq_true.1 hcs d hd)

/-- Digits with an optional minus sign. -/
theorem isSolid_of_isNumeral {t : String} (h : isNumeral t.toList = true) : isSolid t = true := by
  have hdigits : ∀ {cs}, isDigits cs = true →
      ∀ c ∈ cs, Sexp.isGraphic c = true ∧ c ≠ '(' ∧ c ≠ ')' :=
    fun hcs c hc => solid_of_isDigit ((isDigits_iff.1 hcs).2 c hc)
  rw [isSolid_iff]
  unfold isNumeral at h
  split at h
  · next cs hlist =>
    rw [hlist]
    exact ⟨List.cons_ne_nil _ _, List.forall_mem_cons.2 ⟨by decide, hdigits h⟩⟩
  · exact ⟨(isDigits_iff.1 h).1, hdigits h⟩

/-- Written integers are solid. -/
theorem isSolid_toString (n : Int) : isSolid (toString n) = true :=
  isSolid_of_isNumeral (isNumeral_toString n)

theorem isSolid_toString_nat (n : Nat) : isSolid (toString n) = true :=
  isSolid_toString n

/-- Written fractions are solid. -/
theorem isSolid_of_isFraction {t : String} (h : IsFraction t) : isSolid t = true := by
  obtain ⟨whole, fraction, hwhole, hfraction, ht⟩ := h
  have hnumber : ∀ c ∈ whole ++ '.' :: fraction,
      Sexp.isGraphic c = true ∧ c ≠ '(' ∧ c ≠ ')' := by
    intro c hc
    rcases List.mem_append.1 hc with hc | hc
    · exact solid_of_isDigit ((isDigits_iff.1 hwhole).2 c hc)
    · rcases List.mem_cons.1 hc with rfl | hc
      · decide
      · exact solid_of_isDigit ((isDigits_iff.1 hfraction).2 c hc)
  rw [isSolid_iff]
  rcases ht with ht | ht
  · rw [ht]
    exact ⟨by simp, hnumber⟩
  · rw [ht]
    exact ⟨List.cons_ne_nil _ _, List.forall_mem_cons.2 ⟨by decide, hnumber⟩⟩

/-! ## The text form of a module -/

namespace Sexp

/-- All atoms of several trees are solid. -/
def SolidAll (xs : List Sexp) : Prop :=
  ∀ t ∈ atomsAll xs, isSolid t = true

/-- All atoms of a tree are solid. -/
def Solid (s : Sexp) : Prop :=
  ∀ t ∈ s.atoms, isSolid t = true

@[simp] theorem solid_atom {t : String} : (atom t).Solid ↔ isSolid t = true := by
  simp [Solid, atoms]

@[simp] theorem solid_list {xs : List Sexp} : (list xs).Solid ↔ SolidAll xs := Iff.rfl

@[simp] theorem solidAll_nil : SolidAll [] := by
  intro t ht
  cases ht

@[simp] theorem solidAll_cons {x : Sexp} {xs : List Sexp} :
    SolidAll (x :: xs) ↔ x.Solid ∧ SolidAll xs := by
  unfold SolidAll Solid
  rw [atomsAll]
  exact List.forall_mem_append

/-- All trees of a list are solid if each of them is. -/
theorem solidAll_iff {xs : List Sexp} : SolidAll xs ↔ ∀ x ∈ xs, x.Solid := by
  induction xs with
  | nil => simp
  | cons x xs ih => simp [ih]

@[simp] theorem solidAll_append {xs ys : List Sexp} :
    SolidAll (xs ++ ys) ↔ SolidAll xs ∧ SolidAll ys := by
  simp [solidAll_iff, or_imp, forall_and]

/-- The reference to a name is solid. -/
theorem solid_reference {name : String} (h : IsName name) : (reference name).Solid := by
  rw [reference, solid_atom]
  exact isSolid_append rfl (isSolid_of_isName h)

/-- A quoted name is solid. -/
theorem solid_quotation {name : String} (h : IsName name) : (quotation name).Solid := by
  rw [quotation, solid_atom]
  exact isSolid_append (isSolid_append rfl (isSolid_of_isName h)) rfl

/-- Solid atoms are words, whatever separates. -/
theorem Solid.plain {blank : Char → Bool} (hb : Separates blank) {s : Sexp} (h : s.Solid) :
    s.Plain blank := by
  intro t ht
  obtain ⟨hne, hchars⟩ := isSolid_iff.1 (h t ht)
  refine ⟨hne, fun c hc => ?_⟩
  obtain ⟨hgraphic, hopen, hclose⟩ := hchars c hc
  exact isWordChar_iff.2 ⟨hb.graphic c hgraphic, hopen, hclose⟩

end Sexp

namespace Wasm

open Sexp

@[simp] theorem solid_word {head : String} {rest : List Sexp} :
    (word head rest).Solid ↔ isSolid head = true ∧ SolidAll rest := by
  simp [word]

/-- The atom of a machine type is solid. -/
@[simp] theorem solid_typeAtom (ty : Machine) : (typeAtom ty).Solid := by
  cases ty <;> exact solid_atom.2 rfl

/-- The form of a result type is solid. -/
@[simp] theorem solid_resultForm (ty : Machine) : (resultForm ty).Solid := by
  simp [resultForm, show isSolid "result" = true from rfl]

@[simp] theorem solid_result (result : Option Machine) :
    SolidAll (result.map resultForm).toList := by
  cases result <;> simp

/-- The names of numeric instructions are solid. -/
theorem isSolid_name (op : Numeric) (ty : Machine) : isSolid (op.name ty) = true := by
  cases op <;> cases ty <;> rfl

mutual

/-- The atoms of the text form of an instruction are solid. -/
theorem Instr.toSexp_solid : ∀ {i : Instr}, i.Writable → i.toSexp.Solid
  | .i32Const n, _ => solid_word.2 ⟨rfl, by simpa using isSolid_toString n⟩
  | .f32Const t, h => solid_word.2 ⟨rfl, by simpa using isSolid_of_isFraction h⟩
  | .localGet (.index i), _ => solid_word.2 ⟨rfl, by simpa [Local.toSexp] using isSolid_toString i⟩
  | .localGet (.name n), h => solid_word.2 ⟨rfl, by simpa [Local.toSexp] using solid_reference h⟩
  | .call f args, h =>
    solid_word.2 ⟨rfl, solidAll_cons.2 ⟨solid_reference h.1, toSexps_solid h.2⟩⟩
  | .numeric ty op a b, h =>
    solid_word.2 ⟨isSolid_name op ty, by simp [Instr.toSexp_solid h.1, Instr.toSexp_solid h.2]⟩
  | .cond result test yes no, h => by
    have htest := Instr.toSexp_solid h.1
    have hthen : (word "then" (toSexps yes)).Solid := solid_word.2 ⟨rfl, toSexps_solid h.2.1⟩
    have helse : (word "else" (toSexps no)).Solid := solid_word.2 ⟨rfl, toSexps_solid h.2.2⟩
    have hno : SolidAll (if no.isEmpty then [] else [word "else" (toSexps no)]) := by
      split
      · exact solidAll_nil
      · exact solidAll_cons.2 ⟨helse, solidAll_nil⟩
    refine solid_word.2 ⟨rfl, solidAll_append.2 ⟨solid_result result, ?_⟩⟩
    exact solidAll_cons.2 ⟨htest, solidAll_cons.2 ⟨hthen, hno⟩⟩
  | .drop x, h => solid_word.2 ⟨rfl, solidAll_cons.2 ⟨Instr.toSexp_solid (i := x) h, solidAll_nil⟩⟩
  | .store a x, h =>
    solid_word.2 ⟨rfl, by simp [Instr.toSexp_solid h.1, Instr.toSexp_solid h.2]⟩
  | .store8 a x, h =>
    solid_word.2 ⟨rfl, by simp [Instr.toSexp_solid h.1, Instr.toSexp_solid h.2]⟩

/-- The trees of instructions that can be written are solid. -/
theorem toSexps_solid : ∀ {is : List Instr}, Instr.WritableAll is → SolidAll (toSexps is)
  | [], _ => solidAll_nil
  | i :: is, h => by
    rw [toSexps, solidAll_cons]
    exact ⟨Instr.toSexp_solid h.1, toSexps_solid h.2⟩

end

/-- The trees of parameters are solid if their names are names. -/
theorem Params.toSexps_solid {ps : Params}
    (h : ∀ named, ps = .named named → ∀ p ∈ named, IsName p.1) : SolidAll ps.toSexps := by
  rw [solidAll_iff]
  intro x hx
  unfold Params.toSexps at hx
  split at hx
  · cases hx
  · rw [List.mem_singleton.1 hx]
    exact solid_word.2 ⟨rfl, by simp [solidAll_iff]⟩
  · next named =>
    obtain ⟨p, hp, rfl⟩ := List.mem_map.1 hx
    exact solid_word.2 ⟨rfl, by simp [solid_reference (h named rfl p hp)]⟩

/-- The tree of a function that can be written is solid. -/
theorem Func.toSexp_solid {f : Func} (h : f.Writable) : f.toSexp.Solid := by
  have hexport : SolidAll (f.exportAs.map fun e => word "export" [.quotation e]).toList := by
    cases he : f.exportAs with
    | none => exact solidAll_nil
    | some e =>
      have hname := h.exported e (by rw [he]; rfl)
      exact solidAll_cons.2 ⟨solid_word.2 ⟨rfl, by simp [solid_quotation hname]⟩, solidAll_nil⟩
  refine solid_word.2 ⟨rfl, ?_⟩
  simp [solid_reference h.name, hexport, Params.toSexps_solid h.params, toSexps_solid h.body]

/-- The tree of an import is solid if its names are names. -/
theorem Import.toSexp_solid {i : Import}
    (h : IsName i.library ∧ IsName i.item ∧ IsName i.name) : i.toSexp.Solid := by
  obtain ⟨hlibrary, hitem, hname⟩ := h
  have hparams : SolidAll (Params.positional i.params).toSexps :=
    Params.toSexps_solid fun named hnamed => nomatch hnamed
  have hfunc : (word "func" (.reference i.name :: (Params.positional i.params).toSexps ++
      [resultForm i.result])).Solid :=
    solid_word.2 ⟨rfl, by simp [solid_reference hname, hparams]⟩
  refine solid_word.2 ⟨rfl, ?_⟩
  exact solidAll_cons.2 ⟨solid_quotation hlibrary, solidAll_cons.2 ⟨solid_quotation hitem,
    solidAll_cons.2 ⟨hfunc, solidAll_nil⟩⟩⟩

/-- The form of a memory is solid. -/
theorem solid_memory {t : String} (h : isSolid t = true) : (word "memory" [.atom t]).Solid :=
  solid_word.2 ⟨rfl, solidAll_cons.2 ⟨solid_atom.2 h, solidAll_nil⟩⟩

/-- The atoms of the text form of a module are solid. -/
theorem Module.toSexp_solid {m : Module} (h : m.Writable) : m.toSexp.Solid := by
  have himports : SolidAll (m.imports.map Import.toSexp) := by
    rw [solidAll_iff, List.forall_mem_map]
    exact fun i hi => Import.toSexp_solid (h.imports i hi)
  have hfunctions : SolidAll (m.functions.map Func.toSexp) := by
    rw [solidAll_iff, List.forall_mem_map]
    exact fun f hf => Func.toSexp_solid (h.functions f hf)
  have hexport : (word "export" [.quotation "memory", word "memory" [.atom "0"]]).Solid :=
    solid_word.2 ⟨rfl, solidAll_cons.2 ⟨solid_atom.2 rfl,
      solidAll_cons.2 ⟨solid_memory rfl, solidAll_nil⟩⟩⟩
  refine solid_word.2 ⟨rfl, solidAll_append.2 ⟨solidAll_append.2 ⟨himports, ?_⟩, hfunctions⟩⟩
  exact solidAll_cons.2 ⟨hexport,
    solidAll_cons.2 ⟨solid_memory (isSolid_toString_nat _), solidAll_nil⟩⟩

end Wasm

/-! ## Printed trees -/

namespace Sexp

/-- **A printed tree can be read back.** An atom is printed at any width. A list is refused as
uncountable exactly at the widths that 63 bits and a sign do not hold, and as too large exactly at
the other widths for which there is no room; it is printed at the rest. Whatever separates, a tree
whose atoms are words is read back from its text at a width; its texts at two widths differ in
separators only, and no other such tree has one of them. The atoms of a compiled module are words.
-/
theorem pretty_denotes {blank : Char → Bool} (hb : Separates blank) :
    (∀ (room : Int) (s : Sexp) (width : Int),
      (s.prettyAt room (.int width) = .ok (s.pretty width) ↔ s.Printable room width) ∧
      (s.prettyAt room (.int width) = .error (.width .uncountable) ↔
        s.isList = true ∧ (width < -9223372036854775808 ∨ 9223372036854775808 ≤ width)) ∧
      (s.prettyAt room (.int width) = .error (.width .tooLarge) ↔
        s.isList = true ∧ -9223372036854775808 ≤ width ∧ width < 9223372036854775808 ∧
          room < width)) ∧
    (∀ s : Sexp, s.Plain blank → ∀ width, read? blank (s.pretty width) = some s) ∧
    (∀ s : Sexp, s.Plain blank → ∀ width width',
      (s.pretty width).toList.filter (fun c => !blank c) =
        (s.pretty width').toList.filter fun c => !blank c) ∧
    (∀ s s' : Sexp, s.Plain blank → s'.Plain blank → ∀ width width',
      s.pretty width = s'.pretty width' → s = s') ∧
    (∀ text file out j, Compile.source text file = (.ok out, j) →
      out.code.toSexp.Plain blank) := by
  have hcountable : ∀ width, Text.Countable width ↔
      -9223372036854775808 ≤ width ∧ width < 9223372036854775808 := fun _ => Iff.rfl
  refine ⟨fun room s width => ⟨prettyAt_eq_ok_iff, ?_, ?_⟩,
    fun s hs width => read?_pretty hb hs width, fun s hs width width' => ?_,
    fun s s' hs hs' width width' h => ?_, fun text file out j h => ?_⟩
  · rw [prettyAt_eq_error_iff, Text.checkRun_eq_error_iff, hcountable]
    simp
    omega
  · rw [prettyAt_eq_error_iff, Text.checkRun_eq_error_iff, hcountable]
    simp [and_assoc]
  · rw [filter_pretty hb hs, filter_pretty hb hs]
  · have hread := read?_pretty hb hs width
    rw [h, read?_pretty hb hs'] at hread
    exact (Option.some.inj hread).symm
  · exact (Module.toSexp_solid (Compile.source_writable h)).plain hb

/-- The tree of a module with nothing but a memory. -/
def memoryOnly : Sexp :=
  word "module" [word "memory" [.atom "1"]]

/-- The common white space separates words and is in none of them. -/
theorem separates_isWhitespace : Separates Char.isWhitespace where
  space := rfl
  feed := rfl
  graphic c hc := by
    rw [Bool.eq_false_iff]
    intro hblank
    simp only [Char.isWhitespace, Bool.or_eq_true, decide_eq_true_eq] at hblank
    rcases hblank with ((rfl | rfl) | rfl) | rfl <;> cases hc

/-- The words of that tree have no blank in them. -/
theorem memoryOnly_plain : memoryOnly.Plain Char.isWhitespace := by
  have hmodule : memoryOnly.Solid :=
    solid_word.2 ⟨rfl, solidAll_cons.2 ⟨solid_memory rfl, solidAll_nil⟩⟩
  exact hmodule.plain separates_isWhitespace

/-- The tree is printed at a negative width and read back, and refused at one beyond the room. -/
theorem pretty_denotes_memoryOnly :
    memoryOnly.prettyAt 80 (.int (-3)) = .ok (memoryOnly.pretty (-3)) ∧
      memoryOnly.prettyAt 80 (.int 81) = .error (.width .tooLarge) ∧
      read? Char.isWhitespace (memoryOnly.pretty (-3)) = some memoryOnly :=
  have h := pretty_denotes separates_isWhitespace
  ⟨(h.1 80 memoryOnly (-3)).1.2 fun _ => ⟨by decide, by decide⟩,
    (h.1 80 memoryOnly 81).2.2.2 ⟨rfl, by decide, by decide, by decide⟩,
    h.2.1 memoryOnly memoryOnly_plain (-3)⟩

/-- A list is not printed at every width, even if its atoms are words, whatever room there is. -/
theorem prettyAt_refuses_width :
    memoryOnly.Plain Char.isWhitespace ∧
      ∀ room, memoryOnly.prettyAt room (.int (-9223372036854775809)) =
        .error (.width .uncountable) :=
  ⟨memoryOnly_plain, fun _ => rfl⟩

end Sexp

end Clausal
