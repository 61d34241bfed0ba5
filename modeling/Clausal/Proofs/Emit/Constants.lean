import Clausal.Proofs.Emit.Text

/-!
# The constants of compiled modules

Every literal of a clause becomes one constant instruction, in the order of the text, and code
generation adds no constants but those of the frame and of the built-in functions
(`Emission.constants_eq`). Only clauses that get code count: those of the functions that have a
signature, up to the first clause of a function that takes everything (`Program.coded`).

The operand of an `i32.const` fits in 32 bits, because integers are checked when a text is read. The
text of a floating-point literal becomes the operand of an `f32.const` whatever number it writes. So
the constants of a module are in range exactly if these literals are, which is a comparison of whole
numbers (`source_constants_inRange_iff`), and there are programs for which they are not
(`source_accepts_large_float`).
-/

namespace Clausal

open Token

/-! ## Decimal fractions -/

/-- The least number that is too large for 32 bits: halfway between the largest floating-point
number and the next power of two, where rounding gives an infinity. -/
def f32Limit : Nat := Nat.pow 2 128 - Nat.pow 2 103

namespace Text

/-- The digits after the point of a fraction. -/
def places (cs : List Char) : List Char :=
  (cs.dropWhile (· ≠ '.')).tail

/-- The number that a fraction without a sign writes. -/
def fraction (cs : List Char) : Rat :=
  decimal (cs.takeWhile (· ≠ '.')) + mkRat (decimal (places cs)) (Nat.pow 10 (places cs).length)

/-- The number that a fraction writes, with an optional minus sign. -/
def signedFraction : List Char → Rat
  | '-' :: cs => - fraction cs
  | cs => fraction cs

/-- Whether the digits of a fraction, read as a whole number, are small enough for the number of
places after the point. -/
def fitsF32 (cs : List Char) : Bool :=
  decimal (cs.filter Char.isDigit) < f32Limit * Nat.pow 10 (places cs).length

/-- More digits shift a number and are added to it. -/
theorem decimal_append (cs ds : List Char) :
    decimal (cs ++ ds) = decimal cs * Nat.pow 10 ds.length + decimal ds := by
  have key : ∀ n, ds.foldl (fun n c => 10 * n + (c.toNat - '0'.toNat)) n =
      n * Nat.pow 10 ds.length + decimal ds := by
    induction ds with
    | nil =>
      intro n
      simp [decimal]
    | cons d ds ih =>
      intro n
      have hdecimal : decimal (d :: ds) =
          ds.foldl (fun n c => 10 * n + (c.toNat - '0'.toNat)) (d.toNat - '0'.toNat) := by
        simp [decimal]
      have hpow : Nat.pow 10 (ds.length + 1) = Nat.pow 10 ds.length * 10 := rfl
      rw [List.foldl_cons, ih, hdecimal, ih, List.length_cons, hpow]
      grind
  rw [decimal, List.foldl_append, key]
  rfl

/-- A whole number and a quotient over a common denominator. -/
theorem add_mkRat (a b : Nat) {k : Nat} (hk : 0 < k) :
    (a : Rat) + mkRat b k = mkRat ((a * k + b : Nat) : Int) k := by
  have hne : (k : Rat) ≠ 0 := fun h => Nat.ne_of_gt hk (Rat.natCast_eq_zero_iff.1 h)
  rw [Rat.mkRat_eq_div, Rat.mkRat_eq_div]
  simp only [Rat.intCast_natCast, Rat.natCast_add, Rat.natCast_mul]
  grind

/-- A fraction is below a number if its numerator is below the product. -/
theorem mkRat_lt_iff (m n : Nat) {k : Nat} (hk : 0 < k) : mkRat m k < n ↔ m < n * k := by
  have hpos : (0 : Rat) < k := Rat.natCast_pos.2 hk
  rw [Rat.mkRat_eq_div, Rat.div_lt_iff hpos, Rat.intCast_natCast, ← Rat.natCast_mul,
    Rat.natCast_lt_natCast]

section Digits
variable {whole fractional : List Char}

/-- There is no point among digits. -/
theorem ne_point_of_isDigits (h : isDigits whole = true) :
    ∀ c ∈ whole, decide (c ≠ '.') = true := by
  intro c hc
  refine decide_eq_true ?_
  rintro rfl
  exact absurd ((isDigits_iff.1 h).2 '.' hc) (by decide)

/-- The decimal places are the digits behind the point. -/
theorem places_digits (h : isDigits whole = true) :
    places (whole ++ '.' :: fractional) = fractional := by
  rw [places, List.dropWhile_append_of_pos (ne_point_of_isDigits h),
    List.dropWhile_cons_of_neg (by decide), List.tail_cons]

/-- Digits with a point among them write a whole number of units of the last place. -/
theorem fraction_digits (h : isDigits whole = true) :
    fraction (whole ++ '.' :: fractional) =
      mkRat (decimal (whole ++ fractional)) (Nat.pow 10 fractional.length) := by
  rw [fraction, places_digits h, List.takeWhile_append_of_pos (ne_point_of_isDigits h),
    List.takeWhile_cons_of_neg (by decide), List.append_nil, decimal_append]
  exact add_mkRat _ _ (Nat.pow_pos (by decide))

/-- The test on digits is the bound on the number they stand for. -/
theorem fitsF32_digits (h : isDigits whole = true) (h' : isDigits fractional = true) :
    fitsF32 (whole ++ '.' :: fractional) = true ↔
      fraction (whole ++ '.' :: fractional) < f32Limit := by
  have hfilter : (whole ++ '.' :: fractional).filter Char.isDigit = whole ++ fractional := by
    rw [List.filter_append, List.filter_cons_of_neg (by decide),
      List.filter_eq_self.2 (isDigits_iff.1 h).2, List.filter_eq_self.2 (isDigits_iff.1 h').2]
  rw [fitsF32, hfilter, places_digits h, decide_eq_true_iff, fraction_digits h]
  exact (mkRat_lt_iff _ _ (Nat.pow_pos (by decide))).symm

end Digits

/-- Digits stand for no negative number. -/
theorem fraction_nonneg (cs : List Char) : 0 ≤ fraction cs := by
  refine Rat.add_nonneg Rat.natCast_nonneg ?_
  rw [← Rat.divInt_ofNat]
  exact Rat.divInt_nonneg (Int.natCast_nonneg _) (Int.natCast_nonneg _)

/-- **The size of a fraction** is a comparison of whole numbers. -/
theorem fitsF32_iff {t : String} (h : IsFraction t) :
    fitsF32 t.toList = true ↔ (signedFraction t.toList).abs < f32Limit := by
  obtain ⟨whole, fractional, hwhole, hfractional, htext | htext⟩ := h
  · have hvalue : signedFraction t.toList = fraction (whole ++ '.' :: fractional) := by
      rw [htext, signedFraction]
      intro cs hcs
      cases whole with
      | nil => cases hwhole
      | cons c whole => exact ne_minus_of_isDigits hwhole whole (by rw [(List.cons.inj hcs).1])
    rw [hvalue, Rat.abs_of_nonneg (fraction_nonneg _), htext]
    exact fitsF32_digits hwhole hfractional
  · have hfits : fitsF32 t.toList = fitsF32 (whole ++ '.' :: fractional) := by
      rw [htext, fitsF32, fitsF32, places, places, List.filter_cons_of_neg (by decide),
        List.dropWhile_cons_of_pos (by decide)]
    rw [hfits, htext, signedFraction, Rat.abs_neg, Rat.abs_of_nonneg (fraction_nonneg _)]
    exact fitsF32_digits hwhole hfractional

end Text

/-! ## Literals and constants -/

mutual

/-- The literals of an expression, from left to right. -/
def Expr.literals : Expr → List Literal
  | .lit v _ => [v]
  | .call _ args _ => literalsAll args
  | .binary l _ r _ => l.literals ++ r.literals
  | .cond t y n _ => t.literals ++ (y.literals ++ n.literals)

/-- The literals of several expressions. -/
def Expr.literalsAll : List Expr → List Literal
  | [] => []
  | e :: es => e.literals ++ literalsAll es

end

/-- The literal that a parameter is, if it is one. -/
def Pattern.literal? : Pattern → Option Literal
  | .name .. => none
  | .lit v _ => some v

/-- The literals of a clause: those among its parameters, and those of its body. -/
def Clause.literals (c : Clause) : List Literal :=
  c.params.filterMap Pattern.literal? ++ c.body.literals

/-- Whether a literal is small enough for 32 bits, where reading it does not make sure of that. -/
def Literal.fits : Literal → Bool
  | .float t => Text.fitsF32 t.toList
  | .int _ | .bool _ => true

/-- The clauses up to the first one that takes everything. -/
def Dispatch.reached : List Clause → List Clause
  | [] => []
  | c :: cs => if c.isCatchAll then [c] else c :: reached cs

/-- The clauses of a program that get code if its signatures are those of a table. -/
def Program.coded (p : Program) (table : SignatureTable) : List Clause :=
  (p.functions.names.filter table.has).flatMap fun f => Dispatch.reached (p.clausesOf f)

namespace Wasm

mutual

/-- The constant instructions in an instruction, in the order of its text form. -/
def Instr.constants : Instr → List Instr
  | .i32Const n => [.i32Const n]
  | .f32Const t => [.f32Const t]
  | .localGet _ => []
  | .call _ args => constantsAll args
  | .numeric _ _ a b => a.constants ++ b.constants
  | .cond _ test yes no => test.constants ++ (constantsAll yes ++ constantsAll no)
  | .drop x => x.constants
  | .store a x => a.constants ++ x.constants
  | .store8 a x => a.constants ++ x.constants

/-- The constant instructions in several instructions. -/
def Instr.constantsAll : List Instr → List Instr
  | [] => []
  | i :: is => i.constants ++ constantsAll is

end

/-- The constant instructions of a module. -/
def Module.constants (m : Module) : List Instr :=
  m.functions.flatMap fun f => Instr.constantsAll f.body

/-- A constant instruction has an operand that an assembler takes: a 32-bit integer, or a fraction
that does not round to an infinity. -/
def Instr.InRange : Instr → Prop
  | .i32Const n => -2147483648 ≤ n ∧ n ≤ 2147483647
  | .f32Const t => (Text.signedFraction t.toList).abs < f32Limit
  | _ => True

instance : DecidablePred Instr.InRange
  | .i32Const n => inferInstanceAs (Decidable (-2147483648 ≤ n ∧ n ≤ 2147483647))
  | .f32Const t => inferInstanceAs (Decidable ((Text.signedFraction t.toList).abs < f32Limit))
  | .localGet _ | .call .. | .numeric .. | .cond .. | .drop _ | .store .. | .store8 .. =>
    .isTrue trivial

mutual

/-- The constants of code that can be written can be written. -/
theorem Instr.Writable.constants : ∀ {i : Instr}, i.Writable → ∀ k ∈ i.constants, k.Writable
  | .i32Const _, h, _, hk => List.mem_singleton.1 hk ▸ h
  | .f32Const _, h, _, hk => List.mem_singleton.1 hk ▸ h
  | .call .., h, k, hk => Instr.WritableAll.constants h.2 k hk
  | .numeric .., h, k, hk | .store .., h, k, hk | .store8 .., h, k, hk =>
    (List.mem_append.1 hk).elim (h.1.constants k) (h.2.constants k)
  | .cond .., h, k, hk =>
    (List.mem_append.1 hk).elim (h.1.constants k) fun hk =>
      (List.mem_append.1 hk).elim (Instr.WritableAll.constants h.2.1 k)
        (Instr.WritableAll.constants h.2.2 k)
  | .drop x, h, k, hk => Instr.Writable.constants (i := x) h k hk

/-- The constants of instructions that can be written can be written. -/
theorem Instr.WritableAll.constants : ∀ {is : List Instr}, Instr.WritableAll is →
    ∀ k ∈ Instr.constantsAll is, k.Writable
  | _ :: _, h, k, hk =>
    (List.mem_append.1 hk).elim (h.1.constants k) (Instr.WritableAll.constants h.2 k)

end

/-- So can those of a module. -/
theorem Module.Writable.constants {m : Module} (h : m.Writable) :
    ∀ k ∈ m.constants, k.Writable := by
  intro k hk
  obtain ⟨f, hf, hk⟩ := List.mem_flatMap.1 hk
  exact (h.functions f hf).body.constants k hk

end Wasm

open Wasm

/-! ## The constants of code -/

/-- The code of a literal is its one constant. -/
theorem Literal.constants_code (v : Literal) : v.code.constants = [v.code] := by
  cases v <;> simp [Literal.code, Instr.constants]

section Lowering
variable {S : String → Option Signature} {ps : List Pattern} {types : List Ty}

mutual

/-- The constants of the code of an expression are its literals. -/
theorem Lowered.constants : ∀ {e : Expr} {ty : Ty} {code : Instr},
    Lowered S ps types e ty code → code.constants = e.literals.map Literal.code
  | .lit v _, _, _, .lit => v.constants_code
  | _, _, _, .param .. => rfl
  | _, _, _, .call _ _ hargs => hargs.constants
  | _, _, _, .arithmetic _ _ hleft hright | _, _, _, .comparison _ hleft hright => by
    simp only [Instr.constants, Expr.literals, List.map_append, hleft.constants, hright.constants]
  | _, _, _, .cond htest hyes hno => by
    simp only [Instr.constants, Instr.constantsAll, Expr.literals, List.map_append, List.append_nil,
      htest.constants, hyes.constants, hno.constants]

/-- The constants of arguments are their literals. -/
theorem LoweredArgs.constants : ∀ {es : List Expr} {tys : List Ty} {codes : List Instr},
    LoweredArgs S ps types es tys codes →
      Instr.constantsAll codes = (Expr.literalsAll es).map Literal.code
  | _, _, _, .nil => rfl
  | _, _, _, .cons hcode hcodes => by
    simp only [Instr.constantsAll, Expr.literalsAll, List.map_append, hcode.constants,
      hcodes.constants]

end

end Lowering

namespace Dispatch

/-- The constants of the tests are the literals among the parameters. -/
theorem tests_constants (index : Nat) (ps : List Pattern) :
    (tests index ps).flatMap Instr.constants =
      (ps.filterMap Pattern.literal?).map Literal.code := by
  induction ps generalizing index with
  | nil => rfl
  | cons p ps ih =>
    cases p with
    | name x span => exact ih (index + 1)
    | lit v span =>
      simp [tests, Pattern.literal?, Instr.constants, v.constants_code, ih]

/-- The constants of a conjunction are those of its conditions. -/
theorem conjunction?_constants {codes : List Instr} {guard : Instr}
    (h : conjunction? codes = some guard) :
    guard.constants = codes.flatMap Instr.constants := by
  induction codes generalizing guard with
  | nil => cases h
  | cons code codes ih =>
    rw [conjunction?_cons] at h
    cases h
    cases hrest : conjunction? codes with
    | none =>
      rw [conjunction?_eq_none_iff.1 hrest]
      simp
    | some rest => simp [Instr.constants, ih hrest]

end Dispatch

/-- A clause that takes everything has its literals in its body. -/
theorem Clause.literals_of_isCatchAll {c : Clause} (h : c.isCatchAll = true) :
    c.literals = c.body.literals := by
  have hparams : c.params.filterMap Pattern.literal? = [] := by
    refine List.filterMap_eq_nil_iff.2 fun q hq => ?_
    rw [Clause.isCatchAll, Bool.not_eq_true', List.any_eq_false] at h
    cases q with
    | name x span => rfl
    | lit v span => exact absurd rfl (h _ hq)
  rw [Clause.literals, hparams, List.nil_append]

/-- The constants of the code of clauses are the literals of those that are reached. -/
theorem Dispatched.constants {S : String → Option Signature} {sig : Signature}
    {clauses : List Clause} {code : Instr} (h : Dispatched S sig clauses code) :
    code.constants = ((Dispatch.reached clauses).flatMap Clause.literals).map Literal.code := by
  induction h with
  | @catchAll c cs code hall hcode =>
    rw [Dispatch.reached, if_pos hall, List.flatMap_singleton, Clause.literals_of_isCatchAll hall]
    exact hcode.constants
  | @guarded c cs guard code rest hguard hcode _ ih =>
    have hall : ¬ c.isCatchAll = true := by
      rw [← Dispatch.guard?_eq_none_iff, hguard]
      exact nofun
    have hliterals : guard.constants ++ code.constants = c.literals.map Literal.code := by
      rw [Dispatch.conjunction?_constants hguard, Dispatch.tests_constants, hcode.constants,
        ← List.map_append, Clause.literals]
    rw [Dispatch.reached, if_neg hall, List.flatMap_cons, List.map_append, ← ih, ← hliterals]
    simp [Instr.constants, Instr.constantsAll]

/-! ## The constants of a module -/

namespace Builtin

/-- The constants of the frame and of the built-in functions are integers. -/
theorem constants_int {f : Func} (hf : f = start Check.entryPoint ∨ f ∈ functions.map (·.1))
    (t : String) : .f32Const t ∉ Instr.constantsAll f.body := by
  simp only [functions, List.map_cons, List.map_nil, List.mem_cons, List.not_mem_nil,
    or_false] at hf
  rcases hf with rfl | rfl | rfl | rfl <;>
    simp [start, printc, printu, printi, param, Instr.constantsAll, Instr.constants]

end Builtin

namespace Emission

variable {p : Program} {table : SignatureTable} {user : List Func} {m : Module}

/-- **The constants of a module** are the literals of the clauses that get code, in their order,
between the constants of the start function and those of the built-in functions. -/
theorem constants_eq (h : Emission p table user m) :
    m.constants = Instr.constantsAll (Builtin.start Check.entryPoint).body ++
      (((p.coded table).flatMap Clause.literals).map Literal.code ++
        (Builtin.functions.map (·.1)).flatMap fun f => Instr.constantsAll f.body) := by
  have hfunction : ∀ f ∈ user, Instr.constantsAll f.body =
      ((Dispatch.reached (p.clausesOf f.name)).flatMap Clause.literals).map Literal.code := by
    intro f hf
    obtain ⟨sig, -, hcompiled⟩ := h.compiled f hf
    obtain ⟨code, hbody, hcode⟩ := hcompiled.body
    rw [hbody, ← hcode.constants, Instr.constantsAll, Instr.constantsAll, List.append_nil]
  have huser : (user.flatMap fun f => Instr.constantsAll f.body) =
      ((p.coded table).flatMap Clause.literals).map Literal.code := by
    rw [Program.coded, ← h.names, List.flatMap_map, List.flatMap_assoc, List.map_flatMap,
      List.flatMap_def, List.flatMap_def, List.map_congr_left hfunction]
  rw [Module.constants, h.functions, List.cons_append, List.flatMap_cons, List.flatMap_append,
    huser]

/-- The operands of `f32.const` are the texts of floating-point literals. -/
theorem mem_constants_f32 (h : Emission p table user m) {t : String} :
    .f32Const t ∈ m.constants ↔ ∃ c ∈ p.coded table, .float t ∈ c.literals := by
  have hcode : ∀ v : Literal, v.code = .f32Const t ↔ v = .float t := by
    intro v
    cases v <;> simp [Literal.code]
  have hbuiltin : .f32Const t ∉
      (Builtin.functions.map (·.1)).flatMap fun f => Instr.constantsAll f.body := by
    intro hmem
    obtain ⟨f, hf, hmem⟩ := List.mem_flatMap.1 hmem
    exact Builtin.constants_int (.inr hf) t hmem
  rw [h.constants_eq, List.mem_append, List.mem_append]
  simp [Builtin.constants_int (.inl rfl) t, hbuiltin, hcode]

end Emission

namespace Compile

/-- What is compiled is the program that the text was read as. -/
theorem parse_of_source {text file : String} {out : Output} {j : Journal}
    (h : source text file = (.ok out, j)) :
    Program.parse text file = .ok out.program ∧ ∃ j', program out.program = (.ok out, j') := by
  obtain ⟨p, j', hp, hout⟩ := program_of_source h
  have hprogram : out.program = p := by
    unfold program at hout
    split at hout
    · cases hout
    · split at hout
      · cases hout
      · cases hout
        rfl
  rw [hprogram]
  exact ⟨hp, j', hout⟩

/-- **The constants of a compiled text.** The emitted tree is read as the module. Every `i32.const`
has a 32-bit operand. The operands of `f32.const` are the floating-point literals of the clauses
that get code, as they stand in the text, so that all constants are in range exactly if these
literals are small enough. -/
theorem source_constants_inRange_iff {text file : String} {out : Output} {j : Journal}
    (h : source text file = (.ok out, j)) :
    Program.parse text file = .ok out.program ∧
      Module.ofSexp? out.code.toSexp = some out.code ∧
      (∀ n, .i32Const n ∈ out.code.constants → -2147483648 ≤ n ∧ n ≤ 2147483647) ∧
      (∀ t, .f32Const t ∈ out.code.constants ↔
        ∃ c ∈ out.program.coded out.signatures, .float t ∈ c.literals) ∧
      (∀ t, .f32Const t ∈ out.code.constants → IsFraction t) ∧
      ((∀ k ∈ out.code.constants, k.InRange) ↔
        ∀ c ∈ out.program.coded out.signatures, ∀ v ∈ c.literals, v.fits = true) := by
  obtain ⟨hp, j', hout⟩ := parse_of_source h
  obtain ⟨-, user, huser⟩ := program_emission hout
  have hwritable := (source_writable h).constants
  have hfraction : ∀ t, .f32Const t ∈ out.code.constants → IsFraction t :=
    fun t ht => hwritable _ ht
  refine ⟨hp, huser.ofSexp?_toSexp, fun n hn => hwritable _ hn, fun t => huser.mem_constants_f32,
    hfraction, ?_, ?_⟩
  · intro hrange c hc v hv
    cases v with
    | int n => rfl
    | bool b => rfl
    | float t =>
      have hmem := huser.mem_constants_f32.2 ⟨c, hc, hv⟩
      exact (Text.fitsF32_iff (hfraction t hmem)).2 (hrange _ hmem)
  · intro hfits k hk
    cases k with
    | i32Const n => exact hwritable _ hk
    | f32Const t =>
      obtain ⟨c, hc, ht⟩ := huser.mem_constants_f32.1 hk
      exact (Text.fitsF32_iff (hfraction t hk)).1 (hfits c hc _ ht)
    | _ => trivial

/-- A text with two literals that are too large, one behind a clause that takes everything and one
in a function that nothing calls. -/
def idleLiterals : String :=
  "main = (half 1.0 == 0.5) ? 1 : 0\nhalf 0.0 = 0.0\nhalf x = x / 2.0\n" ++
    "half 340282356779733661637539395458142568448.0 = 0.0\n" ++
    "spare = 340282356779733661637539395458142568448.0\n"

/-- Literals that get no code do no harm. -/
theorem source_constants_inRange_iff_idleLiterals :
    ∃ out j, source idleLiterals "f" = (.ok out, j) ∧
      (∀ c ∈ out.program.coded out.signatures, ∀ v ∈ c.literals, v.fits = true) ∧
      ∀ k ∈ out.code.constants, k.InRange := by
  have hrun : ((source idleLiterals "f").1.toOption.any fun out =>
      (out.program.coded out.signatures).all fun c => c.literals.all Literal.fits) = true := by
    decide +kernel
  obtain ⟨out, hout, hfits⟩ := (Option.any_eq_true _ _).1 hrun
  have hsource := run_eq_of_toOption hout
  simp only [List.all_eq_true] at hfits
  exact ⟨out, _, hsource, hfits, (source_constants_inRange_iff hsource).2.2.2.2.2.2 hfits⟩

/-- A text with a literal that is too large. -/
def largeLiteral : String :=
  "main = (340282356779733661637539395458142568448.0 == 1.0) ? 1 : 0\n"

/-- **A literal that is too large for 32 bits is accepted** and becomes a constant of the module. -/
theorem source_accepts_large_float :
    ∃ out j, source largeLiteral "<stdin>" = (.ok out, j) ∧
      .f32Const "340282356779733661637539395458142568448.0" ∈ out.code.constants ∧
      ¬ (Instr.f32Const "340282356779733661637539395458142568448.0").InRange := by
  have hrun : ((source largeLiteral "<stdin>").1.toOption.any fun out =>
      decide (∃ c ∈ out.program.coded out.signatures,
        .float "340282356779733661637539395458142568448.0" ∈ c.literals)) = true := by
    decide +kernel
  obtain ⟨out, hout, hmem⟩ := (Option.any_eq_true _ _).1 hrun
  have hsource := run_eq_of_toOption hout
  obtain ⟨-, j', hprogram⟩ := parse_of_source hsource
  obtain ⟨-, user, huser⟩ := program_emission hprogram
  exact ⟨out, _, hsource, huser.mem_constants_f32.2 (of_decide_eq_true hmem), by decide +kernel⟩

end Compile

end Clausal
