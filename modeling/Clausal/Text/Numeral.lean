import Clausal.Text.Blank
import Clausal.Text.Word

/-!
# Whole numbers in texts

A whole number is written with decimal digits of any script, between which single underscores may
stand, with a sign in front or without, and with blanks around it. `integer` reads one. Plain
numerals, which are ASCII digits with an optional minus sign, have the value that `signedDecimal`
gives them (`integer_digits`, `integer_minus_digits`).
-/

namespace Clausal.Text

/-- The most digits a number may have to be converted at all. -/
def digitLimit : Nat := 4300

/-- Why a text is not read as a whole number. -/
inductive NumeralFault where
  | malformed
  /-- There are more digits than are ever converted. -/
  | tooLong (digits : Nat)
deriving DecidableEq, Repr, Inhabited

/-! ## Plain numerals -/

/-- The number that ASCII digits write. -/
def decimal (cs : List Char) : Nat :=
  cs.foldl (fun n c => 10 * n + (c.toNat - '0'.toNat)) 0

/-- The number that ASCII digits write, with an optional minus sign. -/
def signedDecimal : List Char → Int
  | '-' :: cs => - (decimal cs : Int)
  | cs => (decimal cs : Int)

/-! ## Numerals of any form -/

/-- Whether a character may stand around a number: a blank other than the information
separators. -/
def isMargin (c : Char) : Bool :=
  isBlank c && !(0x1C ≤ c.toNat && c.toNat ≤ 0x1F)

/-- Whether a character may stand inside a number. -/
def isNumeric (c : Char) : Bool :=
  c = '_' || (digitValue? c).isSome

/-- The values of digits, between which single underscores may stand. -/
def digitValues? : List Char → Option (List Nat)
  | [] => none
  | [c] => (digitValue? c).map ([·])
  | c :: '_' :: cs => do
    let d ← digitValue? c
    return d :: (← digitValues? cs)
  | c :: cs => do
    let d ← digitValue? c
    return d :: (← digitValues? cs)

/-- The number that a list of digits writes. -/
def ofDigits (ds : List Nat) : Nat :=
  ds.foldl (fun n d => 10 * n + d) 0

/-- The number in front of a text that ends with blanks. The digits are counted before what follows
them is looked at. -/
def natural (cs : List Char) : Except NumeralFault Nat :=
  match digitValues? (cs.takeWhile isNumeric) with
  | none => .error .malformed
  | some digits =>
    if digitLimit < digits.length then .error (.tooLong digits.length)
    else if (cs.dropWhile isNumeric).all isMargin then .ok (ofDigits digits)
    else .error .malformed

/-- The whole number that a text writes. -/
def integer (cs : List Char) : Except NumeralFault Int :=
  match cs.dropWhile isMargin with
  | '+' :: cs => (natural cs).map Int.ofNat
  | '-' :: cs => (natural cs).map fun n => -Int.ofNat n
  | cs => (natural cs).map Int.ofNat

/-! ## Plain numerals are numerals -/

theorem isDigit_bounds {c : Char} (h : c.isDigit = true) : 48 ≤ c.toNat ∧ c.toNat ≤ 57 := by
  simp only [Char.isDigit, Bool.and_eq_true, decide_eq_true_eq, ge_iff_le] at h
  exact ⟨UInt32.le_iff_toNat_le.mp h.1, UInt32.le_iff_toNat_le.mp h.2⟩

theorem digitValue?_digit {c : Char} (h : c.isDigit = true) :
    digitValue? c = some (c.toNat - '0'.toNat) := by
  obtain ⟨h₁, h₂⟩ := isDigit_bounds h
  have hz : '0'.toNat = 48 := rfl
  have hf : decimalDigit.find? c = some (48, 57) := by
    simp [CharClass.find?, decimalDigit, h₁, h₂]
  rw [digitValue?, hf, hz]
  simp only [Option.map_some, Option.some.injEq]
  omega

theorem isNumeric_digit {c : Char} (h : c.isDigit = true) : isNumeric c = true := by
  simp [isNumeric, digitValue?_digit h]

theorem ne_underscore_of_digit {c : Char} (h : c.isDigit = true) : c ≠ '_' := by
  rintro rfl
  exact absurd h (by decide)

theorem digitValues?_digits {cs : List Char} (hne : cs ≠ [])
    (h : ∀ c ∈ cs, c.isDigit = true) :
    digitValues? cs = some (cs.map fun c => c.toNat - '0'.toNat) := by
  induction cs with
  | nil => exact absurd rfl hne
  | cons c cs ih =>
    have hc := digitValue?_digit (h c (by simp))
    cases cs with
    | nil => simp [digitValues?, hc]
    | cons d ds =>
      have hd : d ≠ '_' := ne_underscore_of_digit (h d (by simp))
      have ih' := ih (by simp) fun x hx => h x (by simp [hx])
      rw [digitValues?]
      · simp only [hc, ih']
        rfl
      · intro hnil; exact absurd hnil (by simp)
      · intro es hes; exact hd (List.cons.inj hes).1

theorem takeWhile_of_all {p : Char → Bool} {cs : List Char} (h : ∀ c ∈ cs, p c = true) :
    cs.takeWhile p = cs ∧ cs.dropWhile p = [] := by
  induction cs with
  | nil => exact ⟨rfl, rfl⟩
  | cons c cs ih =>
    obtain ⟨ht, hd⟩ := ih fun x hx => h x (List.mem_cons_of_mem c hx)
    simp [h c (by simp), ht, hd]

/-- What `natural` makes of ASCII digits. -/
theorem natural_digits {cs : List Char} (hne : cs ≠ []) (h : ∀ c ∈ cs, c.isDigit = true) :
    natural cs =
      if digitLimit < cs.length then .error (.tooLong cs.length) else .ok (decimal cs) := by
  obtain ⟨ht, hd⟩ := takeWhile_of_all fun c hc => isNumeric_digit (h c hc)
  simp only [natural, ht, hd, digitValues?_digits hne h, List.length_map, List.all_nil, if_true,
    ofDigits, decimal, List.foldl_map]

theorem isMargin_digit {c : Char} (h : c.isDigit = true) : isMargin c = false := by
  obtain ⟨h₁, h₂⟩ := isDigit_bounds h
  have hb : isBlank c = false := by
    cases hb : isBlank c with
    | false => rfl
    | true =>
      obtain ⟨r, hr, hlo, hhi⟩ := CharClass.contains_iff.mp hb
      simp only [blank, List.mem_cons, List.not_mem_nil, or_false] at hr
      rcases hr with rfl | rfl | rfl | rfl | rfl | rfl | rfl | rfl | rfl | rfl <;>
        simp only at hlo hhi <;> omega
  simp [isMargin, hb]

/-- What `integer` makes of ASCII digits. -/
theorem integer_digits {cs : List Char} (hne : cs ≠ []) (h : ∀ c ∈ cs, c.isDigit = true) :
    integer cs =
      if digitLimit < cs.length then .error (.tooLong cs.length) else .ok (signedDecimal cs) := by
  cases cs with
  | nil => exact absurd rfl hne
  | cons c cs =>
    have hc := h c (by simp)
    have hd : (c :: cs).dropWhile isMargin = c :: cs := by simp [isMargin_digit hc]
    have hplus : c ≠ '+' := by rintro rfl; exact absurd hc (by decide)
    have hminus : c ≠ '-' := by rintro rfl; exact absurd hc (by decide)
    have hs : signedDecimal (c :: cs) = (decimal (c :: cs) : Int) := by
      rw [signedDecimal]
      intro es hes; exact hminus (List.cons.inj hes).1
    rw [integer, hd]
    split
    · rename_i es hes; exact absurd (List.cons.inj hes).1 hplus
    · rename_i es hes; exact absurd (List.cons.inj hes).1 hminus
    · rw [natural_digits hne h, hs]
      split <;> rfl

/-- What `integer` makes of ASCII digits after a minus sign. -/
theorem integer_minus_digits {cs : List Char} (hne : cs ≠ []) (h : ∀ c ∈ cs, c.isDigit = true) :
    integer ('-' :: cs) =
      if digitLimit < cs.length then .error (.tooLong cs.length)
      else .ok (signedDecimal ('-' :: cs)) := by
  have hd : ('-' :: cs).dropWhile isMargin = '-' :: cs := by
    rw [List.dropWhile_cons_of_neg (by decide)]
  rw [integer, hd]
  simp only [natural_digits hne h]
  split <;> rfl

end Clausal.Text
