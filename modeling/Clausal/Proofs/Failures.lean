import Clausal.Proofs.Bounded
import Clausal.Proofs.Check.Stops
import Clausal.Proofs.Emit.Coverage
import Clausal.Proofs.Grammar.Formed

/-!
# How a compilation fails

`source_outcomes`: a source text without integers that are too long to convert gives a module, or a
batch of diagnostics from reading it, or one fault of the program with one of seven codes. Nothing
else ends a compilation that has stack enough: reading does not give up (`parse_reports`), the check
stops with refusals and at names that are taken (`validate_runs`), and code generation stops at a
function that is not covered (`emit_covered`).

How much stack is enough depends on the text. A compilation on a smaller stack is given up without a
diagnostic (`source_exhausts_nested`).
-/

namespace Clausal

open Token

/-- The codes of the faults for which a program is refused. -/
def faultCodes : List String :=
  ["E300", "E301", "E302", "E303", "E310", "E312", "E320"]

/-- The program is at fault, and the fault has one of the codes. -/
def Stop.IsCoded (e : Stop) : Prop :=
  ∃ f, e = .fault f ∧ f.cause.code ∈ faultCodes

/-- Every refusal has one of the codes. -/
theorem Check.Refusal.isCoded {e : Stop} (h : Check.Refusal e) : e.IsCoded := by
  cases h <;> exact ⟨_, rfl, by simp [Cause.code, faultCodes]⟩

/-- A check stops with one of the codes. -/
theorem Check.validate_isCoded (p : Program) :
    Ends (validate p) Compile.initial (fun _ _ => True) fun e _ => e.IsCoded := by
  refine (validate_runs (R := fun _ => True) stable_grounded (fun _ hs => hs)
    (fun _ hs => hs.journal _) Ends.any fun s hs _ => hs.grounded).mono (fun _ _ _ => trivial) ?_
  rintro e t (hrefusal | ⟨-, l, -, rfl⟩)
  · exact hrefusal.isCoded
  · exact ⟨_, rfl, by simp [Cause.code, faultCodes]⟩

namespace Compile

/-- A program is refused for a fault that has one of the codes. -/
theorem program_isCoded {p : Program} {e : Failure} {j : Journal}
    (h : program p = (.error e, j)) : ∃ stop, e = .stopped stop ∧ stop.IsCoded := by
  unfold program at h
  rcases hcheck : (Check.validate p).run.run initial with ⟨stop | table, s⟩
  · rw [hcheck] at h
    cases h
    exact ⟨stop, rfl, (Check.validate_isCoded p).of_error hcheck⟩
  · rw [hcheck] at h
    dsimp only at h
    rcases hemit : (emit p table).run.run [] with ⟨stop | code, j'⟩
    · rw [hemit] at h
      cases h
      have hcovered := emit_covered ((Check.validate_accepted p).of_ok hcheck) (j := [])
      obtain ⟨f, at?, -, rfl⟩ := hcovered.of_error hemit
      exact ⟨_, rfl, _, rfl, by simp [Cause.code, faultCodes]⟩
    · rw [hemit] at h
      cases h

/-- **A compilation has no other outcomes, but for its stack.** For every text there is a number of
frames from which on a compilation on a stack is what it is without one, and below which it is given
up. If no integer of the text is too long to convert, what it is without a stack is a result, or a
non-empty batch of diagnostics that are all about characters or all about lines, or one fault of the
program that has one of the codes. And no check of a call, in whatever state, gives a function a
signature that it has already; nor does it miss the signature of a checked function, if they all
have one, and then they still do. -/
theorem source_outcomes (text file : String)
    (hshort : ∀ t ∈ (scan text file).tokens, t.Short) :
    (∃ frames, ∀ room, Bounded.source text file room =
      if frames ≤ room then some (source text file) else none) ∧
    ((∃ out, (source text file).1 = .ok out) ∨
      (∃ ds, (source text file).1 = .error (.unreadable (.batch ds)) ∧ ds ≠ [] ∧
        ((∀ d ∈ ds, d.code = "E100") ∨ ∀ d ∈ ds, d.code = "E200")) ∨
      ∃ f, (source text file).1 = .error (.stopped (.fault f)) ∧
        f.cause.code ∈ faultCodes) ∧
    (∀ name args span s f at? t,
      (Check.call name args span).run.run s ≠ (.error (.fault ⟨.alreadyDefined f, at?⟩), t)) ∧
    ∀ name args span s, Check.Signed s →
      Ends (Check.call name args span) s (fun _ t => Check.Signed t)
        fun e t => Check.Signed t ∧ ∀ f, e ≠ .noSignature f := by
  refine ⟨Bounded.source_needs text file, ?_, fun name args span s f at? t hrun => ?_,
    fun name args span s => Check.call_signed name args span⟩
  · unfold source
    rcases Program.parse_reports hshort with ⟨p, hp⟩ | ⟨ds, hds, hne, hcodes⟩
    · rw [hp]
      dsimp only
      rcases hprogram : program p with ⟨e | out, j⟩
      · obtain ⟨stop, rfl, f, rfl, hcode⟩ := program_isCoded hprogram
        exact .inr (.inr ⟨f, rfl, hcode⟩)
      · exact .inl ⟨out, rfl⟩
    · rw [hds]
      exact .inr (.inl ⟨ds, rfl, hne, hcodes⟩)
  · exact (Check.call_not_alreadyDefined name args span s).of_error hrun f at? rfl

/-- A text with an integer of more digits than any number that fits in 32 bits. -/
def longNumber : String :=
  "main = -12345678901 ? half 3 : 0\nhalf 2 = 1\n"

/-- The text is reported, and it can be on every stack that is large enough. -/
theorem source_outcomes_longNumber :
    (∀ t ∈ (scan longNumber "f").tokens, t.Short) ∧
      (∃ frames, ∀ room, Bounded.source longNumber "f" room =
        if frames ≤ room then some (source longNumber "f") else none) ∧
      ∃ ds, (source longNumber "f").1 = .error (.unreadable (.batch ds)) ∧ ds ≠ [] ∧
        ((∀ d ∈ ds, d.code = "E100") ∨ ∀ d ∈ ds, d.code = "E200") := by
  have hshort : ∀ t ∈ (scan longNumber "f").tokens, t.Short := by decide +kernel
  have hread : (Program.parse longNumber "f").toOption.isNone = true := by decide +kernel
  obtain ⟨hstack, houtcome, -⟩ := source_outcomes longNumber "f" hshort
  refine ⟨hshort, hstack, ?_⟩
  -- the text is not read, so of the three outcomes only the second is left
  cases hparse : Program.parse longNumber "f" with
  | ok p =>
    rw [hparse] at hread
    cases hread
  | error e =>
    have hsource : (source longNumber "f").1 = .error (.unreadable e) := by rw [source, hparse]
    rw [hsource] at houtcome ⊢
    rcases houtcome with ⟨out, hout⟩ | hbatch | ⟨f, hf, -⟩
    · cases hout
    · exact hbatch
    · cases hf

/-- A program that has no fault and no long integer is not compiled on a stack of a thousand
frames. -/
theorem source_exhausts_nested :
    (∀ t ∈ (scan (Bounded.nested 2000) "<stdin>").tokens, t.Short) ∧
      (∃ out, (source (Bounded.nested 2000) "<stdin>").1 = .ok out) ∧
      Bounded.source (Bounded.nested 2000) "<stdin>" 1000 = none := by
  obtain ⟨hshort, hok⟩ := Bounded.compile_nested 2000 "<stdin>"
  exact ⟨hshort, hok, Bounded.source_nested 2000 "<stdin>" (by decide)⟩

end Compile

end Clausal
