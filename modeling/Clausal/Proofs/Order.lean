import Clausal.Proofs.Check.Walk
import Clausal.Proofs.Emit.Coverage

/-!
# The order of lines

When a program is accepted, said without the check: it is `Coherent`, which speaks of its functions
by name and not of the order of its lines, and it is `Anchored`, which speaks of the walk through
its calls (`accepts_iff`).

Lines in another order, with the clauses of each function in the same order (`Reordered`), leave a
program coherent. The walk is another one, because it takes the declared functions in the order of
their signature lines, and that can matter: `accepts_depends_on_order` shows a program that is
refused in one order and accepted in another. `accepts_reordered_iff` says exactly when two orders
are judged alike; the order of the signature lines is all that matters.
-/

namespace Clausal

namespace Program

/-- A program is accepted if its compilation gives a result. -/
def Accepts (p : Program) : Prop :=
  ∃ out j, Compile.program p = (.ok out, j)

/-- What acceptance asks of a program apart from the order of its lines: it can be registered and
has an entry point, some signatures type what can be reached, and each function that can be reached
has a clause without literals. -/
structure Coherent (p : Program) : Prop where
  registrable : p.Registrable
  entry : p.Names Check.entryPoint
  typed : ∃ T : p.Assignment, p.Typing p.Reachable T.signature
  covered : ∀ f, p.Reachable f → Builtin.signatures.has f = false → Covered (p.clausesOf f)

variable {p p' : Program}

/-! ## Acceptance -/

/-- A program is accepted if it is checked and none of its functions is uncovered. -/
theorem accepts_iff_checked : p.Accepts ↔
    ∃ table s, (Check.validate p).run.run Compile.initial = (.ok table, s) ∧
      ∀ f, ¬ p.Uncovered table f := by
  unfold Accepts Compile.program
  rcases hcheck : (Check.validate p).run.run Compile.initial with ⟨e | table, s⟩
  · constructor
    · rintro ⟨out, j, h⟩
      cases h
    · rintro ⟨table, s', h, -⟩
      cases h
  · have hemit := Compile.emit_covered ((Check.validate_accepted p).of_ok hcheck) (j := [])
    dsimp only
    rcases hrun : (Compile.emit p table).run.run [] with ⟨e | code, j⟩
    · obtain ⟨f, at?, hfirst, -⟩ := hemit.of_error hrun
      have hf : p.Uncovered table f := by simpa using List.find?_some hfirst
      constructor
      · rintro ⟨out, j', h⟩
        cases h
      · rintro ⟨table', s', h, hall⟩
        cases h
        exact absurd hf (hall f)
    · exact ⟨fun _ => ⟨table, s, rfl, hemit.of_ok hrun⟩, fun _ => ⟨_, _, rfl⟩⟩

/-- An accepted program is coherent. -/
theorem Accepts.coherent (h : p.Accepts) : p.Coherent := by
  obtain ⟨table, s, hcheck, hcovered⟩ := accepts_iff_checked.1 h
  have haccepted := (Check.validate_accepted p).of_ok hcheck
  have hdomain := (Check.validate_domain p).of_ok hcheck
  refine ⟨haccepted.registrable, haccepted.names_entry, ⟨⟨table.lookup, fun f sig hf => ?_⟩, ?_⟩,
    fun f hf huser => ?_⟩
  · exact haccepted.scope f (Assoc.has_of_value? hf)
  · exact Check.typing_reachable_of_validate (by rw [hcheck]; rfl)
  · by_contra hlit
    exact hcovered f ⟨(hdomain f).2 (.inr hf), huser, hlit⟩

/-- **Acceptance, said without the check.** -/
theorem accepts_iff : p.Accepts ↔ p.Coherent ∧ p.Anchored := by
  constructor
  · intro h
    have hcoherent := h.coherent
    obtain ⟨T, hT⟩ := hcoherent.typed
    obtain ⟨table, s, hcheck, -⟩ := accepts_iff_checked.1 h
    exact ⟨hcoherent,
      (Check.validate_follows hcoherent.registrable hcoherent.entry T hT).of_ok hcheck⟩
  · rintro ⟨hcoherent, hanchored⟩
    obtain ⟨T, hT⟩ := hcoherent.typed
    have hfollows := Check.validate_follows hcoherent.registrable hcoherent.entry T hT
    rcases hcheck : (Check.validate p).run.run Compile.initial with ⟨e | table, s⟩
    · exact absurd hanchored (hfollows.of_error hcheck)
    · refine accepts_iff_checked.2 ⟨table, s, hcheck, fun f hf => ?_⟩
      rcases ((Check.validate_domain p).of_ok hcheck f).1 hf.signed with hb | hreach
      · rw [hf.user] at hb
        cases hb
      · exact hf.literals (hcoherent.covered f hreach hf.user)

/-! ## Reordering -/

/-- The same lines in another order, the clauses of each function in the same order. -/
structure Reordered (p p' : Program) : Prop where
  lines : p.lines.Perm p'.lines
  clauses : ∀ f, p.clausesOf f = p'.clausesOf f

namespace Reordered

/-- An order can be changed back. -/
theorem symm (h : p.Reordered p') : p'.Reordered p :=
  ⟨h.lines.symm, fun f => (h.clauses f).symm⟩

/-- The signature lines are the same, in another order. -/
theorem decls (h : p.Reordered p') : p.decls.Perm p'.decls :=
  h.lines.filterMap Line.decl?

/-- The names are the same. -/
theorem names_iff (h : p.Reordered p') {f : String} : p.Names f ↔ p'.Names f := by
  unfold Names
  simp only [h.lines.mem_iff]

/-- The same functions are reached. -/
theorem reachable (h : p.Reordered p') {f : String} (hf : p.Reachable f) : p'.Reachable f := by
  induction hf with
  | entry => exact .entry
  | declared hd => exact .declared (h.decls.mem_iff.1 hd)
  | call _ hc hg ih => exact .call ih (h.clauses _ ▸ hc) hg

/-- The signatures that type a program also type it in another order. -/
theorem typing (h : p.Reordered p') {T : String → Option Signature}
    (hT : p.Typing p.Reachable T) : p'.Typing p'.Reachable T where
  builtins := hT.builtins
  declared d hd := hT.declared d (h.decls.mem_iff.2 hd)
  entry := hT.entry
  clauses f hf c hc := hT.clauses f (h.symm.reachable hf) c (h.clauses f ▸ hc)

/-- A program is coherent in every order of its lines. -/
theorem coherent (h : p.Reordered p') (hp : p.Coherent) : p'.Coherent where
  registrable :=
    ⟨(h.decls.map _).nodup_iff.1 hp.registrable.nodup,
      fun l hl => hp.registrable.free l (h.lines.mem_iff.2 hl)⟩
  entry := h.names_iff.1 hp.entry
  typed := by
    obtain ⟨T, hT⟩ := hp.typed
    exact ⟨⟨T.signature, fun f sig hf => (T.scope f sig hf).imp id h.names_iff.1⟩, h.typing hT⟩
  covered f hf huser := h.clauses f ▸ hp.covered f (h.symm.reachable hf) huser

/-- The walk through the calls depends on the order of the signature lines only. -/
theorem anchored (h : p.Reordered p') (hdecls : p.decls = p'.decls) (hp : p.Anchored) :
    p'.Anchored := by
  have hcalls : p.calls = p'.calls := by
    funext f
    unfold calls
    rw [h.clauses]
  have hdeclares : p.Declares = p'.Declares := by
    unfold Declares
    rw [hdecls]
  unfold Anchored at hp ⊢
  rwa [hcalls, hdeclares, hdecls] at hp

end Reordered

/-- **Two orders of the lines are judged alike** exactly if the walks of both come back to declared
functions only or neither does, unless the program is incoherent and refused in every order. They
are judged alike in particular if the signature lines keep their order. -/
theorem accepts_reordered_iff (h : p.Reordered p') :
    ((p.Accepts ↔ p'.Accepts) ↔ (p.Coherent → (p.Anchored ↔ p'.Anchored))) ∧
      (p.decls = p'.decls → (p.Accepts ↔ p'.Accepts)) := by
  have hexact : (p.Accepts ↔ p'.Accepts) ↔ (p.Coherent → (p.Anchored ↔ p'.Anchored)) := by
    have hcoherent : p.Coherent ↔ p'.Coherent := ⟨h.coherent, h.symm.coherent⟩
    rw [accepts_iff, accepts_iff, ← hcoherent]
    exact and_congr_right_iff
  exact ⟨hexact, fun hdecls => hexact.2 fun _ => ⟨h.anchored hdecls, h.symm.anchored hdecls.symm⟩⟩

/-! ## Two orders that are judged differently -/

/-- A program in which `ask` calls `ping`, and `ping` and `pong` call each other; `ask` and `pong`
are declared, in this order or in the other one. -/
def rally (askFirst : Bool) : Program where
  file := "rally"
  lines :=
    let here : Span := ⟨"rally", 1, 1, 1, 1⟩
    let call (f : String) (args : List Expr) : Expr := .call f args here
    let clause (f : String) (params : List Pattern) (body : Expr) : Line :=
      .clause ⟨f, params, body, here⟩
    let zero : Expr := .lit (.int 0) here
    let n : Pattern := .name "n" here
    let ask : Line := .decl ⟨"ask", ⟨[.int], .int⟩, here⟩
    let pong : Line := .decl ⟨"pong", ⟨[.int], .int⟩, here⟩
    [clause "main" [] zero,
      clause "ask" [n] (call "ping" [call "n" []]),
      clause "ping" [n] (call "pong" [call "n" []]),
      clause "pong" [.lit (.int 0) here] zero,
      clause "pong" [n] (call "ping" [.binary (call "n" []) .sub (.lit (.int 1) here) here])] ++
    if askFirst then [ask, pong] else [pong, ask]

/-- The two orders of the lines. -/
theorem rally_reordered : (rally true).Reordered (rally false) :=
  ⟨(List.Perm.swap _ _ _).append_left _, fun _ => rfl⟩

/-- The order of signature lines decides: entered from `ask`, `ping` is met again before it has a
signature; entered from `pong`, it is not. -/
theorem accepts_depends_on_order :
    (rally true).Reordered (rally false) ∧ ¬ (rally true).Accepts ∧ (rally false).Accepts := by
  have hrefused : (Compile.program (rally true)).1.toOption.isNone = true := by decide +kernel
  have haccepted : (Compile.program (rally false)).1.toOption.isSome = true := by decide +kernel
  refine ⟨rally_reordered, ?_, ?_⟩
  · rintro ⟨out, j, h⟩
    rw [h] at hrefused
    cases hrefused
  · obtain ⟨out, hout⟩ := Option.isSome_iff_exists.1 haccepted
    exact ⟨out, _, run_eq_of_toOption hout⟩

/-- For this program the two orders are accepted alike exactly if they are anchored alike. -/
theorem accepts_reordered_iff_rally :
    (rally true).Reordered (rally false) ∧
      (((rally true).Accepts ↔ (rally false).Accepts) ↔
        ((rally true).Coherent → ((rally true).Anchored ↔ (rally false).Anchored))) :=
  ⟨rally_reordered, (accepts_reordered_iff rally_reordered).1⟩

end Program

end Clausal
