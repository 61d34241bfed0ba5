import Mathlib.Logic.Relation
import Clausal.Proofs.Check.Walk

/-!
# Cycles of calls

A call of a function that is still being checked needs a declared signature. This module ties that
rule to the cycles of the call graph (`Program.Calls`), in both directions.

A program that is checked has no cycle of undeclared functions among those that can be reached: the
walk through its calls leaves a function after all undeclared functions that it calls, so the order
in which functions are left counts down along every path of undeclared ones (`Ordered.rank_lt`).

A program that is refused for a function without a signature has a cycle through that function,
which is undeclared (`validate_blames`). Here there is no typing to follow, so the argument is about
the active functions: each of them leads to the function that is called (`checkCall_blames`), which
closes a cycle when that one is active too. That the depth is never used up without this is a count
of the active functions.
-/

namespace Clausal

open Relation (TransGen)

/-! ## The call graph -/

mutual

/-- The calls of an expression in order have the heads of its calls. -/
theorem Expr.mem_calls_iff {g : String} : ∀ {e : Expr}, g ∈ e.calls ↔ g ∈ e.heads
  | .lit .. => by rw [Expr.calls, Expr.heads]
  | .call f args _ => by
    rw [Expr.calls, Expr.heads, List.mem_append, List.mem_singleton, List.mem_cons,
      mem_callsOf_iff]
    exact or_comm
  | .binary left _ right _ => by
    rw [Expr.calls, Expr.heads, List.mem_append, List.mem_append, left.mem_calls_iff,
      right.mem_calls_iff]
  | .cond test yes no _ => by
    rw [Expr.calls, Expr.heads, List.mem_append, List.mem_append, List.mem_append, List.mem_append,
      test.mem_calls_iff, yes.mem_calls_iff, no.mem_calls_iff]

/-- The calls of several expressions in order have the heads of their calls. -/
theorem mem_callsOf_iff {g : String} : ∀ {es : List Expr}, g ∈ callsOf es ↔ g ∈ headsOf es
  | [] => by rw [callsOf, headsOf]
  | e :: es => by
    rw [callsOf, headsOf, List.mem_append, List.mem_append, e.mem_calls_iff, mem_callsOf_iff]

end

namespace Program

/-- A function calls another one in one of its clauses. -/
def Calls (p : Program) (f g : String) : Prop :=
  ∃ c ∈ p.clausesOf f, g ∈ c.callees

/-- A function calls another one, and neither has a signature line. -/
structure CallsUndeclared (p : Program) (f g : String) : Prop where
  calls : p.Calls f g
  caller : ¬ p.Declares f
  callee : ¬ p.Declares g

/-- The calls of a function are those in its clauses. -/
theorem mem_calls_iff {p : Program} {f g : String} : g ∈ p.calls f ↔ p.Calls f g := by
  unfold calls Calls
  simp only [List.mem_flatMap, Clause.calls, Clause.callees, List.mem_filter, Expr.mem_calls_iff]

end Program

/-! ## The order in which functions are left -/

/-- In a list of functions, the latest first, every function comes once and later than the functions
without a signature that it calls. -/
def Ordered (calls : String → List String) (signed : String → Prop) : List String → Prop
  | [] => True
  | f :: left => f ∉ left ∧ (∀ g ∈ calls f, ¬ signed g → g ∈ left) ∧ Ordered calls signed left

namespace Walk

variable {calls : String → List String} {signed : String → Prop}
  {inside left left' todo : List String} {f g : String}

/-- A walk forgets nothing that it has left. -/
theorem subset (h : Walk calls signed inside left todo left') : left ⊆ left' := by
  induction h with
  | done => exact List.Subset.refl _
  | known _ _ ih | back _ _ _ ih => exact ih
  | enter _ _ _ _ ihinto ih => exact List.Subset.trans (List.subset_cons_of_subset _ ihinto) ih

/-- What a walk goes to it has left in the end, or it is inside of it and there is a signature. -/
theorem mem_of_mem_todo (h : Walk calls signed inside left todo left') (hg : g ∈ todo) :
    g ∈ left' ∨ g ∈ inside ∧ signed g := by
  induction h with
  | done => cases hg
  | known hf hrest ih =>
    rcases List.mem_cons.1 hg with rfl | hg
    · exact .inl (hrest.subset hf)
    · exact ih hg
  | back hf hs _ ih =>
    rcases List.mem_cons.1 hg with rfl | hg
    · exact .inr ⟨hf, hs⟩
    · exact ih hg
  | enter _ _ _ hrest _ ih =>
    rcases List.mem_cons.1 hg with rfl | hg
    · exact .inl (hrest.subset List.mem_cons_self)
    · exact ih hg

/-- A walk leaves functions in order. -/
theorem ordered (h : Walk calls signed inside left todo left') (hleft : Ordered calls signed left) :
    Ordered calls signed left' := by
  induction h with
  | done => exact hleft
  | known _ _ ih | back _ _ _ ih => exact ih hleft
  | enter hl _ hinto _ ihinto ih =>
    refine ih ⟨fun hmid => ?_, fun g hg hunsigned => ?_, ihinto hleft⟩
    · exact hl (hinto.mem_left_of_inside List.mem_cons_self hmid)
    · exact (hinto.mem_of_mem_todo hg).resolve_right fun hback => hunsigned hback.2

/-- What the functions that a walk has left call, it has left too, or is inside of. -/
theorem closed (h : Walk calls signed inside left todo left')
    (hleft : ∀ f ∈ left, ∀ g ∈ calls f, g ∈ left ∨ g ∈ inside) :
    ∀ f ∈ left', ∀ g ∈ calls f, g ∈ left' ∨ g ∈ inside := by
  induction h with
  | done => exact hleft
  | known _ _ ih | back _ _ _ ih => exact ih hleft
  | @enter inside left mid _ _ f _ _ hinto _ ihinto ih =>
    have hmid : ∀ f' ∈ mid, ∀ g ∈ calls f', g ∈ mid ∨ g ∈ f :: inside :=
      ihinto fun f' hf' g hg => (hleft f' hf' g hg).imp id (List.mem_cons_of_mem _)
    have hself : ∀ g, g ∈ mid ∨ g ∈ f :: inside → g ∈ f :: mid ∨ g ∈ inside := by
      rintro g (hg | hg)
      · exact .inl (List.mem_cons_of_mem _ hg)
      · rcases List.mem_cons.1 hg with rfl | hg
        · exact .inl List.mem_cons_self
        · exact .inr hg
    refine ih fun f' hf' g hg => hself g ?_
    rcases List.mem_cons.1 hf' with rfl | hf'
    · exact (hinto.mem_of_mem_todo hg).imp id And.left
    · exact hmid f' hf' g hg

end Walk

/-- Along calls of functions without a signature the order in which functions were left counts
down. -/
theorem Ordered.rank_lt {calls : String → List String} {signed : String → Prop} {f g : String} :
    ∀ {left : List String}, Ordered calls signed left → f ∈ left → g ∈ calls f → ¬ signed g →
      g ∈ left ∧ left.reverse.idxOf g < left.reverse.idxOf f
  | h :: left, ⟨hnew, hcalls, hleft⟩, hf, hg, hunsigned => by
    rw [List.reverse_cons, List.idxOf_append, List.idxOf_append]
    rcases List.mem_cons.1 hf with rfl | hf
    · have hmem := hcalls g hg hunsigned
      refine ⟨List.mem_cons_of_mem _ hmem, ?_⟩
      rw [if_pos (List.mem_reverse.2 hmem), if_neg (mt List.mem_reverse.1 hnew)]
      have hlt := List.idxOf_lt_length_of_mem (List.mem_reverse.2 hmem)
      omega
    · obtain ⟨hmem, hlt⟩ := hleft.rank_lt hf hg hunsigned
      refine ⟨List.mem_cons_of_mem _ hmem, ?_⟩
      rwa [if_pos (List.mem_reverse.2 hmem), if_pos (List.mem_reverse.2 hf)]

namespace Program

variable {p : Program} {f : String}

/-- The walk of an anchored program leaves every function that can be reached. -/
theorem Reachable.mem_left {left : List String}
    (hwalk : Walk p.calls p.Declares [] [] (Check.entryPoint :: p.decls.map (·.name)) left)
    (hf : p.Reachable f) : f ∈ left := by
  have hgone : ∀ g, g ∈ left ∨ g ∈ [] → g ∈ left := fun g hg => hg.resolve_right List.not_mem_nil
  have hclosed := hwalk.closed fun f hf => absurd hf List.not_mem_nil
  have hstart : ∀ g ∈ Check.entryPoint :: p.decls.map (·.name), g ∈ left := fun g hg =>
    hgone g ((hwalk.mem_of_mem_todo hg).imp id And.left)
  induction hf with
  | entry => exact hstart _ List.mem_cons_self
  | declared hd => exact hstart _ (List.mem_cons_of_mem _ (List.mem_map.2 ⟨_, hd, rfl⟩))
  | call _ hc hg ih => exact hgone _ (hclosed _ ih _ (mem_calls_iff.2 ⟨_, hc, hg⟩))

/-- In an anchored program no function that can be reached calls itself through undeclared ones. -/
theorem Anchored.acyclic (h : p.Anchored) (hf : p.Reachable f) :
    ¬ TransGen p.CallsUndeclared f f := by
  obtain ⟨left, hwalk⟩ := h
  have hordered := hwalk.ordered trivial
  -- a path of undeclared functions stays among those that were left, and the rank goes down
  have hpath : ∀ {g : String}, TransGen p.CallsUndeclared f g →
      g ∈ left ∧ left.reverse.idxOf g < left.reverse.idxOf f := by
    intro g hpath
    induction hpath with
    | single hcall =>
      exact hordered.rank_lt (hf.mem_left hwalk) (mem_calls_iff.2 hcall.calls) hcall.callee
    | tail _ hcall ih =>
      obtain ⟨hmem, hlt⟩ := hordered.rank_lt ih.1 (mem_calls_iff.2 hcall.calls) hcall.callee
      exact ⟨hmem, Nat.lt_trans hlt ih.2⟩
  exact fun hcycle => absurd (hpath hcycle).2 (Nat.lt_irrefl _)

end Program

/-! ## Refusals for a function without a signature -/

namespace Check

variable {s₀ s t : State} {inside : List String} {name : String} {args : List Ty}
  {span : Option Span}

/-- A function calls another one in one of its registered clauses. -/
def State.Calls (s : State) (f g : String) : Prop :=
  ∃ c ∈ s.clausesOf f, g ∈ c.callees

/-- If a function is refused for having no signature, it had none at first and lies on a cycle. -/
def Blames (s₀ : State) (e : Stop) : Prop :=
  ∀ f span, e = .fault ⟨.untyped f, span⟩ →
    s₀.signatures.lookup f = none ∧ TransGen s₀.Calls f f

/-- A plain refusal blames no cycle. -/
theorem Plain.blames {e : Stop} (h : Plain e) : Blames s₀ e :=
  fun f span he => absurd he (h.2 f span)

theorem blames_alreadyDefined : Blames s₀ (.fault ⟨.alreadyDefined name, span⟩) :=
  fun _ _ h => by cases h

theorem blames_noClause : Blames s₀ (.fault ⟨.noClause name, span⟩) :=
  fun _ _ h => by cases h

theorem blames_noSignature : Blames s₀ (.noSignature name) :=
  fun _ _ h => by cases h

/-- A state of a check that is inside of some functions. -/
structure Inside (s₀ : State) (inside : List String) (s : State) : Prop where
  functions : s.functions = s₀.functions
  declared : s.declared = s₀.declared
  active : s.active = inside
  signatures : Extends s₀.signatures.lookup s.signatures.lookup

namespace Inside

/-- The journal does not matter. -/
theorem journal (h : Inside s₀ inside s) (j : Journal) : Inside s₀ inside { s with journal := j } :=
  ⟨h.functions, h.declared, h.active, h.signatures⟩

/-- A function that is entered is the innermost one. -/
theorem push (h : Inside s₀ inside s) (name : String) :
    Inside s₀ (name :: inside) { s with active := name :: s.active } :=
  ⟨h.functions, h.declared, congrArg (name :: ·) h.active, h.signatures⟩

/-- A function that is left is no longer inside. -/
theorem pop (h : Inside s₀ (name :: inside) s) :
    Inside s₀ inside { s with active := s.active.tail } :=
  ⟨h.functions, h.declared, congrArg List.tail h.active, h.signatures⟩

/-- Marking a function does not move. -/
theorem mark (h : Inside s₀ inside s) (name : String) : Inside s₀ inside (s.mark name) :=
  ⟨h.functions, h.declared, h.active, h.signatures⟩

/-- An inferred signature does not move, if there was none. -/
theorem infer {sig : Signature} (h : Inside s₀ inside s) (hnone : s.signatures.lookup name = none) :
    Inside s₀ inside (s.infer name sig) where
  functions := h.functions
  declared := h.declared
  active := h.active
  signatures f sig' hf := by
    have hf := h.signatures f sig' hf
    rw [State.lookup_infer hnone, if_neg]
    · exact hf
    · rintro rfl
      exact nomatch hnone.symm.trans hf

/-- The clauses are those from the registration. -/
theorem clausesOf (h : Inside s₀ inside s) (f : String) : s.clausesOf f = s₀.clausesOf f := by
  unfold State.clausesOf
  rw [h.functions]

end Inside

/-- **A call blames functions on cycles only**, if the active functions lead to the called one and
there is depth left for all functions that are not active. -/
theorem checkCall_blames (depth : Nat) {g : String} (hstack : Stack s₀ inside)
    (hdepth : s₀.functions.length < depth + inside.length)
    (hleads : ∀ f ∈ inside, TransGen s₀.Calls f g) (hs : Inside s₀ inside s) :
    Ends (checkCall depth g args span) s (fun _ t => Inside s₀ inside t)
      fun e _ => Blames s₀ e := by
  induction depth generalizing inside g args span s with
  | zero =>
    have hle := hstack.length_le
    omega
  | succ depth ih =>
    refine checkCall_run (fun _ _ _ _ he => he.blames) (fun _ _ _ _ => hs)
      (fun _ _ => blames_noSignature) (fun hnone ha => ?_) fun _ _ ha => ?_
    · -- the called function is active, and so it leads to itself
      rintro f span' ⟨⟩
      refine ⟨?_, hleads _ (hs.active ▸ ha)⟩
      cases hl : s₀.signatures.lookup g with
      | none => rfl
      | some sig => exact nomatch hnone.symm.trans (hs.signatures _ _ hl)
    · have hclauses : ∀ c ∈ s.clausesOf g, ∀ g' ∈ c.callees,
          Steady (Inside s₀ (g :: inside)) (fun e _ => Blames s₀ e) (checkCall depth) g' := by
        intro c hc g' hg' args span t ht _
        rw [hs.clausesOf] at hc
        have hcall : s₀.Calls g g' := ⟨c, hc, hg'⟩
        refine ih ⟨List.nodup_cons.2 ⟨hs.active ▸ ha, hstack.nodup⟩,
          List.forall_mem_cons.2 ⟨List.ne_nil_of_mem hc, hstack.clauses⟩⟩ ?_ ?_ ht
        · rw [List.length_cons]
          omega
        · exact List.forall_mem_cons.2 ⟨.single hcall, fun f hf => (hleads f hf).tail hcall⟩
      have hvisit : Ends (withActive g (checkClauses (checkCall depth) args (s.clausesOf g))) s
          (fun _ t => Inside s₀ inside t) fun e _ => Blames s₀ e :=
        ends_withActive.2 <| (checkClauses_traverses (fun _ _ he _ => he.blames)
          (fun t _ ht => ht.journal _) hclauses (hs.push g)).mono (fun _ _ ht => ht.2.pop)
          fun _ _ he => he
      refine hvisit.bind fun results t ht => ?_
      exact settle_run (fun _ _ _ => ht) (fun _ _ _ hnone => ht.infer hnone)
        (fun _ _ _ => ht.mark g) (fun _ _ => blames_noClause) (fun _ _ _ => blames_alreadyDefined)
        fun _ _ he => he.blames

/-- A call from outside blames functions on cycles only. -/
theorem call_blames (hs : Inside s₀ [] s) :
    Ends (call name args span) s (fun _ t => Inside s₀ [] t) fun e _ => Blames s₀ e := by
  rw [ends_call, hs.functions]
  exact checkCall_blames _ ⟨List.nodup_nil, fun f hf => absurd hf List.not_mem_nil⟩
    (Nat.lt_succ_self _) (fun f hf => absurd hf List.not_mem_nil) hs

/-- **The check of a program blames undeclared functions on cycles only.** -/
theorem validate_blames (p : Program) :
    Ends (validate p) Compile.initial (fun _ _ => True) fun e _ =>
      ∀ f span, e = .fault ⟨.untyped f, span⟩ → ¬ p.Declares f ∧ TransGen p.Calls f f := by
  -- what is registered is what the lines of the program say
  have hprogram : ∀ {s e}, Entered p.decls p.clauses s → Blames s e →
      ∀ f span, e = .fault ⟨.untyped f, span⟩ → ¬ p.Declares f ∧ TransGen p.Calls f f := by
    intro s e hs he f span hf
    obtain ⟨hnone, hcycle⟩ := he f span hf
    refine ⟨?_, hcycle.lift id fun f g ⟨c, hc, hg⟩ => ⟨c, hs.clausesOf f ▸ hc, hg⟩⟩
    rintro ⟨d, hd, rfl⟩
    exact nomatch hnone.symm.trans (hs.lookup_eq_some_iff.2 (.inr ⟨d, hd, rfl, rfl⟩))
  refine validate_run (R := fun _ => True)
    (I := fun _ t => ∃ s, Entered p.decls p.clauses s ∧ Inside s [] t) ?_
    (fun s hs _ _ => hprogram hs Plain.notFound.blames) (fun s hs _ _ _ _ => ?_)
    (fun _ _ _ t _ ⟨s, hs, ht⟩ _ => ?_) (fun _ _ _ _ _ ht _ => ht)
    (fun t ⟨s, hs, ht⟩ => ht.declared.trans hs.declared) fun _ _ => trivial
  · refine (register_spec p).mono (fun _ _ h => ⟨h.2, trivial⟩) ?_
    rintro e t ⟨-, l, -, rfl⟩ f span hf
    cases hf
  · have hstart : Inside s [] s := ⟨rfl, rfl, hs.active, Extends.refl _⟩
    refine (call_blames hstart).mono (fun ty t ht => ⟨fun _ => ⟨s, hs, ht.journal _⟩, fun _ => ?_⟩)
      fun _ _ he => hprogram hs he
    exact hprogram hs Plain.typeMismatch.blames
  · exact (call_blames ht).mono (fun _ u hu => ⟨s, hs, hu⟩) fun _ _ he => hprogram hs he

/-! ## Both directions -/

/-- A program whose check returns is anchored. -/
theorem anchored_of_validate {p : Program} {table : SignatureTable}
    (h : (validate p).run.run Compile.initial = (.ok table, t)) : p.Anchored := by
  have haccepted := (validate_accepted p).of_ok h
  have htyping : p.Typing p.Reachable table.lookup := typing_reachable_of_validate (by rw [h]; rfl)
  exact (validate_follows haccepted.registrable haccepted.names_entry
    ⟨table.lookup, fun f sig hf => haccepted.scope f (Assoc.has_of_value? hf)⟩ htyping).of_ok h

/-- A function that has been checked can be reached. -/
theorem reachable_of_validated {p : Program} {table : SignatureTable}
    (h : (validate p).run.run Compile.initial = (.ok table, t)) {f : String}
    (hf : f ∈ t.validated) : p.Reachable f := by
  obtain ⟨rfl, hchecked⟩ := (validate_checked p).of_ok h
  obtain ⟨hclauses, sig, hsig, -⟩ := hchecked.sound f hf
  rcases ((validate_domain p).of_ok h f).1 (Assoc.has_of_value? hsig) with hb | hreach
  · rw [hchecked.clausesOf] at hclauses
    obtain ⟨c, hc⟩ := List.exists_mem_of_ne_nil _ hclauses
    obtain ⟨hc, hname⟩ := Program.mem_clausesOf.1 hc
    obtain ⟨s, hs, -⟩ := hchecked.start
    exact absurd (.inl hb) (hs.free f (.inr (List.mem_map.2 ⟨c, hc, hname⟩)))
  · exact hreach

/-- **Refusals for a function without a signature are tied to cycles of undeclared functions.** If
the check of a program returns, the calls between checked functions without a signature line have no
cycle, and no function that can be reached calls itself directly or through undeclared functions.
And if no function without a signature line lies on any cycle of the call graph, the check does not
refuse a function for having no signature. -/
theorem validate_untyped_cycles (p : Program) :
    (∀ table t, (validate p).run.run Compile.initial = (.ok table, t) →
      (∀ f, ¬ TransGen (fun f g => f ∈ t.validated ∧ g ∈ t.validated ∧ p.CallsUndeclared f g) f f) ∧
      ∀ f, p.Reachable f → ¬ TransGen p.CallsUndeclared f f) ∧
    ((∀ f, ¬ p.Declares f → ¬ TransGen p.Calls f f) →
      ∀ f span t, (validate p).run.run Compile.initial ≠
        (.error (.fault ⟨.untyped f, span⟩), t)) := by
  refine ⟨fun table t h => ?_, fun hacyclic f span t h => ?_⟩
  · have hreachable : ∀ f, p.Reachable f → ¬ TransGen p.CallsUndeclared f f :=
      fun f hf => (anchored_of_validate h).acyclic hf
    refine ⟨fun f hcycle => ?_, hreachable⟩
    obtain ⟨g, hfirst, -⟩ := TransGen.head'_iff.1 hcycle
    exact hreachable f (reachable_of_validated h hfirst.1)
      (hcycle.lift id fun _ _ hcall => hcall.2.2)
  · obtain ⟨hundeclared, hcycle⟩ := (validate_blames p).of_error h f span rfl
    exact hacyclic f hundeclared hcycle

/-- A program whose only cycle goes through the declared `countdown`; `less` is undeclared. -/
def countdown : Program where
  file := "countdown"
  lines :=
    let here : Span := ⟨"countdown", 1, 1, 1, 1⟩
    let int (n : Int) : Expr := .lit (.int n) here
    let call (f : String) (args : List Expr) : Expr := .call f args here
    let clause (f : String) (params : List Pattern) (body : Expr) : Line :=
      .clause ⟨f, params, body, here⟩
    let n : Pattern := .name "n" here
    [clause "main" [] (call "countdown" [int 3]),
      clause "countdown" [.lit (.int 0) here] (int 0),
      clause "countdown" [n] (call "countdown" [call "less" [call "n" []]]),
      clause "less" [n] (.binary (call "n" []) .sub (int 1) here),
      .decl ⟨"countdown", ⟨[.int], .int⟩, here⟩]

/-- On a cycle of `countdown` lies only the declared function. -/
theorem countdown_cycle {f : String} (h : TransGen countdown.Calls f f) :
    countdown.Declares f := by
  have hedges : ∀ c ∈ countdown.clauses, ∀ g ∈ c.callees,
      c.name ∈ ["main", "countdown"] ∧ g ∈ ["countdown", "less"] := by decide +kernel
  obtain ⟨g, ⟨c, hc, hg⟩, -⟩ := TransGen.head'_iff.1 h
  obtain ⟨g', -, c', hc', hf⟩ := TransGen.tail'_iff.1 h
  obtain ⟨hmem, rfl⟩ := Program.mem_clausesOf.1 hc
  have hcaller := (hedges c hmem g hg).1
  have hcallee := (hedges c' (Program.mem_clausesOf.1 hc').1 _ hf).2
  have hname : c.name = "countdown" := by
    rcases List.mem_pair.1 hcaller with hmain | hname
    · rw [hmain] at hcallee
      exact absurd hcallee (by decide)
    · exact hname
  rw [hname]
  exact ⟨⟨"countdown", ⟨[.int], .int⟩, ⟨"countdown", 1, 1, 1, 1⟩⟩, by decide +kernel, rfl⟩

/-- The cycle of the program is declared, so no function is refused as untyped. -/
theorem validate_untyped_cycles_countdown :
    (∃ table t, (validate countdown).run.run Compile.initial = (.ok table, t) ∧
      "less" ∈ t.validated ∧ countdown.Calls "countdown" "less" ∧
      ∀ f, countdown.Reachable f → ¬ TransGen countdown.CallsUndeclared f f) ∧
    (∀ f, ¬ countdown.Declares f → ¬ TransGen countdown.Calls f f) ∧
    ∀ f span t, (validate countdown).run.run Compile.initial ≠
      (.error (.fault ⟨.untyped f, span⟩), t) := by
  have hcycles : ∀ f, ¬ countdown.Declares f → ¬ TransGen countdown.Calls f f :=
    fun f hf hcycle => hf (countdown_cycle hcycle)
  have hok : ((validate countdown).run.run Compile.initial).1.toOption.isSome = true := by
    decide +kernel
  have hless : "less" ∈ ((validate countdown).run.run Compile.initial).2.validated := by
    decide +kernel
  have hcalls : ∃ c ∈ countdown.clausesOf "countdown", "less" ∈ c.callees := by decide +kernel
  obtain ⟨table, htable⟩ := Option.isSome_iff_exists.1 hok
  have hrun := run_eq_of_toOption htable
  refine ⟨⟨table, _, hrun, hless, hcalls, ?_⟩, hcycles,
    (validate_untyped_cycles countdown).2 hcycles⟩
  exact ((validate_untyped_cycles countdown).1 table _ hrun).2

end Check

end Clausal
