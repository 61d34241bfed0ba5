import Clausal.Proofs.Check.Depth
import Clausal.Proofs.Check.Operations

/-!
# Every clause is checked at most once

`validate_checks_once`: with any built-in functions the check of a program follows calls only so
deep, and however it ends, the clauses of a function whose checks have begun are the first ones of
that function, each once and in order. If it returns, they are all clauses of the functions with a
signature and no others.

Between two calls the state is `Orderly`: a function that is not active has been checked to the end
or not at all, according to whether it is validated, and an active one has been checked up to some
clause. A call leaves the active functions where they were (`Progress`), because it visits others
only, and when a visit has gone through all clauses of a function, the function is validated.
-/

namespace Clausal

/-- The clause whose check begins with an event. -/
def Event.checking? : Event → Option Clause
  | .checking c => some c
  | _ => none

namespace Check

variable {p : Program} {s t u : State} {name : String} {args : List Ty} {span : Option Span}
  {onCall : OnCall} {cs cs' : List Clause}

/-- The clauses of a function whose checks have begun, in order. -/
def State.checked (s : State) (f : String) : List Clause :=
  (s.journal.filterMap Event.checking?).filter fun c => c.name = f

/-- An entry for a clause counts for its function. -/
theorem checked_checking (s : State) (c : Clause) (f : String) :
    State.checked { s with journal := s.journal ++ [.checking c] } f =
      s.checked f ++ [c].filter fun c => c.name = f := by
  unfold State.checked
  rw [List.filterMap_append, List.filter_append]
  rfl

/-- Other entries count for none. -/
theorem checked_of_quiet {j : Journal} (hj : j.filterMap Event.checking? = []) (s : State)
    (f : String) : State.checked { s with journal := s.journal ++ j } f = s.checked f := by
  unfold State.checked
  rw [List.filterMap_append, hj, List.append_nil]

/-- The clauses whose checks have begun are the first ones of their functions. -/
def Begun (p : Program) (s : State) : Prop :=
  ∀ f, s.checked f <+: p.clausesOf f

/-- The state of a check between two calls. -/
structure Orderly (p : Program) (s : State) : Prop where
  clauses : ∀ f, s.clausesOf f = p.clausesOf f
  signed : Signed s
  active : ∀ f ∈ s.active, s.checked f <+: p.clausesOf f
  idle : ∀ f, f ∉ s.active → s.checked f = if f ∈ s.validated then p.clausesOf f else []

/-- In an orderly state every function has begun at its first clause. -/
theorem Orderly.begun (h : Orderly p s) : Begun p s := by
  intro f
  by_cases hf : f ∈ s.active
  · exact h.active f hf
  · rw [h.idle f hf]
    split
    · exact ⟨[], List.append_nil _⟩
    · exact ⟨p.clausesOf f, rfl⟩

/-- Events that begin no check change nothing. -/
theorem Orderly.quiet (h : Orderly p s) {j : Journal} (hj : j.filterMap Event.checking? = []) :
    Orderly p { s with journal := s.journal ++ j } where
  clauses := h.clauses
  signed := h.signed
  active f hf := by
    rw [checked_of_quiet hj]
    exact h.active f hf
  idle f hf := by
    rw [checked_of_quiet hj]
    exact h.idle f hf

/-- From `s` to `t` the active functions have been checked further by the clauses `cs`. -/
structure Progress (p : Program) (cs : List Clause) (s t : State) : Prop where
  orderly : Orderly p t
  frame : Frame Any s t
  checked : ∀ f ∈ s.active, t.checked f = s.checked f ++ cs.filter fun c => c.name = f

theorem Progress.refl (h : Orderly p s) : Progress p [] s s :=
  ⟨h, Frame.refl s, fun _ _ => (List.append_nil _).symm⟩

/-- Progress through some clauses, and then through others. -/
theorem Progress.trans (h : Progress p cs s t) (h' : Progress p cs' t u) :
    Progress p (cs ++ cs') s u where
  orderly := h'.orderly
  frame := h.frame.trans h'.frame
  checked f hf := by
    rw [h'.checked f (h.frame.active ▸ hf), h.checked f hf, List.filter_append, List.append_assoc]

/-- Other entries do not disturb progress. -/
theorem Progress.quiet (h : Progress p cs s t) {j : Journal}
    (hj : j.filterMap Event.checking? = []) :
    Progress p cs s { t with journal := t.journal ++ j } where
  orderly := h.orderly.quiet hj
  frame := h.frame.trans (Frame.journal t _)
  checked f hf := by
    rw [checked_of_quiet hj]
    exact h.checked f hf

/-! ## Clauses -/

/-- A call leaves the active functions where they were, and its own function is checked afterwards
unless it is active or has no clauses. -/
def CallsOnce (p : Program) (onCall : OnCall) : Prop :=
  ∀ g args span s, Orderly p s →
    Ends (onCall g args span) s
      (fun _ t => Progress p [] s t ∧ (g ∈ s.active ∨ g ∈ t.validated ∨ p.clausesOf g = []))
      fun _ t => Begun p t

/-- Calls keep the progress made so far. -/
theorem CallsOnce.steady (hcall : CallsOnce p onCall) (g : String) :
    Steady (Progress p cs s) (fun _ t => Begun p t) onCall g := by
  intro args span t ht _
  refine (hcall g args span t ht.orderly).mono (fun _ u hu => ?_) fun _ _ h => h
  have htrans := ht.trans hu.1
  rwa [List.append_nil] at htrans

/-- The check of the next clause of an active function begins. -/
theorem Orderly.begin {c : Clause} (h : Orderly p s) (hactive : c.name ∈ s.active)
    (hnext : s.checked c.name ++ [c] <+: p.clausesOf c.name) :
    Progress p [c] s { s with journal := s.journal ++ [.checking c] } := by
  refine ⟨⟨h.clauses, h.signed, fun f hf => ?_, fun f hf => ?_⟩, Frame.journal s _,
    fun f _ => checked_checking s c f⟩
  · rw [checked_checking]
    by_cases hname : c.name = f
    · subst hname
      rwa [List.filter_cons_of_pos (by simp), List.filter_nil]
    · rw [List.filter_cons_of_neg (by simpa using hname), List.filter_nil, List.append_nil]
      exact h.active f hf
  · have hname : ¬ c.name = f := fun heq => hf (heq ▸ hactive)
    rw [checked_checking, List.filter_cons_of_neg (by simpa using hname), List.filter_nil,
      List.append_nil]
    exact h.idle f hf

/-- Checking a clause makes progress by that clause. -/
theorem checkClause_once {c : Clause} (hcall : CallsOnce p onCall) (hs : Orderly p s)
    (hactive : c.name ∈ s.active) (hnext : s.checked c.name ++ [c] <+: p.clausesOf c.name) :
    Ends (checkClause onCall c args) s (fun _ t => Progress p [c] s t) fun _ t => Begun p t := by
  have hbegin := hs.begin hactive hnext
  unfold checkClause
  rw [ends_bind, ends_record]
  split
  · exact hbegin.orderly.begun
  · split
    · exact hbegin.orderly.begun
    · exact inferExpr_traverses (fun _ _ _ ht => ht.orderly.begun) c.body
        (fun g _ _ => hcall.steady g) _ hbegin

/-- Clauses of an active function are checked from where its check has come to. -/
theorem checkClauses_once (hcall : CallsOnce p onCall) (hs : Orderly p s)
    (hactive : name ∈ s.active) (hnames : ∀ c ∈ cs, c.name = name)
    (hnext : s.checked name ++ cs <+: p.clausesOf name) :
    Ends (checkClauses onCall args cs) s
      (fun results t => results.map (·.1) = cs ∧ Progress p cs s t) fun _ t => Begun p t := by
  induction cs generalizing s with
  | nil => exact ⟨rfl, Progress.refl hs⟩
  | cons c cs ih =>
    obtain ⟨rfl, hnames⟩ := List.forall_mem_cons.1 hnames
    rw [List.append_cons] at hnext
    have hfirst : s.checked c.name ++ [c] <+: p.clausesOf c.name := by
      obtain ⟨later, hlater⟩ := hnext
      exact ⟨cs ++ later, by rw [← hlater, ← List.append_assoc]⟩
    rw [checkClauses]
    refine (checkClause_once hcall hs hactive hfirst).bind fun ty t ht => ?_
    have hnext' : t.checked c.name ++ cs <+: p.clausesOf c.name := by
      rw [ht.checked c.name hactive, List.filter_cons_of_pos (by simp), List.filter_nil]
      exact hnext
    refine (ih ht.orderly (ht.frame.active ▸ hactive) hnames hnext').bind ?_
    rintro results u ⟨hresults, hu⟩
    exact ⟨congrArg (c :: ·) hresults, ht.trans hu⟩

/-! ## Calls -/

/-- A function that has not been checked becomes active. -/
theorem Orderly.enter (h : Orderly p s) (ha : name ∉ s.active) (hv : name ∉ s.validated) :
    Orderly p { s with active := name :: s.active } where
  clauses := h.clauses
  signed := h.signed
  active f hf := by
    rcases List.mem_cons.1 hf with rfl | hf
    · refine ⟨p.clausesOf f, ?_⟩
      show s.checked f ++ _ = _
      rw [h.idle f ha, if_neg hv, List.nil_append]
    · exact h.active f hf
  idle f hf := h.idle f fun hf' => hf (List.mem_cons_of_mem _ hf')

/-- The state `u` after the visit of a function whose clauses were checked up to the state `t`. -/
structure Left (p : Program) (name : String) (t u : State) : Prop where
  functions : u.functions = t.functions
  active : u.active = t.active.tail
  checked : ∀ f, u.checked f = t.checked f
  signed : Signed u
  validated : ∀ f, f ≠ name → (f ∈ u.validated ↔ f ∈ t.validated)
  name : name ∈ u.validated ∨ p.clausesOf name = []

/-- A function that has been checked to the end is left. -/
theorem Progress.leave (h : Orderly p s) (ha : name ∉ s.active) (hv : name ∉ s.validated)
    (ht : Progress p (p.clausesOf name) { s with active := name :: s.active } t)
    (hu : Left p name t u) (hframe : Frame Any s u) : Progress p [] s u := by
  have hactive : t.active = name :: s.active := ht.frame.active
  have hchecked : t.checked name = p.clausesOf name := by
    have hself : (p.clausesOf name).filter (fun c => c.name = name) = p.clausesOf name :=
      List.filter_eq_self.2 fun c hc => by simp [(Program.mem_clausesOf.1 hc).2]
    rw [ht.checked name List.mem_cons_self, hself]
    show s.checked name ++ _ = _
    rw [h.idle name ha, if_neg hv, List.nil_append]
  have hsame : ∀ f ∈ s.active, u.checked f = s.checked f := by
    intro f hf
    have hnone : (p.clausesOf name).filter (fun c => c.name = f) = [] := by
      refine List.filter_eq_nil_iff.2 fun c hc heq => ha ?_
      rw [← (Program.mem_clausesOf.1 hc).2, of_decide_eq_true heq]
      exact hf
    rw [hu.checked, ht.checked f (List.mem_cons_of_mem _ hf), hnone, List.append_nil]
    rfl
  refine ⟨⟨fun f => ?_, hu.signed, fun f hf => ?_, fun f hf => ?_⟩, hframe, fun f hf => ?_⟩
  · rw [← ht.orderly.clauses f]
    unfold State.clausesOf
    rw [hu.functions]
  · rw [hframe.active] at hf
    rw [hsame f hf]
    exact h.active f hf
  · rw [hframe.active] at hf
    rw [hu.checked]
    by_cases hname : f = name
    · subst hname
      rw [hchecked]
      split
      · rfl
      · next hno => exact hu.name.resolve_left hno
    · rw [ht.orderly.idle f (by rw [hactive]; simp [hname, hf])]
      simp only [hu.validated f hname]
  · rw [hsame f hf]
    exact (List.append_nil _).symm

/-- A visit checks all clauses of a function, and leaves the active functions where they were. -/
theorem visit_once (hcall : CallsOnce p onCall) (hs : Orderly p s) (ha : name ∉ s.active)
    (hv : name ∉ s.validated) :
    Ends (visit onCall name (s.signatures.lookup name) args span (s.clausesOf name)) s
      (fun _ t => Progress p [] s t ∧ (name ∈ t.validated ∨ p.clausesOf name = []))
      fun _ t => Begun p t := by
  have hclauses : Ends (checkClauses onCall args (s.clausesOf name))
      { s with active := name :: s.active }
      (fun results t => results.map (·.1) = p.clausesOf name ∧
        Progress p (p.clausesOf name) { s with active := name :: s.active } t)
      fun _ t => Begun p t := by
    rw [hs.clauses]
    refine checkClauses_once hcall (hs.enter ha hv) List.mem_cons_self
      (fun c hc => (Program.mem_clausesOf.1 hc).2) ⟨[], ?_⟩
    rw [List.append_nil]
    show s.checked name ++ _ = _
    rw [hs.idle name ha, if_neg hv, List.nil_append]
  refine Ends.bind (Q := fun results t => results.map (·.1) = p.clausesOf name ∧
    ∃ t₁, Progress p (p.clausesOf name) { s with active := name :: s.active } t₁ ∧
      t = { t₁ with active := t₁.active.tail }) (ends_withActive.2 (hclauses.mono
    (fun _ t₁ h => ⟨h.1, t₁, h.2, rfl⟩) fun _ _ h => h)) ?_
  rintro results - ⟨hresults, t₁, ht₁, rfl⟩
  have hframe : Frame Any s { t₁ with active := t₁.active.tail } := ht₁.frame.pop
  have hmark : ∀ v : State, name ∈ (v.mark name).validated :=
    fun v => State.mem_validated_mark_iff.2 (.inr rfl)
  have hother : ∀ (v : State) f, f ≠ name → (f ∈ (v.mark name).validated ↔ f ∈ v.validated) :=
    fun v f hf => State.mem_validated_mark_iff.trans (or_iff_left hf)
  refine settle_ends (fun sig hnil _ => ?_) (fun ty _ _ hnone => ?_) (fun sig _ hsig => ?_)
    fun _ _ => ht₁.orderly.begun
  · have hnil : p.clausesOf name = [] := by rw [← hresults, hnil, List.map_nil]
    refine ⟨Progress.leave hs ha hv ht₁ ?_ hframe, .inr hnil⟩
    exact ⟨rfl, rfl, fun _ => rfl, ht₁.orderly.signed, fun _ _ => Iff.rfl, .inr hnil⟩
  · refine ⟨Progress.leave hs ha hv ht₁ ?_ (hframe.trans (Frame.infer trivial ?_ hnone)),
      .inl (hmark _)⟩
    · exact ⟨rfl, rfl, fun f => checked_of_quiet (j := [.inferred name ⟨args, ty⟩]) rfl t₁ f,
        stable_signed.infer name _ hnone ht₁.orderly.signed, hother _, .inl (hmark _)⟩
    · rw [hframe.active]
      exact ha
  · refine ⟨Progress.leave hs ha hv ht₁ ?_ (hframe.trans (Frame.mark _ name)), .inl (hmark _)⟩
    exact ⟨rfl, rfl, fun _ => rfl,
      stable_signed.mark name sig (ht₁.frame.signatures name sig hsig) ht₁.orderly.signed,
      hother _, .inl (hmark _)⟩

/-- **A call checks the clauses of a function at most once**, at any depth. -/
theorem checkCall_once (depth : Nat) : CallsOnce p (checkCall depth) := by
  induction depth with
  | zero => exact fun g args span s hs => hs.begun
  | succ depth ih =>
    intro g args span s hs
    refine checkCall_ends (fun _ _ _ _ => hs.begun) (fun sig _ _ h => ?_) (fun _ _ => hs.begun)
      (fun _ _ => hs.begun) fun _ hv ha => ?_
    · exact ⟨Progress.refl hs, h.elim (fun hv => .inr (.inl hv)) .inl⟩
    · exact (visit_once ih hs ha hv).mono (fun _ t h => ⟨h.1, .inr h.2⟩) fun _ _ h => h

/-- Calls from outside check the clauses of each function once. -/
theorem call_once : CallsOnce p call := by
  intro g args span s hs
  rw [ends_call]
  exact checkCall_once _ g args span s hs

/-! ## Programs -/

/-- After registration nothing has been checked, which is orderly. -/
theorem Loaded.orderly {externals : Assoc Signature} (h : Loaded externals p.clauses s) :
    Orderly p s where
  clauses := h.clauses
  signed f hf := by
    rw [h.validated] at hf
    cases hf
  active f hf := by
    rw [h.active] at hf
    cases hf
  idle f _ := by
    unfold State.checked
    rw [h.journal, h.validated]
    rfl

/-- The entry point is checked, or a check stops. -/
theorem checkEntryPoint_once (hs : Orderly p s) :
    Ends checkEntryPoint s (fun _ t => Progress p [] s t) fun _ t => Begun p t := by
  unfold checkEntryPoint
  rw [ends_bind, ends_get]
  split
  · exact hs.begun
  · split
    · exact hs.begun
    · have hspan : ∀ clauses, Ends (entrySpan s clauses) s (fun _ t => t = s)
          fun _ t => Begun p t := by
        intro clauses
        unfold entrySpan
        split
        · rfl
        · rfl
        · exact hs.begun
      refine (hspan _).bind ?_
      rintro span t rfl
      refine (call_once entryPoint [] span t hs).bind fun ty u hu => ?_
      split
      · exact hu.1.orderly.begun
      · exact hu.1

/-- Functions that are declared are checked, unless that is done. -/
theorem forM_checkDeclared_once (hs : Orderly p s) (hidle : s.active = [])
    (l : List (String × Decl)) :
    Ends (l.forM fun q => checkDeclared q.2) s
      (fun _ t => Progress p [] s t ∧
        ∀ q ∈ l, q.2.name ∈ t.validated ∨ p.clausesOf q.2.name = [])
      fun _ t => Begun p t := by
  refine Ends.forM (I := fun (done : List (String × Decl)) t => Progress p [] s t ∧
    ∀ q ∈ done, q.2.name ∈ t.validated ∨ p.clausesOf q.2.name = []) ?_
    ⟨Progress.refl hs, fun q hq => absurd hq List.not_mem_nil⟩
  rintro done q rest t - ⟨ht, hdone⟩
  have hactive : q.2.name ∉ t.active := by
    rw [ht.frame.active, hidle]
    exact List.not_mem_nil
  unfold checkDeclared
  rw [ends_bind, ends_get]
  simp only [List.forall_mem_append, List.forall_mem_singleton]
  split
  · next hv => exact ⟨ht, hdone, .inl hv⟩
  split
  · next sig _ =>
    refine ends_discard.2 ((call_once q.2.name sig.params q.2.span t ht.orderly).mono
      (fun _ u hu => ?_) fun _ _ h => h)
    refine ⟨ht.trans hu.1, fun q' hq' => ?_, hu.2.resolve_left hactive⟩
    exact (hdone q' hq').imp (hu.1.frame.validated _) id
  · exact ht.orderly.begun

/-- The check between the registration and the reports leaves every declared function checked. -/
theorem examine_once (hs : Orderly p s) (hidle : s.active = []) :
    Ends examine s
      (fun _ t => Progress p [] s t ∧
        ∀ q ∈ t.declared, q.2.name ∈ t.validated ∨ p.clausesOf q.2.name = [])
      fun _ t => Begun p t := by
  refine (checkEntryPoint_once hs).bind fun ty t ht => ?_
  rw [ends_bind, ends_record, ends_bind, ends_get]
  have ht := ht.quiet (j := [.entryReturns ty]) rfl
  refine (forM_checkDeclared_once ht.orderly (ht.frame.active.trans hidle) _).mono
    (fun _ u hu => ⟨ht.trans hu.1, ?_⟩) fun _ _ h => h
  rw [hu.1.frame.declared]
  exact hu.2

/-- What the check of a program leaves behind: every declared function has been checked. -/
structure Completed (p : Program) (t : State) : Prop where
  orderly : Orderly p t
  active : t.active = []
  free : ∀ f, t.builtins.has f = true → p.clausesOf f = []
  declared : ∀ f, t.declared.has f = true → f ∈ t.validated ∨ p.clausesOf f = []

/-- Reports of unused functions are no checks. -/
theorem reports_quiet (s : State) : s.reports.filterMap Event.checking? = [] := by
  unfold State.reports
  rw [List.filterMap_filterMap, List.filterMap_eq_nil_iff]
  rintro ⟨f, clauses⟩ -
  unfold report?
  split
  · rfl
  · cases clauses <;> rfl

/-- A check that returns has completed every function that it has begun. -/
theorem validate_completed (externals : Assoc Signature) (p : Program) :
    Ends (validate p) { builtins := externals }
      (fun table t => table = t.signatures ∧ Completed p t) fun _ t => Begun p t := by
  rw [validate_eq]
  refine Ends.bind ((register_loaded externals p).mono (fun _ _ h => h) fun _ t ht f => ?_) ?_
  · unfold State.checked
    rw [ht]
    exact ⟨p.clausesOf f, rfl⟩
  intro _ s hs
  refine (examine_once hs.orderly hs.active).bind ?_
  rintro - t ⟨ht, hdeclared⟩
  refine reportUnused_spec.bind ?_
  rintro - u rfl
  refine ⟨rfl, ht.orderly.quiet (reports_quiet t), ht.frame.active.trans hs.active, fun f hf => ?_,
    fun f hf => ?_⟩
  · refine List.eq_nil_iff_forall_not_mem.2 fun c hc => ?_
    obtain ⟨hmem, rfl⟩ := Program.mem_clausesOf.1 hc
    have hf : t.builtins.has c.name = true := hf
    rw [ht.frame.builtins, hs.builtins, hs.free c hmem] at hf
    cases hf
  · obtain ⟨d, hd⟩ := Option.isSome_iff_exists.1 hf
    have hmem : (f, d) ∈ t.declared := Assoc.mem_of_value? hd
    have hname : d.name = f := hs.declared (f, d) (ht.frame.declared ▸ hmem)
    exact hname ▸ hdeclared (f, d) hmem

/-- A check that returns has checked the functions with a signature, and no others. -/
theorem Completed.checked (h : Completed p t) (ht : Consistent t) (f : String) :
    t.checked f = if t.signatures.has f then p.clausesOf f else [] := by
  rw [h.orderly.idle f (by rw [h.active]; exact List.not_mem_nil)]
  by_cases hv : f ∈ t.validated
  · obtain ⟨sig, hsig⟩ := h.orderly.signed f hv
    rw [if_pos hv, if_pos (Assoc.has_of_value? hsig)]
  · rw [if_neg hv]
    split
    · next hhas =>
      obtain ⟨sig, hsig⟩ := Option.isSome_iff_exists.1 hhas
      rcases ht.origin f sig hsig with hb | hd | hv'
      · exact (h.free f hb).symm
      · exact ((h.declared f hd).resolve_left hv).symm
      · exact absurd hv' hv
    · rfl

/-- **Every clause is checked at most once, and a check always ends.** With any built-in functions,
the check of a program follows calls into one another at most once more than there are functions
with clauses: what would be done with deeper calls does not matter. However it ends, the clauses of
a function whose checks have begun are the first ones of that function, each once and in order. If
it returns a table, they are all clauses of the function if that has a signature in the table, and
none otherwise. -/
theorem validate_checks_once (externals : Assoc Signature) (p : Program) :
    (∀ (beyond : OnCall) (levels : Nat), p.firstClauses.length < levels →
      (validateBy (followed beyond levels) p).run.run { builtins := externals } =
        (validate p).run.run { builtins := externals }) ∧
    (∀ f, ((validate p).run.run { builtins := externals }).2.checked f <+: p.clausesOf f) ∧
    ∀ table, ((validate p).run.run { builtins := externals }).1 = .ok table →
      ∀ f, ((validate p).run.run { builtins := externals }).2.checked f =
        if table.has f then p.clausesOf f else [] := by
  refine ⟨fun beyond levels h => validate_followed externals p beyond h, ?_⟩
  have hends := (validate_completed externals p).and
    (validate_safe p _ (consistent_initial externals))
  rcases hrun : (validate p).run.run { builtins := externals } with ⟨e | table, t⟩
  · refine ⟨(hends.of_error hrun).1, fun table h => ?_⟩
    cases h
  · obtain ⟨⟨rfl, ht⟩, hconsistent, -⟩ := hends.of_ok hrun
    refine ⟨ht.orderly.begun, fun table h => ?_⟩
    cases h
    exact ht.checked hconsistent

/-- The program is checked once, and calls are followed no deeper than four levels. -/
theorem validate_checks_once_parity :
    ((validate parity).run.run Compile.initial).1.toOption = some paritySignatures ∧
      (∀ beyond, (validateBy (followed beyond 4) parity).run.run Compile.initial =
        (validate parity).run.run Compile.initial) ∧
      ∀ f, ((validate parity).run.run Compile.initial).2.checked f =
        if paritySignatures.has f then parity.clausesOf f else [] := by
  obtain ⟨hlevels, -, hchecked⟩ := validate_checks_once Builtin.signatures parity
  exact ⟨validate_parity, fun beyond => hlevels beyond 4 (by decide +kernel),
    hchecked paritySignatures (congrArg Prod.fst (run_eq_of_toOption validate_parity))⟩

end Check

end Clausal
