import Clausal.Proofs.Check.Register

/-!
# Soundness of type inference

`validate_sound`: whenever the check of a program returns a table, the table is a typing of the
program. It gives the built-in and the declared functions their signatures, makes the entry point
an integer without parameters, and every clause of every function in it has the signature that the
table gives the function, with the calls in its body typed by that same table.

The invariant of the traversal is `Sound`: the clauses of validated functions are typed by the
signatures found so far. A call to a function that is still being checked is typed by its declared
signature alone, so nothing has to be assumed about clauses that have not been looked at; and
signatures are only added, which keeps what has been typed (`HasType.mono`).
-/

namespace Clausal

/-- The signatures `T` type the functions of a program that have `on`. -/
structure Program.Typing (p : Program) (on : String → Prop) (T : String → Option Signature) :
    Prop where
  builtins : ∀ f sig, Builtin.signatures.value? f = some sig → T f = some sig
  declared : ∀ d ∈ p.decls, T d.name = some d.signature
  entry : T Check.entryPoint = some ⟨[], .int⟩
  clauses : ∀ f, on f → ∀ c ∈ p.clausesOf f, ∃ sig, T f = some sig ∧ c.HasSignature T sig

/-- The functions that a program can call: the built-in ones and those that a line is about. -/
def Program.HasFunction (p : Program) (f : String) : Prop :=
  Builtin.signatures.has f = true ∨ p.Names f

/-- What the check of a program guarantees of the table it returns: the program could be
registered, only functions of the program have a signature, and the signatures are a typing of the
functions that have one. -/
structure Program.Accepted (p : Program) (table : SignatureTable) : Prop where
  registrable : p.Registrable
  scope : ∀ f, table.has f = true → p.HasFunction f
  typing : p.Typing (fun f => table.has f = true) table.lookup

/-- A line of an accepted program is about the entry point. -/
theorem Program.Accepted.names_entry {p : Program} {table : SignatureTable}
    (h : p.Accepted table) : p.Names Check.entryPoint := by
  refine (h.scope _ (Assoc.has_of_value? h.typing.entry)).resolve_left ?_
  exact Bool.false_ne_true

namespace Check

variable {s t : State} {args : List Ty} {span : Option Span} {onCall : OnCall}

/-- Every validated function has clauses, which are typed by the signatures found so far. -/
def Sound (s : State) : Prop :=
  ∀ f ∈ s.validated, s.clausesOf f ≠ [] ∧ ∃ sig, s.signatures.lookup f = some sig ∧
    ∀ c ∈ s.clausesOf f, c.HasSignature s.signatures.lookup sig

/-- A checked call is typed by the signature that its function has afterwards. -/
def SoundCall (onCall : OnCall) : Prop :=
  ∀ g args span s, Sound s → Ends (onCall g args span) s
    (fun ty t => Sound t ∧ Frame Any s t ∧ t.signatures.lookup g = some ⟨args, ty⟩)
    fun _ _ => True

/-- A check does not change the clauses of a function. -/
theorem Frame.clausesOf {P : String → Prop} (h : Frame P s t) (f : String) :
    t.clausesOf f = s.clausesOf f := by
  unfold State.clausesOf
  rw [h.functions]

/-! ## Expressions -/

section Expressions
variable {locals : Assoc Ty}

mutual

/-- An inferred type is a type of the expression, if the calls in it are sound. -/
theorem inferExpr_sound (hcall : SoundCall onCall) :
    ∀ (e : Expr) (s : State), Sound s → Ends (inferExpr onCall locals e) s
      (fun ty t => Sound t ∧ Frame Any s t ∧ HasType t.signatures.lookup locals.value? e ty)
      fun _ _ => True
  | .lit value _, s, hs => ⟨hs, Frame.refl s, .lit⟩
  | .call g es span, s, hs => by
    rw [inferExpr]
    refine (inferArgs_sound hcall es s hs).bind fun types t ⟨ht, hst, htypes⟩ => ?_
    split
    · next ty hlocal =>
      split
      · next hnil =>
        cases htypes with
        | nil => exact ⟨ht, hst, .param hlocal⟩
        | cons => cases hnil
      · trivial
    · next hnone =>
      rw [ends_bind, ends_get]
      split
      · refine (hcall g types span t ht).mono (fun ty u ⟨hu, htu, hg⟩ => ?_) fun _ _ h => h
        exact ⟨hu, hst.trans htu, .call hnone hg (htypes.mono htu.signatures)⟩
      · trivial
  | .binary left op right span, s, hs => by
    rw [inferExpr]
    refine (inferExpr_sound hcall left s hs).bind fun leftType t ⟨ht, hst, hleft⟩ => ?_
    refine (inferExpr_sound hcall right t ht).bind fun rightType u ⟨hu, htu, hright⟩ => ?_
    have hleft := hleft.mono htu.signatures
    unfold operatorType
    split
    · trivial
    · next heq =>
      have heq : leftType = rightType := Classical.not_not.1 heq
      subst heq
      split
      · next hop => exact ⟨hu, hst.trans htu, .comparison (by simpa using hop) hleft hright⟩
      · next hop =>
        split
        · trivial
        · next hne =>
          exact ⟨hu, hst.trans htu, .arithmetic (by simpa using hop) hne hleft hright⟩
  | .cond test yes no span, s, hs => by
    rw [inferExpr]
    refine (inferExpr_sound hcall test s hs).bind fun testType t ⟨ht, hst, htest⟩ => ?_
    split
    · trivial
    · next hbool =>
      have hbool : testType = .bool := Classical.not_not.1 hbool
      subst hbool
      refine (inferExpr_sound hcall yes t ht).bind fun yesType u ⟨hu, htu, hyes⟩ => ?_
      refine (inferExpr_sound hcall no u hu).bind fun noType v ⟨hv, huv, hno⟩ => ?_
      split
      · trivial
      · next heq =>
        have heq : yesType = noType := Classical.not_not.1 heq
        subst heq
        have htv := htu.trans huv
        exact ⟨hv, hst.trans htv,
          .cond (htest.mono htv.signatures) (hyes.mono huv.signatures) hno⟩

/-- Inferred types are types of the arguments, if the calls in them are sound. -/
theorem inferArgs_sound (hcall : SoundCall onCall) :
    ∀ (es : List Expr) (s : State), Sound s → Ends (inferArgs onCall locals es) s
      (fun types t => Sound t ∧ Frame Any s t ∧
        HaveTypes t.signatures.lookup locals.value? es types)
      fun _ _ => True
  | [], s, hs => ⟨hs, Frame.refl s, .nil⟩
  | e :: es, s, hs => by
    rw [inferArgs]
    refine (inferExpr_sound hcall e s hs).bind fun ty t ⟨ht, hst, he⟩ => ?_
    refine (inferArgs_sound hcall es t ht).bind fun types u ⟨hu, htu, hes⟩ => ?_
    exact ⟨hu, hst.trans htu, .cons (he.mono htu.signatures) hes⟩

end

end Expressions

/-! ## Clauses -/

/-- No literal parameter is of another type than the argument at its position. -/
theorem literalMismatch?_eq_none_iff : ∀ {ps : List Pattern} {types : List Ty},
    ps.length = types.length → (literalMismatch? ps types = none ↔
      ∀ (i : Nat) (value : Literal) (span : Span), ps[i]? = some (.lit value span) →
        types[i]? = some value.ty)
  | [], [], _ => ⟨fun _ i value span h => by simp at h, fun _ => rfl⟩
  | .name n sp :: ps, ty :: types, hlen => by
    rw [literalMismatch?, literalMismatch?_eq_none_iff (Nat.succ.inj hlen)]
    refine ⟨fun h i value span hi => ?_, fun h i value span hi => h (i + 1) value span hi⟩
    cases i with
    | zero => cases hi
    | succ i => exact h i value span hi
  | .lit v sp :: ps, ty :: types, hlen => by
    rw [literalMismatch?]
    split
    · next hne =>
      constructor
      · intro h
        cases h
      · intro h
        exact absurd (Option.some.inj (h 0 v sp rfl)).symm hne
    · next heq =>
      have heq : v.ty = ty := Classical.not_not.1 heq
      rw [literalMismatch?_eq_none_iff (Nat.succ.inj hlen)]
      refine ⟨fun h i value span hi => ?_, fun h i value span hi => h (i + 1) value span hi⟩
      cases i with
      | zero => cases hi; exact congrArg some heq.symm
      | succ i => exact h i value span hi

/-- A checked clause has the signature of its arguments and the type of its body. -/
theorem checkClause_sound {c : Clause} (hcall : SoundCall onCall) (hs : Sound s) :
    Ends (checkClause onCall c args) s
      (fun ty t => Sound t ∧ Frame Any s t ∧ c.HasSignature t.signatures.lookup ⟨args, ty⟩)
      fun _ _ => True := by
  unfold checkClause
  rw [ends_bind, ends_record]
  split
  · trivial
  · next hlen =>
    have hlen : c.params.length = args.length := Classical.not_not.1 hlen
    split
    · trivial
    · next hlit =>
      have hs' : Sound { s with journal := s.journal ++ [.checking c] } := hs
      refine (inferExpr_sound hcall c.body _ hs').mono ?_ fun _ _ h => h
      rintro ty t ⟨ht, hst, hty⟩
      refine ⟨ht, (Frame.journal s _).trans hst, hlen,
        (literalMismatch?_eq_none_iff hlen).1 hlit, ?_⟩
      have hlocals : Assoc.value? (Assoc.ofPairs (Pattern.bindings c.params args)) =
          Pattern.argument? c.params args :=
        funext (Pattern.value?_ofPairs_bindings (Nat.le_of_eq hlen))
      rwa [hlocals] at hty

/-- Checked clauses come back in order, each with the type of its body. -/
theorem checkClauses_sound {clauses : List Clause} (hcall : SoundCall onCall) (hs : Sound s) :
    Ends (checkClauses onCall args clauses) s
      (fun results t => Sound t ∧ Frame Any s t ∧ results.map (·.1) = clauses ∧
        ∀ r ∈ results, r.1.HasSignature t.signatures.lookup ⟨args, r.2⟩)
      fun _ _ => True := by
  induction clauses generalizing s with
  | nil =>
    refine ⟨hs, Frame.refl s, rfl, fun r hr => ?_⟩
    cases hr
  | cons c clauses ih =>
    rw [checkClauses]
    refine (checkClause_sound hcall hs).bind ?_
    rintro ty t ⟨ht, hst, hc⟩
    refine (ih ht).bind ?_
    rintro results u ⟨hu, htu, hnames, hresults⟩
    refine ⟨hu, hst.trans htu, congrArg (c :: ·) hnames, fun r hr => ?_⟩
    rcases List.mem_cons.1 hr with rfl | hr
    · exact hc.mono htu.signatures
    · exact hresults r hr

/-! ## Calls -/

/-- A function that becomes validated keeps the invariant if its clauses are typed. -/
theorem Sound.of_frame {P : String → Prop} {name : String} {sig : Signature} (hs : Sound s)
    (hst : Frame P s t) (hvalidated : ∀ f ∈ t.validated, f ∈ s.validated ∨ f = name)
    (hname : t.signatures.lookup name = some sig) (hne : s.clausesOf name ≠ [])
    (hclauses : ∀ c ∈ s.clausesOf name, c.HasSignature t.signatures.lookup sig) : Sound t := by
  intro f hf
  rw [hst.clausesOf]
  rcases hvalidated f hf with hf | rfl
  · obtain ⟨hne', sig', hsig, hc⟩ := hs f hf
    exact ⟨hne', sig', hst.signatures f sig' hsig, fun c hmem => (hc c hmem).mono hst.signatures⟩
  · exact ⟨hne, sig, hname, hclauses⟩

/-- A visited function has the signature of the call, and is validated if it has clauses. -/
theorem visit_sound {name : String} (hcall : SoundCall onCall) (hs : Sound s)
    (hargs : ∀ sig, s.signatures.lookup name = some sig → args = sig.params)
    (ha : name ∉ s.active) :
    Ends (visit onCall name (s.signatures.lookup name) args span (s.clausesOf name)) s
      (fun ty t => Sound t ∧ Frame Any s t ∧ t.signatures.lookup name = some ⟨args, ty⟩ ∧
        (s.clausesOf name = [] ∨ name ∈ t.validated))
      fun _ _ => True := by
  have hactive : Sound { s with active := name :: s.active } := hs
  have hchecked : Ends (withActive name (checkClauses onCall args (s.clausesOf name))) s
      (fun results t => Sound t ∧ Frame Any s t ∧ results.map (·.1) = s.clausesOf name ∧
        ∀ r ∈ results, r.1.HasSignature t.signatures.lookup ⟨args, r.2⟩)
      fun _ _ => True :=
    ends_withActive.2 <| (checkClauses_sound hcall hactive).mono
      (fun _ _ ⟨ht, hst, h⟩ => ⟨ht, hst.pop, h⟩) fun _ _ h => h
  refine hchecked.bind ?_
  rintro results t ⟨ht, hst, hnames, hresults⟩
  -- the clauses are those of the results, typed at whatever type the results agree on
  have htyped : ∀ ty, Agree results ty → ∀ c ∈ s.clausesOf name,
      c.HasSignature t.signatures.lookup ⟨args, ty⟩ := by
    intro ty hagree c hc
    rw [← hnames] at hc
    obtain ⟨r, hr, rfl⟩ := List.mem_map.1 hc
    exact hagree.2 r hr ▸ hresults r hr
  have hclauses : ∀ ty, Agree results ty → t.clausesOf name ≠ [] := by
    intro ty hagree hnil
    rw [hst.clausesOf, ← hnames] at hnil
    exact hagree.1 (List.map_eq_nil_iff.1 hnil)
  refine settle_ends (fun sig hnil hknown => ?_) (fun ty hagree _ hnone => ?_)
    (fun sig hagree hknown => ?_) fun _ _ => trivial
  · have hsig : (⟨args, sig.result⟩ : Signature) = sig := by rw [hargs sig hknown]
    refine ⟨ht, hst, (hst.signatures _ _ hknown).trans (congrArg some hsig.symm), .inl ?_⟩
    rw [← hnames, hnil, List.map_nil]
  · have hframe : Frame Any _ (State.infer _ name ⟨args, ty⟩) :=
      Frame.infer trivial (hst.active ▸ ha) hnone
    have hname : (t.infer name ⟨args, ty⟩).signatures.lookup name = some ⟨args, ty⟩ := by
      rw [State.lookup_infer hnone, if_pos rfl]
    refine ⟨?_, hst.trans hframe, hname, .inr (State.mem_validated_mark_iff.2 (.inr rfl))⟩
    refine Sound.of_frame ht hframe
      (fun f hf => State.mem_validated_mark_iff.1 hf) hname (hclauses ty hagree) fun c hc => ?_
    rw [hst.clausesOf] at hc
    exact (htyped ty hagree c hc).mono hframe.signatures
  · have hsig : (⟨args, sig.result⟩ : Signature) = sig := by rw [hargs sig hknown]
    have hname := (hst.signatures _ _ hknown).trans (congrArg some hsig.symm)
    refine ⟨?_, hst.trans (Frame.mark t name), hname,
      .inr (State.mem_validated_mark_iff.2 (.inr rfl))⟩
    refine Sound.of_frame ht (Frame.mark (P := Any) t name)
      (fun f hf => State.mem_validated_mark_iff.1 hf) hname (hclauses _ hagree) fun c hc => ?_
    rw [hst.clausesOf] at hc
    exact htyped _ hagree c hc

/-- **Calls are sound**, at any depth. A function that has clauses and was not active is validated
afterwards. -/
theorem checkCall_sound (depth : Nat) (g : String) (args : List Ty) (span : Option Span)
    (s : State) (hs : Sound s) :
    Ends (checkCall depth g args span) s
      (fun ty t => Sound t ∧ Frame Any s t ∧ t.signatures.lookup g = some ⟨args, ty⟩ ∧
        (g ∈ s.active ∨ s.clausesOf g = [] ∨ g ∈ t.validated))
      fun _ _ => True := by
  induction depth generalizing g args span s with
  | zero => trivial
  | succ depth ih =>
    -- a function that is checked or being checked is typed by the signature it has
    refine checkCall_ends (fun _ _ _ _ => trivial) (fun sig hsig hargs hin => ?_)
      (fun _ _ => trivial) (fun _ _ => trivial) fun hargs _ ha => ?_
    · refine ⟨hs, Frame.refl s, ?_, hin.elim (fun h => .inr (.inr h)) .inl⟩
      rw [hsig, hargs]
    · have hcall : SoundCall (checkCall depth) := fun g args span s hs =>
        (ih g args span s hs).mono (fun ty t h => ⟨h.1, h.2.1, h.2.2.1⟩) fun _ _ h => h
      exact (visit_sound hcall hs hargs ha).mono
        (fun ty t h => ⟨h.1, h.2.1, h.2.2.1, .inr h.2.2.2⟩) fun _ _ h => h

/-! ## Programs -/

/-- The state after the entry point and some declared functions have been checked. -/
structure Checked (p : Program) (done : List Decl) (t : State) : Prop where
  start : ∃ s, Entered p.decls p.clauses s ∧ Frame Any s t
  sound : Sound t
  entry : t.signatures.lookup entryPoint = some ⟨[], .int⟩
  validated : ∀ d ∈ done, p.clausesOf d.name = [] ∨ d.name ∈ t.validated

namespace Checked

variable {p : Program} {done : List Decl}

/-- The declared functions are those of the program. -/
theorem declared (h : Checked p done t) : t.declared = p.decls.map fun d => (d.name, d) := by
  obtain ⟨s, hs, hst⟩ := h.start
  exact hst.declared.trans hs.declared

/-- The clauses are those of the program. -/
theorem clausesOf (h : Checked p done t) (f : String) : t.clausesOf f = p.clausesOf f := by
  obtain ⟨s, hs, hst⟩ := h.start
  exact (hst.clausesOf f).trans (hs.clausesOf f)

/-- Between calls from outside no function is active. -/
theorem active (h : Checked p done t) : t.active = [] := by
  obtain ⟨s, hs, hst⟩ := h.start
  exact hst.active.trans hs.active

/-- A function with a signature is built in, declared or validated. -/
theorem origin (h : Checked p done t) {f : String} {sig : Signature}
    (hf : t.signatures.lookup f = some sig) :
    Builtin.signatures.value? f = some sig ∨ (∃ d ∈ p.decls, d.name = f ∧ d.signature = sig) ∨
      f ∈ t.validated := by
  obtain ⟨s, hs, hst⟩ := h.start
  rcases hst.fresh f sig hf with hf | ⟨-, -, hv⟩
  · exact (hs.lookup_eq_some_iff.1 hf).imp id .inl
  · exact .inr (.inr hv)

/-- The journal does not matter. -/
theorem journal (h : Checked p done t) (j : Journal) : Checked p done { t with journal := j } := by
  obtain ⟨s, hs, hst⟩ := h.start
  exact ⟨⟨s, hs, hst.trans (Frame.journal t j)⟩, h.sound, h.entry, h.validated⟩

/-- Once all declared functions have been checked, a function with a signature and a clause is
validated, since its name is none of the system's. -/
theorem mem_validated (h : Checked p p.decls t) {f : String} {sig : Signature} {c : Clause}
    (hsig : t.signatures.lookup f = some sig) (hc : c ∈ p.clausesOf f) : f ∈ t.validated := by
  obtain ⟨s, hs, -⟩ := h.start
  rcases h.origin hsig with hb | ⟨d, hd, rfl, -⟩ | hv
  · have hname : f ∈ p.clauses.map (·.name) :=
      List.mem_map.2 ⟨c, (Program.mem_clausesOf.1 hc).1, (Program.mem_clausesOf.1 hc).2⟩
    exact absurd (.inl (Assoc.has_of_value? hb)) (hs.free f (.inr hname))
  · rcases h.validated d hd with hnil | hv
    · rw [hnil] at hc; cases hc
    · exact hv
  · exact hv

/-- Once all declared functions have been checked, the signatures are a typing of the program. -/
theorem typing (h : Checked p p.decls t) :
    p.Typing (fun f => t.signatures.has f = true) t.signatures.lookup := by
  obtain ⟨s, hs, hst⟩ := h.start
  refine ⟨fun f sig hf => ?_, fun d hd => ?_, h.entry, fun f hf c hc => ?_⟩
  · exact hst.signatures f sig (hs.lookup_eq_some_iff.2 (.inl hf))
  · exact hst.signatures _ _ (hs.lookup_eq_some_iff.2 (.inr ⟨d, hd, rfl, rfl⟩))
  · obtain ⟨sig, hsig⟩ := Option.isSome_iff_exists.1 hf
    obtain ⟨-, sig', hsig', hclauses⟩ := h.sound f (h.mem_validated hsig hc)
    exact ⟨sig', hsig', hclauses c (h.clausesOf f ▸ hc)⟩

/-- Once all declared functions have been checked, the program is accepted. -/
theorem accepted (h : Checked p p.decls t) : p.Accepted t.signatures := by
  obtain ⟨s, hs, -⟩ := h.start
  have hfree : ∀ l ∈ p.lines, ¬ SystemName l.name := fun l hl =>
    hs.free l.name (Program.names_iff.1 ⟨l, hl, rfl⟩)
  refine ⟨⟨hs.nodup, hfree⟩, fun f hf => ?_, h.typing⟩
  obtain ⟨sig, hsig⟩ := Option.isSome_iff_exists.1 hf
  rcases h.origin hsig with hb | ⟨d, hd, rfl, -⟩ | hv
  · exact .inl (Assoc.has_of_value? hb)
  · exact .inr (Program.names_iff.2 (.inl (List.mem_map.2 ⟨d, hd, rfl⟩)))
  · have hne := (h.sound f hv).1
    rw [h.clausesOf] at hne
    obtain ⟨c, hc⟩ := List.exists_mem_of_ne_nil _ hne
    obtain ⟨hc, hname⟩ := Program.mem_clausesOf.1 hc
    exact .inr (Program.names_iff.2 (.inr (List.mem_map.2 ⟨c, hc, hname⟩)))

end Checked

/-- The check of a program is sound, one step after another. -/
theorem validate_checked (p : Program) :
    Ends (validate p) Compile.initial
      (fun table t => table = t.signatures ∧ Checked p p.decls t) fun _ _ => True := by
  refine validate_run (R := fun _ => True) (I := Checked p) ?_ (fun _ _ _ _ => trivial)
    (fun s hs _ l _ _ => ?_) (fun done d rest t _ ht _ => ?_) (fun done d rest t _ ht hv => ?_)
    (fun t ht => ht.declared) fun t ht => ⟨rfl, ht.journal _⟩
  · exact (register_spec p).mono (fun _ s h => ⟨h.2, trivial⟩) fun _ _ _ => trivial
  · have hsound : Sound s := by
      intro f hf
      rw [hs.validated] at hf
      cases hf
    rw [ends_call]
    refine (checkCall_sound _ entryPoint [] l.span s hsound).mono ?_ fun _ _ h => h
    rintro ty t ⟨ht, hst, hmain, -⟩
    refine ⟨fun hint => Checked.journal ⟨⟨s, hs, hst⟩, ht, hint ▸ hmain, ?_⟩ _, fun _ => trivial⟩
    exact fun d hd => nomatch hd
  · obtain ⟨s, hs, hst⟩ := ht.start
    rw [ends_call]
    refine (checkCall_sound _ d.name d.signature.params d.span t ht.sound).mono ?_ fun _ _ h => h
    rintro ty u ⟨hu, htu, -, hdone⟩
    refine ⟨⟨s, hs, hst.trans htu⟩, hu, htu.signatures _ _ ht.entry, fun d' hd' => ?_⟩
    rcases List.mem_append.1 hd' with hd' | hd'
    · exact (ht.validated d' hd').imp id (htu.validated _)
    · rw [List.mem_singleton.1 hd']
      rw [ht.active, ht.clausesOf] at hdone
      exact hdone.resolve_left nofun
  · refine ⟨ht.start, ht.sound, ht.entry, fun d' hd' => ?_⟩
    rcases List.mem_append.1 hd' with hd' | hd'
    · exact ht.validated d' hd'
    · rw [List.mem_singleton.1 hd']
      exact .inr hv

/-- A program whose check returns is accepted with the table that it returns. -/
theorem validate_accepted (p : Program) :
    Ends (validate p) Compile.initial (fun table _ => p.Accepted table) fun _ _ => True := by
  refine (validate_checked p).mono ?_ fun _ _ h => h
  rintro table t ⟨rfl, ht⟩
  exact ht.accepted

/-- **Type inference is sound.** The table that the check of a program returns is a typing of the
program on all functions it names: it extends the signatures of the built-in and the declared
functions, the entry point takes no arguments and returns an integer, and every clause of every
function in the table has the signature of that function relative to the table. -/
theorem validate_sound {p : Program} {table : SignatureTable} {s : State}
    (h : (validate p).run.run Compile.initial = (.ok table, s)) :
    p.Typing (fun f => table.has f = true) table.lookup :=
  ((validate_accepted p).of_ok h).typing

/-- A program whose declared function and undeclared one call each other. -/
def parity : Program where
  file := "parity"
  lines :=
    let here : Span := ⟨"parity", 1, 1, 1, 1⟩
    let int (n : Int) : Expr := .lit (.int n) here
    let call (f : String) (args : List Expr) : Expr := .call f args here
    let clause (f : String) (params : List Pattern) (body : Expr) : Line :=
      .clause ⟨f, params, body, here⟩
    let zero : Pattern := .lit (.int 0) here
    let n : Pattern := .name "n" here
    let before : Expr := .binary (call "n" []) .sub (int 1) here
    [.decl ⟨"even", ⟨[.int], .bool⟩, here⟩,
      clause "even" [zero] (.lit (.bool true) here),
      clause "even" [n] (call "odd" [before]),
      clause "odd" [zero] (.lit (.bool false) here),
      clause "odd" [n] (call "even" [before]),
      clause "main" [] (.cond (call "even" [int 10]) (call "printi" [int 1]) (int 0) here)]

/-- The signatures of the functions of `parity`. -/
def paritySignatures : SignatureTable :=
  Builtin.signatures ++ [("even", ⟨[.int], .bool⟩), ("odd", ⟨[.int], .bool⟩), ("main", ⟨[], .int⟩)]

/-- The program is accepted with these signatures. -/
theorem validate_parity :
    ((validate parity).run.run Compile.initial).1.toOption = some paritySignatures := by
  decide +kernel

/-- The program is well typed under these signatures. -/
theorem validate_sound_parity :
    ((validate parity).run.run Compile.initial).1.toOption = some paritySignatures ∧
      parity.Typing (fun f => paritySignatures.has f = true) paritySignatures.lookup :=
  ⟨validate_parity, validate_sound (run_eq_of_toOption validate_parity)⟩

end Check

end Clausal
