import Clausal.Proofs.Emit.Coverage

/-!
# The spine of a function

The body of a function is a chain of conditionals, one for each clause before the first clause
without literals, and at its end stands the code of that clause. A `Spine` is the data of such a
chain together with the clauses it is made of; nothing is assumed of their bodies, so a clause may
also have no code.

* `split?_eq_some_iff`: clauses are cut at the first one without literals.
* `code?_eq_ok_iff`: the code of cut clauses is that of a spine, which exists exactly if each of the
  clauses has code.
* `run_body`, `run_body_uncovered`: all that making a body can do, the journal included.
* `run_body_eq_ok_iff`: a body that is made is the chain of a spine.
-/

namespace Clausal

open Wasm

/-- Conditionals of one result type, each in the else branch of the one before it; at the end stands
what is done otherwise. -/
def Wasm.chain (ty : Machine) (otherwise : Instr) : List (Instr × Instr) → Instr
  | [] => otherwise
  | branch :: rest => .cond (some ty) branch.1 [branch.2] [chain ty otherwise rest]

/-- Every element of a list has a counterpart exactly if the list has one. -/
theorem exists_map_eq_map_iff {α β γ : Type} {f : α → γ} {g : β → γ} {xs : List α} :
    (∃ ys : List β, xs.map f = ys.map g) ↔ ∀ x ∈ xs, ∃ y, f x = g y := by
  constructor
  · rintro ⟨ys, h⟩ x hx
    have hmem : f x ∈ ys.map g := h ▸ List.mem_map.2 ⟨x, hx, rfl⟩
    obtain ⟨y, -, hy⟩ := List.mem_map.1 hmem
    exact ⟨y, hy.symm⟩
  · intro h
    induction xs with
    | nil => exact ⟨[], rfl⟩
    | cons x xs ih =>
      obtain ⟨y, hy⟩ := h x List.mem_cons_self
      obtain ⟨ys, hys⟩ := ih fun x' hx' => h x' (List.mem_cons_of_mem _ hx')
      exact ⟨y :: ys, by rw [List.map_cons, List.map_cons, hy, hys]⟩

namespace Dispatch

variable {table : SignatureTable} {sig : Signature} {guarded clauses : List Clause} {last : Clause}

/-! ## Cutting clauses -/

/-- **Clauses are cut at the first one without literals.** -/
theorem split?_eq_some_iff {s : Split} :
    split? clauses = some s ↔ clauses = s.guarded ++ s.catchAll :: s.dropped ∧
      (∀ c ∈ s.guarded, c.isCatchAll = false) ∧ s.catchAll.isCatchAll = true := by
  induction clauses generalizing s with
  | nil => simp [split?]
  | cons c cs ih =>
    obtain ⟨front, middle, dropped⟩ := s
    rw [split?]
    cases hall : c.isCatchAll with
    | true =>
      rw [if_pos rfl]
      constructor
      · intro h
        cases h
        exact ⟨rfl, fun _ h => absurd h List.not_mem_nil, hall⟩
      · rintro ⟨h, hfront, -⟩
        cases front with
        | nil =>
          cases h
          rfl
        | cons c' front =>
          cases h
          rw [hfront c List.mem_cons_self] at hall
          cases hall
    | false =>
      rw [if_neg Bool.false_ne_true, Option.map_eq_some_iff]
      constructor
      · rintro ⟨⟨front', middle', dropped'⟩, hs, heq⟩
        cases heq
        obtain ⟨hcs, hfront, hmiddle⟩ := ih.1 hs
        exact ⟨congrArg (c :: ·) hcs, List.forall_mem_cons.2 ⟨hall, hfront⟩, hmiddle⟩
      · rintro ⟨h, hfront, hmiddle⟩
        cases front with
        | nil =>
          cases h
          rw [hall] at hmiddle
          cases hmiddle
        | cons c' front =>
          cases h
          exact ⟨⟨front, middle, dropped⟩,
            ih.2 ⟨rfl, fun x hx => hfront x (List.mem_cons_of_mem _ hx), hmiddle⟩, rfl⟩

/-! ## Spines -/

/-- The codes that a chain for clauses is made of: a guard and a code for each of the clauses with
literals, and a code for the clause that takes what is left. -/
structure Spine (table : SignatureTable) (sig : Signature) (guarded : List Clause)
    (last : Clause) where
  guards : List Instr
  codes : List Instr
  otherwise : Instr
  guards_eq : guarded.map guard? = guards.map some
  codes_eq : guarded.map (clauseCode table sig) = codes.map .ok
  otherwise_eq : clauseCode table sig last = .ok otherwise

namespace Spine

/-- The chain of a spine. -/
def code (s : Spine table sig guarded last) : Instr :=
  chain sig.result.machine s.otherwise (s.guards.zip s.codes)

/-- The codes of the clauses, in order. -/
def leaves (s : Spine table sig guarded last) : List Instr :=
  s.codes ++ [s.otherwise]

/-- There is a guard for each guarded clause. -/
theorem length_guards (s : Spine table sig guarded last) : s.guards.length = guarded.length := by
  simpa using (congrArg List.length s.guards_eq).symm

/-- There is a code for each guarded clause. -/
theorem length_codes (s : Spine table sig guarded last) : s.codes.length = guarded.length := by
  simpa using (congrArg List.length s.codes_eq).symm

/-- There is one leaf for each clause, with the code of the clause. -/
theorem map_leaves (s : Spine table sig guarded last) :
    (guarded ++ [last]).map (clauseCode table sig) = s.leaves.map .ok := by
  simp [leaves, s.codes_eq, s.otherwise_eq]

/-- A leaf is the code of the clause at its place. -/
theorem exists_of_leaf (s : Spine table sig guarded last) {i : Nat} {leaf : Instr}
    (h : s.leaves[i]? = some leaf) :
    ∃ c, (guarded ++ [last])[i]? = some c ∧ clauseCode table sig c = .ok leaf := by
  have hmap := congrArg (fun codes => codes[i]?) s.map_leaves
  simp only [List.getElem?_map, h, Option.map_some] at hmap
  exact Option.map_eq_some_iff.1 hmap

/-- A spine with one more clause in front. -/
def cons {c : Clause} {guard code : Instr} (hguard : guard? c = some guard)
    (hcode : clauseCode table sig c = .ok code) (s : Spine table sig guarded last) :
    Spine table sig (c :: guarded) last where
  guards := guard :: s.guards
  codes := code :: s.codes
  otherwise := s.otherwise
  guards_eq := by rw [List.map_cons, List.map_cons, hguard, s.guards_eq]
  codes_eq := by rw [List.map_cons, List.map_cons, hcode, s.codes_eq]
  otherwise_eq := s.otherwise_eq

/-- A spine of clauses with literals starts with the first of them. -/
theorem exists_cons {c : Clause} (s : Spine table sig (c :: guarded) last) :
    ∃ (guard code : Instr) (hguard : guard? c = some guard)
      (hcode : clauseCode table sig c = .ok code) (rest : Spine table sig guarded last),
      s = rest.cons hguard hcode := by
  obtain ⟨guards, codes, otherwise, hguards, hcodes, hotherwise⟩ := s
  cases guards with
  | nil => cases hguards
  | cons guard guards =>
    cases codes with
    | nil => cases hcodes
    | cons code codes =>
      rw [List.map_cons, List.map_cons] at hguards hcodes
      obtain ⟨hguard, hguards⟩ := List.cons.inj hguards
      obtain ⟨hcode, hcodes⟩ := List.cons.inj hcodes
      exact ⟨guard, code, hguard, hcode, ⟨guards, codes, otherwise, hguards, hcodes, hotherwise⟩,
        rfl⟩

/-- Clauses have a spine exactly if each of them has code. -/
theorem nonempty_iff (hguarded : ∀ c ∈ guarded, c.isCatchAll = false) :
    Nonempty (Spine table sig guarded last) ↔
      ∀ c ∈ guarded ++ [last], ∃ code, clauseCode table sig c = .ok code := by
  constructor
  · rintro ⟨s⟩
    exact exists_map_eq_map_iff.1 ⟨s.leaves, s.map_leaves⟩
  · intro h
    have hguards : ∀ c ∈ guarded, ∃ guard, guard? c = some guard := by
      intro c hc
      cases hguard : guard? c with
      | some guard => exact ⟨guard, rfl⟩
      | none =>
        rw [guard?_eq_none_iff, hguarded c hc] at hguard
        cases hguard
    obtain ⟨guards, hguards⟩ := exists_map_eq_map_iff.2 hguards
    obtain ⟨codes, hcodes⟩ := exists_map_eq_map_iff.2 fun c hc => h c (List.mem_append_left _ hc)
    obtain ⟨otherwise, hotherwise⟩ := h last (List.mem_append_right _ List.mem_cons_self)
    exact ⟨⟨guards, codes, otherwise, hguards, hcodes, hotherwise⟩⟩

end Spine

/-- Clauses with literals are wrapped around what is left as the chain of their guards and codes. -/
theorem branches_eq_ok_iff {otherwise code : Instr}
    (hguarded : ∀ c ∈ guarded, c.isCatchAll = false)
    (hotherwise : clauseCode table sig last = .ok otherwise) :
    branches table sig otherwise guarded = .ok code ↔
      ∃ s : Spine table sig guarded last, s.code = code := by
  induction guarded generalizing code with
  | nil =>
    constructor
    · intro h
      cases h
      exact ⟨⟨[], [], otherwise, rfl, rfl, hotherwise⟩, rfl⟩
    · rintro ⟨s, rfl⟩
      have hguards := List.eq_nil_of_length_eq_zero s.length_guards
      cases hotherwise.symm.trans s.otherwise_eq
      rw [branches, Spine.code, hguards]
      rfl
  | cons c cs ih =>
    obtain ⟨hc, hcs⟩ := List.forall_mem_cons.1 hguarded
    cases hguard : guard? c with
    | none =>
      rw [guard?_eq_none_iff, hc] at hguard
      cases hguard
    | some guard =>
      rw [branches]
      constructor
      · intro h
        cases hrest : branches table sig otherwise cs with
        | error e =>
          rw [hrest] at h
          cases h
        | ok rest =>
          obtain ⟨s, rfl⟩ := (ih hcs).1 hrest
          rw [hrest] at h
          dsimp only [bind, Except.bind] at h
          rw [hguard] at h
          dsimp only at h
          cases hcode : clauseCode table sig c with
          | error e =>
            rw [hcode] at h
            cases h
          | ok code' =>
            rw [hcode] at h
            cases h
            exact ⟨s.cons hguard hcode, rfl⟩
      · rintro ⟨s, rfl⟩
        obtain ⟨guard', code', hguard', hcode', rest, rfl⟩ := s.exists_cons
        cases hguard.symm.trans hguard'
        rw [(ih hcs).2 ⟨rest, rfl⟩]
        dsimp only [bind, Except.bind]
        rw [hguard, hcode']
        rfl

/-! ## Bodies -/

/-- The code of cut clauses; the codes of the clauses are made from the last one to the first. -/
def Split.code? (table : SignatureTable) (sig : Signature) (s : Split) : Except Stop Instr := do
  let otherwise ← clauseCode table sig s.catchAll
  branches table sig otherwise s.guarded

/-- **The code of cut clauses is that of a spine.** -/
theorem code?_eq_ok_iff {s : Split} {code : Instr}
    (hguarded : ∀ c ∈ s.guarded, c.isCatchAll = false) :
    s.code? table sig = .ok code ↔
      ∃ sp : Spine table sig s.guarded s.catchAll, sp.code = code := by
  unfold Split.code?
  cases hotherwise : clauseCode table sig s.catchAll with
  | ok otherwise => exact branches_eq_ok_iff hguarded hotherwise
  | error e =>
    constructor
    · intro h
      cases h
    · rintro ⟨sp, -⟩
      cases hotherwise.symm.trans sp.otherwise_eq

/-- Events that are recorded one by one stand in the journal in order. -/
theorem run_forM_record {α : Type} (event : α → Event) (xs : List α) (j : Journal) :
    (xs.forM fun x => record (event x)).run.run j = (.ok ⟨⟩, j ++ xs.map event) := by
  induction xs generalizing j with
  | nil =>
    rw [List.map_nil, List.append_nil]
    rfl
  | cons x xs ih =>
    have hrun : (record (event x)).run.run j = (.ok ⟨⟩, j ++ [event x]) := rfl
    rw [show (x :: xs).forM (fun x => record (event x)) =
      (record (event x) >>= fun _ => xs.forM fun x => record (event x)) from rfl, run_bind, hrun]
    dsimp only
    rw [ih, List.append_assoc]
    rfl

/-- A lifted result leaves the journal alone. -/
theorem run_liftM {α : Type} (x : Except Stop α) (j : Journal) :
    (liftM x : EmitM α).run.run j = (x, j) := by
  cases x <;> rfl

/-- The report on a clause of a function after one that takes everything. -/
def unreachableEvent (name : String) (c : Clause) : Event :=
  .unreachable name c.span

/-- Clauses that all have literals are refused before anything happens. -/
theorem run_body_uncovered {name : String} {span : Option Span} (h : split? clauses = none)
    (j : Journal) :
    (body table name clauses sig span).run.run j =
      (.error (.fault ⟨.notCovered name, (clauses.getLast?.map (·.span)).or span⟩), j) := by
  unfold body
  rw [h]
  rfl

/-- **The body of clauses that are cut**: the clauses that are dropped are reported, and then the
code of the others is made, if they have code. -/
theorem run_body (table : SignatureTable) (name : String) (sig : Signature) (span : Option Span)
    {s : Split} (h : split? clauses = some s) (j : Journal) :
    (∀ code, s.code? table sig = .ok code →
      (body table name clauses sig span).run.run j =
        (.ok code, j ++ s.dropped.map (unreachableEvent name) ++
          [.dispatched name s.guarded.length])) ∧
    ∀ e, s.code? table sig = .error e →
      (body table name clauses sig span).run.run j =
        (.error e, j ++ s.dropped.map (unreachableEvent name)) := by
  have hbody : (body table name clauses sig span).run.run j =
      (do let otherwise ← liftM (clauseCode table sig s.catchAll)
          let code ← liftM (branches table sig otherwise s.guarded)
          record (.dispatched name s.guarded.length)
          return code : EmitM Instr).run.run (j ++ s.dropped.map (unreachableEvent name)) := by
    have hdropped : (s.dropped.forM fun c => record (.unreachable name c.span)).run.run j = _ :=
      run_forM_record (unreachableEvent name) s.dropped j
    unfold body
    rw [h]
    dsimp only
    rw [run_bind, hdropped]
  unfold Split.code?
  rw [hbody, run_bind, run_liftM]
  cases clauseCode table sig s.catchAll with
  | error e =>
    refine ⟨fun code hcode => ?_, fun e' he' => ?_⟩
    · cases hcode
    · cases he'
      rfl
  | ok otherwise =>
    dsimp only
    rw [run_bind, run_liftM]
    show (∀ code, branches table sig otherwise s.guarded = .ok code → _) ∧
      ∀ e, branches table sig otherwise s.guarded = .error e → _
    cases branches table sig otherwise s.guarded with
    | error e =>
      refine ⟨fun code hcode => ?_, fun e' he' => ?_⟩
      · cases hcode
      · cases he'
        rfl
    | ok code =>
      refine ⟨fun code' hcode' => ?_, fun e' he' => ?_⟩
      · cases hcode'
        rfl
      · cases he'

/-- **The body that clauses have is the chain of a spine.** -/
theorem run_body_eq_ok_iff (table : SignatureTable) (name : String) (sig : Signature)
    (span : Option Span) {s : Split} (h : split? clauses = some s) {code : Instr} {j t : Journal} :
    (body table name clauses sig span).run.run j = (.ok code, t) ↔
      (∃ sp : Spine table sig s.guarded s.catchAll, sp.code = code) ∧
        t = j ++ s.dropped.map (unreachableEvent name) ++ [.dispatched name s.guarded.length] := by
  obtain ⟨-, hguarded, -⟩ := split?_eq_some_iff.1 h
  obtain ⟨hok, herror⟩ := run_body table name sig span h j
  rw [← code?_eq_ok_iff hguarded]
  cases hcode : s.code? table sig with
  | ok code' =>
    rw [hok code' hcode]
    constructor
    · intro heq
      cases heq
      exact ⟨rfl, rfl⟩
    · rintro ⟨heq, rfl⟩
      cases heq
      rfl
  | error e =>
    rw [herror e hcode]
    constructor
    · intro heq
      cases heq
    · rintro ⟨heq, -⟩
      cases heq

end Dispatch

end Clausal
