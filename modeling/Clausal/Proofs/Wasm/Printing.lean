import Clausal.Proofs.Emit.Meaning

/-!
# Printing

What the built-in functions write, byte by byte. They print through the host function `fd_write`,
of which this is assumed (`Stdout`): asked to write to the standard output, it appends the bytes
that its vectors describe. What it returns, and what it leaves in the memory, is up to the host.

`Writes m s vs text` says that an evaluation returns the values `vs` and appends `text` to the
output. Evaluations that write compose (`Writes.bind`), and as `printc` sets up the memory anew for
every byte, nothing has to be known of the memory between two calls. The numbers that are printed
get smaller with every call of `printu`, which is the induction of `printu_writes`.
-/

namespace Clausal.Wasm

variable {F : Floats} {ω : Type}

/-! ## Memory -/

/-- The number that four bytes of the memory hold, the low one first. -/
def Store.word (s : Store ω) (address : Nat) : BitVec 32 :=
  s.memory (address + 3) ++ s.memory (address + 2) ++ s.memory (address + 1) ++ s.memory address

/-- The bytes of the memory from an address on. -/
def Store.read (s : Store ω) (address length : Nat) : List (BitVec 8) :=
  (List.range length).map fun i => s.memory (address + i)

/-- The bytes that vectors describe, which are pairs of an address and a length. -/
def Store.gather (s : Store ω) (vectors count : Nat) : List (BitVec 8) :=
  (List.range count).flatMap fun i =>
    s.read (s.word (vectors + 8 * i)).toNat (s.word (vectors + 8 * i + 4)).toNat

/-- The vectors and what they describe lie in a memory of a size. -/
def Store.Holds (s : Store ω) (size vectors count : Nat) : Prop :=
  vectors + 8 * count ≤ size ∧ ∀ i < count,
    (s.word (vectors + 8 * i)).toNat + (s.word (vectors + 8 * i + 4)).toNat ≤ size

/-- Memory outside of what is written stays. -/
theorem Store.memory_write_of_disjoint (s : Store ω) {address a : Nat}
    {content : List (BitVec 8)} (h : a < address ∨ address + content.length ≤ a) :
    (s.write address content).memory a = s.memory a := by
  unfold Store.write
  rcases h with h | h
  · exact if_pos h
  · dsimp only
    rw [if_neg (by omega), List.getElem?_eq_none (by omega)]
    rfl

/-- What is written can be read at its address. -/
theorem Store.memory_write_add (s : Store ω) {address i : Nat} {content : List (BitVec 8)}
    {b : BitVec 8} (h : content[i]? = some b) :
    (s.write address content).memory (address + i) = b := by
  unfold Store.write
  dsimp only
  rw [if_neg (by omega), Nat.add_sub_cancel_left, h]
  rfl

/-- A number is read back from where its bytes were written. -/
theorem Store.word_write (s : Store ω) (address : Nat) (n : BitVec 32) :
    (s.write address (bytes n)).word address = n := by
  have hbyte : ∀ i b, (bytes n)[i]? = some b →
      (s.write address (bytes n)).memory (address + i) = b :=
    fun _ _ => s.memory_write_add
  have hlow := hbyte 0 _ rfl
  rw [Nat.add_zero] at hlow
  have happend : ∀ i k, n.extractLsb' (i + 8) k ++ n.extractLsb' i 8 = n.extractLsb' i (k + 8) :=
    fun _ _ => BitVec.extractLsb'_append_extractLsb'_eq_extractLsb' rfl
  unfold Store.word
  rw [hbyte 3 _ rfl, hbyte 2 _ rfl, hbyte 1 _ rfl, hlow, happend 16 8, happend 8 16, happend 0 24]
  exact BitVec.extractLsb'_eq_self

/-- A number is kept by a write elsewhere. -/
theorem Store.word_write_of_disjoint (s : Store ω) {address a : Nat}
    {content : List (BitVec 8)} (h : a + 4 ≤ address ∨ address + content.length ≤ a) :
    (s.write address content).word a = s.word a := by
  unfold Store.word
  rw [s.memory_write_of_disjoint (by omega), s.memory_write_of_disjoint (by omega),
    s.memory_write_of_disjoint (by omega), s.memory_write_of_disjoint (by omega)]

/-! ## Writing -/

/-- The host function that writes: for the standard output, whose number is 1, it appends the bytes
that the vectors describe. The code that it returns and the memory that it leaves are not fixed. -/
structure Stdout (F : Floats) (size : Nat) where
  write : List (Val F) → EvalM (Store (BitVec 8)) (List (Val F))
  appends : ∀ (s : Store (BitVec 8)) (vectors count result : BitVec 32),
    s.Holds size vectors.toNat count.toNat → result.toNat + 4 ≤ size →
    ∃ code memory, (write [.i32 1, .i32 vectors, .i32 count, .i32 result]).run.run s =
      (.ok [.i32 code], ⟨memory, s.output ++ s.gather vectors.toNat count.toNat⟩)

/-- The host that provides the function that writes, and nothing else. -/
def Stdout.host {size : Nat} (stdout : Stdout F size) : Host F (BitVec 8) := fun f =>
  if f = Builtin.fdWrite.name then some stdout.write else none

/-- From a store, an evaluation returns a value and appends bytes to the output. -/
def Writes {α : Type} (m : EvalM (Store (BitVec 8)) α) (s : Store (BitVec 8)) (a : α)
    (text : List (BitVec 8)) : Prop :=
  ∃ memory, m.run.run s = (.ok a, ⟨memory, s.output ++ text⟩)

section Writes

variable {α β : Type} {m : EvalM (Store (BitVec 8)) α} {s : Store (BitVec 8)} {a : α} {b : β}
  {text text' : List (BitVec 8)} {f : α → EvalM (Store (BitVec 8)) β}

theorem Writes.pure : Writes (Pure.pure a) s a [] :=
  ⟨s.memory, by rw [List.append_nil]; rfl⟩

/-- What is written one after the other. -/
theorem Writes.bind (h : Writes m s a text) (hf : ∀ t, Writes (f a) t b text') :
    Writes (m >>= f) s b (text ++ text') := by
  obtain ⟨memory, hm⟩ := h
  obtain ⟨memory', hrest⟩ := hf ⟨memory, s.output ++ text⟩
  refine ⟨memory', ?_⟩
  rw [run_bind, hm, ← List.append_assoc]
  exact hrest

/-- A change of the memory, which is seen by what follows. -/
theorem Writes.modify_bind {g : Unit → EvalM (Store (BitVec 8)) β}
    {update : Store (BitVec 8) → Store (BitVec 8)} (houtput : (update s).output = s.output)
    (h : Writes (g ()) (update s) b text) : Writes (modify update >>= g) s b text := by
  obtain ⟨memory, hrest⟩ := h
  rw [houtput] at hrest
  exact ⟨memory, hrest⟩

/-- An evaluation that is run up to the number that it leaves. -/
theorem Writes.of_integer {m : EvalM (Store (BitVec 8)) (List (Val F))} {n : BitVec 32}
    (hvalue : ((m >>= integer).run.run s).1.toOption = some n)
    (houtput : ((m >>= integer).run.run s).2.output = s.output ++ text) :
    Writes m s [.i32 n] text := by
  rw [run_bind] at hvalue houtput
  rcases hm : m.run.run s with ⟨_ | vs, t⟩
  · rw [hm] at hvalue
    cases hvalue
  · rw [hm] at hvalue houtput
    rcases vs with _ | ⟨_ | _, _ | ⟨_, _⟩⟩ <;> cases hvalue
    exact ⟨t.memory, by rw [hm, ← houtput]; rfl⟩

end Writes

section Instructions

variable {size : Nat} {invoke : Invoke F (BitVec 8)} {frame : Frame F} {s : Store (BitVec 8)}
  {code : Instr} {codes : List Instr} {v : Val F} {vs : List (Val F)} {text text' : List (BitVec 8)}

/-- An instruction that leaves nothing. -/
theorem Writes.execAll_cons (h : Writes (exec size invoke frame code) s [] text)
    (hrest : ∀ t, Writes (execAll size invoke frame codes) t vs text') :
    Writes (execAll size invoke frame (code :: codes)) s vs (text ++ text') := by
  rw [execAll]
  refine h.bind fun t => ?_
  rw [← List.append_nil text']
  exact (hrest t).bind fun _ => .pure

/-- An instruction whose value is dropped. -/
theorem Writes.execAll_drop (h : Writes (exec size invoke frame code) s [v] text)
    (hrest : ∀ t, Writes (execAll size invoke frame codes) t vs text') :
    Writes (execAll size invoke frame (.drop code :: codes)) s vs (text ++ text') := by
  have hdrop : Writes (exec size invoke frame (.drop code)) s [] text := by
    rw [exec, ← List.append_nil text]
    exact h.bind fun _ => .pure
  exact hdrop.execAll_cons hrest

/-- A call of a function with one argument. -/
theorem Writes.call {f : String} (harg : Writes (exec size invoke frame code) s [v] text)
    (h : ∀ t, Writes (invoke f [v]) t vs text') :
    Writes (exec size invoke frame (.call f [code])) s vs (text ++ text') := by
  rw [exec, execArgs, execArgs]
  refine Writes.bind ?_ h
  rw [← List.append_nil text]
  exact harg.bind fun _ => .pure

/-- A call of a function with one argument that has no effect. -/
theorem Writes.call_pure {f : String} (harg : exec size invoke frame code = Pure.pure [v])
    (h : ∀ t, Writes (invoke f [v]) t vs text) :
    Writes (exec size invoke frame (.call f [code])) s vs text :=
  Writes.call (harg ▸ Writes.pure) h

/-- A conditional, whose test has no effect. -/
theorem Writes.cond {result : Option Machine} {test : Instr} {yes no : List Instr} {b : Bool}
    (htest : exec size invoke frame test = Pure.pure [.i32 (truth b)])
    (hyes : b = true → Writes (execAll size invoke frame yes) s vs text)
    (hno : b = false → Writes (execAll size invoke frame no) s vs text) :
    Writes (exec size invoke frame (.cond result test yes no)) s vs text := by
  rw [exec, htest, pure_bind, integer, pure_bind]
  cases b with
  | true => exact hyes rfl
  | false => exact hno rfl

/-- An instruction that writes to the memory and leaves nothing. -/
theorem Writes.execAll_store (address : BitVec 32) (content : List (BitVec 8))
    (hcode : exec size invoke frame code =
      storeBytes size address content >>= fun _ => Pure.pure [])
    (hfits : address.toNat + content.length ≤ size)
    (h : Writes (execAll size invoke frame codes) (s.write address.toNat content) vs text) :
    Writes (execAll size invoke frame (code :: codes)) s vs text := by
  rw [execAll, hcode, storeBytes, if_pos hfits, bind_assoc]
  refine Writes.modify_bind rfl ?_
  rw [pure_bind, ← List.append_nil text]
  exact h.bind fun _ => .pure

end Instructions

/-! ## The functions -/

/-- The module contains a start function for `main` and the printing functions, and its memory has
room for what they keep there. -/
structure Module.Prints (m : Module) (main : String) : Prop where
  size : 24 ≤ m.size
  find : ∀ g ∈ [Builtin.start main, Builtin.printc, Builtin.printu, Builtin.printi],
    (m.functions.find? fun f => f.name = g.name) = some g

/-- The ASCII codes of a text. -/
def ascii (text : String) : List (BitVec 8) :=
  text.toList.map fun c => BitVec.ofNat 8 c.toNat

section Functions

variable {m : Module} {main : String} {stdout : Stdout F m.size} {s : Store (BitVec 8)}

/-- A call of a printing function writes what its body writes. -/
theorem Module.Prints.writes (h : m.Prints main) {g : Func}
    (hg : g ∈ [Builtin.start main, Builtin.printc, Builtin.printu, Builtin.printi])
    {args vs : List (Val F)} (hargs : args.map Val.type = g.params.types) {fuel : Nat}
    {text : List (BitVec 8)}
    (hbody : Writes (execAll m.size (m.invoke stdout.host fuel) ⟨g.params, args⟩ g.body) s vs
      text) :
    Writes (m.invoke stdout.host (fuel + 1) g.name args) s vs text := by
  have hnames : ∀ g ∈ [Builtin.start main, Builtin.printc, Builtin.printu, Builtin.printi],
      g.name ≠ Builtin.fdWrite.name := by
    simp only [List.forall_mem_cons, Builtin.start]
    decide
  have hhost : stdout.host g.name = none := if_neg (hnames g hg)
  rw [Module.invoke, hhost, h.find g hg]
  dsimp only
  rw [if_pos hargs]
  exact hbody

/-- A call of the host function writes what its vectors describe. -/
theorem fdWrite_writes (stdout : Stdout F m.size) (vectors count result : BitVec 32)
    {text : List (BitVec 8)} (hholds : s.Holds m.size vectors.toNat count.toNat)
    (hresult : result.toNat + 4 ≤ m.size) (htext : s.gather vectors.toNat count.toNat = text)
    (fuel : Nat) :
    ∃ code, Writes (m.invoke stdout.host (fuel + 1) "fd_write"
      [.i32 1, .i32 vectors, .i32 count, .i32 result]) s [.i32 code] text := by
  obtain ⟨code, memory, hwrite⟩ := stdout.appends s vectors count result hholds hresult
  rw [htext] at hwrite
  have hhost : stdout.host "fd_write" = some stdout.write := if_pos rfl
  refine ⟨code, memory, ?_⟩
  rw [Module.invoke, hhost]
  exact hwrite

/-- The memory as `printc` sets it up: one vector at 0, for the byte at 8. -/
theorem Store.gather_byte {size : Nat} (hsize : 24 ≤ size) (s : Store ω) (b : BitVec 8) :
    let t := ((s.write 0 (bytes 8)).write 4 (bytes 1)).write 8 [b]
    t.Holds size 0 1 ∧ t.gather 0 1 = [b] := by
  intro t
  have hstart : t.word 0 = 8 := by
    rw [Store.word_write_of_disjoint _ (.inl (by decide)),
      Store.word_write_of_disjoint _ (.inl (by decide)), Store.word_write]
  have hlength : t.word 4 = 1 := by
    rw [Store.word_write_of_disjoint _ (.inl (by decide)), Store.word_write]
  have hbyte : t.memory 8 = b := Store.memory_write_add (i := 0) _ rfl
  refine ⟨⟨by omega, fun i hi => ?_⟩, ?_⟩
  · obtain rfl : i = 0 := by omega
    rw [hstart, hlength]
    exact Nat.le_trans (by decide) hsize
  · simp [Store.gather, hstart, hlength, Store.read, hbyte]

/-- **A byte is written** as the one vector that `printc` sets up describes it. -/
theorem printc_writes (h : m.Prints main) (n : BitVec 32) (fuel : Nat) :
    Writes (m.invoke stdout.host (fuel + 2) "printc" [.i32 n]) s [.i32 n]
      [BitVec.ofNat 8 (n.toNat % 256)] := by
  have hfits : ∀ k ≤ 24, k ≤ m.size := fun _ hk => Nat.le_trans hk h.size
  have hbyte : BitVec.ofNat 8 (n.toNat % 256) = n.setWidth 8 :=
    BitVec.eq_of_toNat_eq (by simp)
  rw [hbyte]
  refine h.writes (g := Builtin.printc) (by simp) rfl ?_
  refine Writes.execAll_store 0 (bytes 8) rfl (hfits 4 (by decide)) ?_
  refine Writes.execAll_store 4 (bytes 1) rfl (hfits 8 (by decide)) ?_
  refine Writes.execAll_store 8 [n.setWidth 8] rfl (hfits 9 (by decide)) ?_
  obtain ⟨hholds, htext⟩ := s.gather_byte h.size (n.setWidth 8)
  obtain ⟨code, hcall⟩ := fdWrite_writes stdout 0 1 20 hholds (hfits 24 (by decide)) htext fuel
  show Writes _ _ _ ([n.setWidth 8] ++ [])
  exact Writes.execAll_drop (v := .i32 code) hcall fun _ => .pure

/-- The last digit of a number stands behind the other ones. -/
theorem ascii_toString_nat (n : Nat) : ascii (toString n) =
    (if n < 10 then [] else ascii (toString (n / 10))) ++ [BitVec.ofNat 8 (48 + n % 10)] := by
  have hdigit : ∀ d < 10, BitVec.ofNat 8 (Nat.digitChar d).toNat = BitVec.ofNat 8 (48 + d) := by
    decide
  have hascii : ∀ n : Nat, ascii (toString n) =
      (Nat.toDigits 10 n).map fun c => BitVec.ofNat 8 c.toNat := by
    intro n
    show ascii (String.ofList (Nat.toDigits 10 n)) = _
    rw [ascii, String.toList_ofList]
  rw [hascii, hascii, Nat.toDigits_eq_if (by decide)]
  split
  · next h => simp [hdigit n h, Nat.mod_eq_of_lt h]
  · simp [hdigit (n % 10) (Nat.mod_lt _ (by decide))]

/-- A minus sign stands before the magnitude of a negative number. -/
theorem ascii_toString_int (i : Int) : ascii (toString i) =
    (if i < 0 then ascii "-" else []) ++ ascii (toString i.natAbs) := by
  cases i with
  | ofNat n => rfl
  | negSucc n =>
    show ascii ("-" ++ toString (n + 1)) = _
    rw [if_pos (Int.negSucc_lt_zero n), ascii, String.toList_append, List.map_append]
    rfl

/-- One call of `printu`: the last digit comes after what the call for the quotient writes. -/
theorem printu_step (h : m.Prints main) (n : BitVec 32) (fuel : Nat)
    (hquotient : 10 ≤ n.toNat → ∀ t,
      Writes (m.invoke stdout.host (fuel + 2) "printu" [.i32 (n / 10)]) t [.i32 (n / 10)]
        (ascii (toString (n.toNat / 10)))) :
    Writes (m.invoke stdout.host (fuel + 3) "printu" [.i32 n]) s [.i32 n]
      (ascii (toString n.toNat)) := by
  have hule : (10#32).ule n = decide (10 ≤ n.toNat) := rfl
  have hdigit : BitVec.ofNat 8 ((48#32 + n % 10).toNat % 256) =
      BitVec.ofNat 8 (48 + n.toNat % 10) :=
    BitVec.eq_of_toNat_eq (by simp)
  refine h.writes (g := Builtin.printu) (by simp) rfl ?_
  rw [ascii_toString_nat]
  refine Writes.execAll_cons ?_ fun t => ?_
  · refine Writes.cond (b := (10#32).ule n) rfl (fun hlarge => ?_) fun hsmall => ?_
    · rw [hule, decide_eq_true_iff] at hlarge
      rw [if_neg (by omega), ← List.append_nil (ascii _)]
      exact Writes.execAll_drop (.call_pure rfl (hquotient hlarge)) fun _ => .pure
    · rw [hule, decide_eq_false_iff_not] at hsmall
      rw [if_pos (by omega)]
      exact .pure
  · rw [← hdigit]
    exact Writes.execAll_drop (.call_pure rfl fun _ => printc_writes h _ fuel) fun _ => .pure

/-- **An unsigned number is written digit by digit**, the other digits by a call for the quotient,
so a number of `d + 1` digits takes `d` calls more than a digit does. -/
theorem printu_writes_of_lt (h : m.Prints main) (d : Nat) (n : BitVec 32)
    (hn : n.toNat < Nat.pow 10 (d + 1)) (fuel : Nat) :
    Writes (m.invoke stdout.host (fuel + d + 3) "printu" [.i32 n]) s [.i32 n]
      (ascii (toString n.toNat)) := by
  induction d generalizing n s with
  | zero => exact printu_step h n fuel fun hlarge => absurd hn (Nat.not_lt.2 hlarge)
  | succ d ih =>
    have hquotient : (n / 10).toNat = n.toNat / 10 := BitVec.toNat_udiv
    have hpow : Nat.pow 10 (d + 1 + 1) = 10 * Nat.pow 10 (d + 1) := Nat.mul_comm _ _
    have hlt : n.toNat / 10 < Nat.pow 10 (d + 1) := Nat.div_lt_of_lt_mul (hpow ▸ hn)
    rw [← hquotient] at hlt
    refine printu_step h n (fuel + d + 1) fun _ t => ?_
    rw [← hquotient]
    exact ih (n / 10) hlt

/-- The unsigned number is written in decimal digits. -/
theorem printu_writes (h : m.Prints main) (n : BitVec 32) (fuel : Nat) :
    Writes (m.invoke stdout.host (fuel + 12) "printu" [.i32 n]) s [.i32 n]
      (ascii (toString n.toNat)) :=
  printu_writes_of_lt h 9 n (Nat.lt_trans n.isLt (by decide)) fuel

/-- **A signed number is written** as a minus sign, if it is negative, and its magnitude. The
magnitude of the least number is not a signed number, but it is an unsigned one. -/
theorem printi_writes (h : m.Prints main) (n : BitVec 32) (fuel : Nat) :
    Writes (m.invoke stdout.host (fuel + 13) "printi" [.i32 n]) s [.i32 n]
      (ascii (toString n.toInt)) := by
  have hslt : n.slt 0#32 = decide (n.toInt < 0) := rfl
  refine h.writes (g := Builtin.printi) (by simp) rfl ?_
  rw [ascii_toString_int, ← List.append_nil (_ ++ _)]
  refine Writes.execAll_cons ?_ fun _ => .pure
  refine Writes.cond (b := n.slt 0#32) rfl (fun hneg => ?_) fun hnonneg => ?_
  · rw [hslt, decide_eq_true_iff] at hneg
    have hmagnitude : n.toInt.natAbs = (0#32 - n).toNat := by
      rw [BitVec.toInt_eq_toNat_cond] at hneg ⊢
      rw [BitVec.toNat_sub, BitVec.toNat_ofNat]
      have := n.isLt
      split at hneg <;> split <;> omega
    rw [if_pos hneg, hmagnitude, ← List.append_nil (ascii (toString _))]
    exact Writes.execAll_drop (.call_pure rfl fun _ => printc_writes h 45 (fuel + 10)) fun _ =>
      Writes.execAll_drop (.call_pure rfl fun _ => printu_writes h (0#32 - n) fuel) fun _ => .pure
  · rw [hslt, decide_eq_false_iff_not] at hnonneg
    have hmagnitude : n.toInt.natAbs = n.toNat := by
      rw [BitVec.toInt_eq_toNat_cond] at hnonneg ⊢
      have := n.isLt
      split at hnonneg <;> split <;> omega
    rw [if_neg hnonneg, hmagnitude, List.nil_append, ← List.append_nil (ascii _)]
    exact Writes.execAll_drop (.call_pure rfl fun _ => printu_writes h n fuel) fun _ => .pure

/-- More fuel does not change what a call writes. -/
theorem Writes.more_fuel {host : Host F (BitVec 8)} {f : String} {args vs : List (Val F)}
    {text : List (BitVec 8)} {fuel : Nat} (h : Writes (m.invoke host fuel f args) s vs text)
    (k : Nat) : Writes (m.invoke host (fuel + k) f args) s vs text := by
  obtain ⟨memory, hrun⟩ := h
  rcases Approx.add (fun n => invoke_mono m host n f args) fuel k s with htimeout | heq
  · rw [hrun] at htimeout
    cases htimeout
  · exact ⟨memory, heq ▸ hrun⟩

/-- **The start function** writes what the function that it is for writes, the number that this one
returns, and a line feed. -/
theorem start_writes (h : m.Prints main) {n : BitVec 32} {fuel : Nat} {text : List (BitVec 8)}
    (hmain : Writes (m.invoke stdout.host fuel main []) s [.i32 n] text) :
    Writes (m.invoke stdout.host (fuel + 14) "_start" []) s []
      (text ++ ascii (toString n.toInt) ++ ascii "\n") := by
  refine h.writes (g := Builtin.start main) (by simp) rfl ?_
  refine Writes.execAll_drop (.call ?_ fun _ => printi_writes h n fuel) fun t => ?_
  · exact hmain.more_fuel 13
  · exact Writes.execAll_drop (.call_pure rfl fun _ => printc_writes h 10 (fuel + 11))
      fun _ => .pure

end Functions

/-- With enough fuel, a call of a function of the module returns values and appends bytes. -/
def Module.Outputs (m : Module) (host : Host F (BitVec 8)) (s : Store (BitVec 8)) (f : String)
    (args vs : List (Val F)) (text : List (BitVec 8)) : Prop :=
  ∃ fuel, Writes (m.invoke host fuel f args) s vs text

/-- **A call outputs in one way only.** -/
theorem Module.Outputs.unique {m : Module} {host : Host F (BitVec 8)} {s : Store (BitVec 8)}
    {f : String} {args vs ws : List (Val F)} {text text' : List (BitVec 8)}
    (h : m.Outputs host s f args vs text) (h' : m.Outputs host s f args ws text') :
    vs = ws ∧ text = text' := by
  obtain ⟨i, _, hi⟩ := h
  obtain ⟨j, _, hj⟩ := h'
  obtain ⟨hvs, hstore⟩ := Approx.unique (fun n => invoke_mono m host n f args) hi hj nofun nofun
  exact ⟨Except.ok.inj hvs, List.append_cancel_left (congrArg Store.output hstore)⟩

end Clausal.Wasm

namespace Clausal

open Wasm

/-- An emitted module with a page of memory prints. -/
theorem Emission.prints {p : Program} {table : SignatureTable} {user : List Func} {m : Module}
    (h : Emission p table user m) (hp : p.Registrable) (hpages : m.pages = 1) :
    m.Prints Check.entryPoint where
  size := by
    rw [Module.size, hpages]
    decide
  find g hg := by
    refine h.find?_of_mem hp ?_
    rw [h.functions]
    simp only [List.mem_cons, List.not_mem_nil, or_false] at hg
    rcases hg with rfl | rfl | rfl | rfl
    · exact List.mem_append_left _ List.mem_cons_self
    all_goals exact List.mem_append_right _ (by simp [Builtin.functions])

namespace Compile

/-- The module of a program has one page of memory. -/
theorem program_pages {p : Program} {out : Output} {j : Journal} (h : program p = (.ok out, j)) :
    out.code.pages = 1 := by
  obtain ⟨-, j', hemit⟩ := program_steps h
  have hpages : Ends (emit p out.signatures) [] (fun m _ => m.pages = 1) fun _ _ => True :=
    Ends.any.bind fun _ _ _ => rfl
  exact hpages.of_ok hemit

/-- **The module of an accepted program prints numbers correctly**: the emitted tree is read as a
module that does, with any host that writes, from any store. For every number, `printi` writes it as
a signed decimal numeral, `printu` as an unsigned one and `printc` as a byte, and all of them return
the number. If `main` returns a number, the start function writes what `main` does, the number as a
signed numeral, and a line feed. -/
theorem program_prints_numbers (F : Floats) {p : Program} {out : Output} {j : Journal}
    (h : program p = (.ok out, j)) :
    ∃ m, Module.ofSexp? out.code.toSexp = some m ∧
      ∀ (stdout : Stdout F m.size) (s : Store (BitVec 8)),
        (∀ n, m.Outputs stdout.host s "printi" [.i32 n] [.i32 n] (ascii (toString n.toInt))) ∧
        (∀ n, m.Outputs stdout.host s "printu" [.i32 n] [.i32 n] (ascii (toString n.toNat))) ∧
        (∀ n, m.Outputs stdout.host s "printc" [.i32 n] [.i32 n]
          [BitVec.ofNat 8 (n.toNat % 256)]) ∧
        ∀ n text, m.Outputs stdout.host s "main" [] [.i32 n] text →
          m.Outputs stdout.host s "_start" [] []
            (text ++ ascii (toString n.toInt) ++ ascii "\n") := by
  obtain ⟨haccepted, user, hemission⟩ := program_emission h
  have hprints := hemission.prints haccepted.registrable (program_pages h)
  refine ⟨out.code, hemission.ofSexp?_toSexp, fun stdout s => ?_⟩
  refine ⟨fun n => ⟨13, printi_writes hprints n 0⟩, fun n => ⟨12, printu_writes hprints n 0⟩,
    fun n => ⟨2, printc_writes hprints n 0⟩, ?_⟩
  rintro n text ⟨fuel, hmain⟩
  exact ⟨fuel + 14, start_writes hprints hmain⟩

/-- A host that writes, counts the bytes where it is told to, and always returns 0. -/
def terminal (F : Floats) (size : Nat) : Stdout F size where
  write
    | [_, .i32 vectors, .i32 count, .i32 result] => do
      let s ← get
      let text := s.gather vectors.toNat count.toNat
      let counted := s.write result.toNat (bytes (BitVec.ofNat 32 text.length))
      set { counted with output := s.output ++ text }
      pure [.i32 0]
    | _ => throw .stuck
  appends _ _ _ _ _ _ := ⟨0, _, rfl⟩

/-- A program that prints the least number and returns it. -/
def least : Program where
  file := "least"
  lines :=
    let here : Span := ⟨"least", 1, 1, 1, 1⟩
    let int (n : Int) : Expr := .lit (.int n) here
    let negative : Expr := .binary (int 0) .sub (int 2147483647) here
    [.clause ⟨"main", [], .call "printi" [.binary negative .sub (int 1) here] here, here⟩]

/-- The least number is printed with its sign, by the program and once more at its end. -/
theorem program_prints_numbers_least :
    ∃ out j m, program least = (.ok out, j) ∧ Module.ofSexp? out.code.toSexp = some m ∧
      m.Outputs (terminal onePoint m.size).host ⟨fun _ => 0, []⟩ "main" []
        [.i32 (BitVec.intMin 32)] (ascii "-2147483648") ∧
      m.Outputs (terminal onePoint m.size).host ⟨fun _ => 0, []⟩ "_start" [] []
        (ascii "-2147483648-2147483648\n") := by
  have hout : ((program least).1.toOption.map fun out =>
      (Module.ofSexp? out.code.toSexp).map fun m =>
        let call := m.invoke (terminal onePoint m.size).host 14 "main" []
        let ended := (call >>= integer).run.run ⟨fun _ => 0, []⟩
        (ended.1.toOption, ended.2.output)) =
      some (some (some (BitVec.intMin 32), ascii "-2147483648")) := by
    decide +kernel
  obtain ⟨out, hout, hread⟩ := Option.map_eq_some_iff.1 hout
  have h := run_eq_of_toOption hout
  obtain ⟨m, hm, hprints⟩ := program_prints_numbers onePoint h
  rw [hm] at hread
  obtain ⟨hvalue, houtput⟩ := Prod.mk.inj (Option.some.inj hread)
  have hmain := Writes.of_integer hvalue houtput
  obtain ⟨-, -, -, hstart⟩ := hprints (terminal _ _) ⟨fun _ => 0, []⟩
  exact ⟨out, _, m, h, hm, ⟨14, hmain⟩, hstart _ _ ⟨14, hmain⟩⟩

end Compile

end Clausal
