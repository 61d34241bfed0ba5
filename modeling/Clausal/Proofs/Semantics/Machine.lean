import Clausal.Builtin
import Clausal.Proofs.Semantics.Basic

/-!
# The meaning of WebAssembly code

The semantics of the part of WebAssembly that compiled programs are made of. An instruction leaves
a list of values; operands have to leave one value each. Integers are 32 bits wide, division traps
by zero and where the quotient does not fit, and a store outside the memory traps. What the module
does not contain, or what one does not want to look into, is given by a `Host`, which is asked
first. `prints` is the host that makes the printing functions events.

Fuel is spent on calls. `Finishes` and `Traps` say how a call ends with enough of it, and no call
ends in two ways (`Finishes.unique`).
-/

namespace Clausal.Wasm

/-- Values. -/
inductive Val (F : Floats) where
  | i32 (n : BitVec 32)
  | f32 (x : F.Carrier)

/-- The type of a value. -/
def Val.type {F : Floats} : Val F → Machine
  | .i32 _ => .i32
  | .f32 _ => .f32

/-- The memory, and what has been given to the host so far. -/
structure Store (ω : Type) where
  memory : Nat → BitVec 8
  output : List ω

/-- The bytes of a number, the low one first. -/
def bytes (n : BitVec 32) : List (BitVec 8) :=
  [n.extractLsb' 0 8, n.extractLsb' 8 8, n.extractLsb' 16 8, n.extractLsb' 24 8]

/-- Bytes written to the memory from an address on. -/
def Store.write {ω : Type} (s : Store ω) (address : Nat) (content : List (BitVec 8)) : Store ω :=
  { s with memory := fun a =>
      if a < address then s.memory a else (content[a - address]?).getD (s.memory a) }

/-! ## Numeric instructions -/

/-- The truth value of a condition. -/
def truth (b : Bool) : BitVec 32 :=
  if b then 1 else 0

/-- The result of a numeric instruction on integers. -/
def Numeric.ofInts (op : Numeric) (a b : BitVec 32) : Except Halt (BitVec 32) :=
  match op with
  | .add => .ok (a + b)
  | .sub => .ok (a - b)
  | .mul => .ok (a * b)
  | .divS =>
    if b = 0 ∨ (a = BitVec.intMin 32 ∧ b = -1) then .error .trap else .ok (a.sdiv b)
  | .divU => if b = 0 then .error .trap else .ok (a / b)
  | .remU => if b = 0 then .error .trap else .ok (a % b)
  | .eq => .ok (truth (a == b))
  | .ne => .ok (truth (a != b))
  | .ltS => .ok (truth (a.slt b))
  | .geU => .ok (truth (b.ule a))
  | .and => .ok (a &&& b)
  | .div => .error .stuck

variable {F : Floats} {ω : Type}

/-- The result of a numeric instruction on floating-point numbers. -/
def Numeric.ofFloats (op : Numeric) (a b : F.Carrier) : Except Halt (Val F) :=
  match op with
  | .add => .ok (.f32 (F.add a b))
  | .sub => .ok (.f32 (F.sub a b))
  | .mul => .ok (.f32 (F.mul a b))
  | .div => .ok (.f32 (F.div a b))
  | .eq => .ok (.i32 (truth (F.eq a b)))
  | .ne => .ok (.i32 (truth (F.ne a b)))
  | _ => .error .stuck

/-- The result of a numeric instruction for operands of a type. -/
def Numeric.apply (op : Numeric) : Machine → Val F → Val F → Except Halt (Val F)
  | .i32, .i32 a, .i32 b => (op.ofInts a b).map .i32
  | .f32, .f32 a, .f32 b => op.ofFloats a b
  | _, _, _ => .error .stuck

/-! ## Instructions -/

/-- The arguments of the function that is evaluated. -/
structure Frame (F : Floats) where
  params : Params
  values : List (Val F)

/-- The value of a local. -/
def Frame.local? (frame : Frame F) : Local → Option (Val F)
  | .index (.ofNat i) => frame.values[i]?
  | .index (.negSucc _) => none
  | .name n =>
    match frame.params with
    | .positional _ => none
    | .named ps => Assoc.value? ((ps.map (·.1)).zip frame.values) n

/-- How calls of functions are evaluated. -/
abbrev Invoke (F : Floats) (ω : Type) := String → List (Val F) → EvalM (Store ω) (List (Val F))

/-- The one value that an operand leaves. -/
def single : List (Val F) → EvalM (Store ω) (Val F)
  | [v] => pure v
  | _ => throw .stuck

/-- The integer that an operand leaves. -/
def integer : List (Val F) → EvalM (Store ω) (BitVec 32)
  | [.i32 n] => pure n
  | _ => throw .stuck

/-- Writes bytes to a memory of a size. -/
def storeBytes (size : Nat) (address : BitVec 32) (content : List (BitVec 8)) :
    EvalM (Store ω) Unit :=
  if address.toNat + content.length ≤ size then modify (·.write address.toNat content)
  else throw .trap

mutual

/-- The values that an instruction leaves, in a module with a memory of a size. -/
def exec (size : Nat) (invoke : Invoke F ω) (frame : Frame F) :
    Instr → EvalM (Store ω) (List (Val F))
  | .i32Const n => pure [.i32 (BitVec.ofInt 32 n)]
  | .f32Const text => pure [.f32 (F.ofText text)]
  | .localGet x =>
    match frame.local? x with
    | some v => pure [v]
    | none => throw .stuck
  | .call f args => do
    let vs ← execArgs size invoke frame args
    invoke f vs
  | .numeric ty op left right => do
    let a ← single (← exec size invoke frame left)
    let b ← single (← exec size invoke frame right)
    let v ← liftM (op.apply ty a b)
    pure [v]
  | .cond _ test yes no => do
    let c ← integer (← exec size invoke frame test)
    if c ≠ 0 then execAll size invoke frame yes else execAll size invoke frame no
  | .drop value => do
    discard (single (← exec size invoke frame value))
    pure []
  | .store address value => do
    let a ← integer (← exec size invoke frame address)
    let n ← integer (← exec size invoke frame value)
    storeBytes size a (bytes n)
    pure []
  | .store8 address value => do
    let a ← integer (← exec size invoke frame address)
    let n ← integer (← exec size invoke frame value)
    storeBytes size a [n.setWidth 8]
    pure []

/-- The values of operands, from left to right. -/
def execArgs (size : Nat) (invoke : Invoke F ω) (frame : Frame F) :
    List Instr → EvalM (Store ω) (List (Val F))
  | [] => pure []
  | i :: is => do
    let v ← single (← exec size invoke frame i)
    let vs ← execArgs size invoke frame is
    pure (v :: vs)

/-- The values that instructions leave one after another. -/
def execAll (size : Nat) (invoke : Invoke F ω) (frame : Frame F) :
    List Instr → EvalM (Store ω) (List (Val F))
  | [] => pure []
  | i :: is => do
    let vs ← exec size invoke frame i
    let ws ← execAll size invoke frame is
    pure (vs ++ ws)

end

/-- A numeric instruction whose operands leave their values without an effect. -/
theorem exec_numeric_of_pure {size : Nat} {invoke : Invoke F ω} {frame : Frame F} {ty : Machine}
    {op : Numeric} {left right : Instr} {a b v : Val F}
    (hleft : exec size invoke frame left = pure [a])
    (hright : exec size invoke frame right = pure [b]) (hop : op.apply ty a b = .ok v) :
    exec size invoke frame (.numeric ty op left right) = pure [v] := by
  rw [exec]
  simp only [hleft, hright, single, pure_bind, hop]
  rfl

/-- One instruction in a sequence. -/
theorem execAll_singleton {size : Nat} {invoke : Invoke F ω} {frame : Frame F} (code : Instr) :
    execAll size invoke frame [code] = exec size invoke frame code := by
  rw [execAll, execAll]
  simp

/-! ## Functions -/

/-- Functions that are not evaluated from code. -/
abbrev Host (F : Floats) (ω : Type) :=
  String → Option (List (Val F) → EvalM (Store ω) (List (Val F)))

/-- The size of the memory of a module in bytes. -/
def Module.size (m : Module) : Nat :=
  65536 * m.pages

/-- A call of a function of a module, with calls at most as deep as the fuel. -/
def Module.invoke (m : Module) (host : Host F ω) : Nat → Invoke F ω
  | 0, _, _ => throw .timeout
  | fuel + 1, f, args =>
    match host f with
    | some effect => effect args
    | none =>
      match m.functions.find? fun g => g.name = f with
      | none => throw .stuck
      | some g =>
        if args.map Val.type = g.params.types then
          execAll m.size (m.invoke host fuel) ⟨g.params, args⟩ g.body
        else throw .stuck

/-- The effect of a printing function, which returns what it prints. -/
def print (f : String) : List (Val F) → EvalM (Store Print) (List (Val F))
  | [.i32 n] => do
    modify fun s => { s with output := s.output ++ [⟨f, n⟩] }
    pure [.i32 n]
  | _ => throw .stuck

/-- The host that makes the printing functions events. -/
def prints : Host F Print := fun f =>
  if Builtin.signatures.has f then some (print f) else none

/-- A call finishes with values and prints, from a memory. -/
def Finishes (m : Module) (memory : Nat → BitVec 8) (f : String) (args vs : List (Val F))
    (output : List Print) : Prop :=
  ∃ fuel memory', (m.invoke prints fuel f args).run.run ⟨memory, []⟩ =
    (.ok vs, ⟨memory', output⟩)

/-- A call traps after some prints, from a memory. -/
def Traps (m : Module) (memory : Nat → BitVec 8) (f : String) (args : List (Val F))
    (output : List Print) : Prop :=
  ∃ fuel memory', (m.invoke prints fuel f args).run.run ⟨memory, []⟩ =
    (.error .trap, ⟨memory', output⟩)

/-! ## Fuel -/

mutual

/-- More fuel for calls is more fuel for an instruction. -/
theorem exec_mono {size : Nat} {i j : Invoke F ω} (h : ∀ f vs, Approx (i f vs) (j f vs))
    (frame : Frame F) : ∀ instr, Approx (exec size i frame instr) (exec size j frame instr)
  | .i32Const _ | .f32Const _ | .localGet _ => by
    rw [exec, exec]
    exact Approx.refl _
  | .call f args => by
    rw [exec, exec]
    exact (execArgs_mono h frame args).bind fun vs => h f vs
  | .numeric ty op left right => by
    rw [exec, exec]
    exact (exec_mono h frame left).bind fun _ => (Approx.refl _).bind fun _ =>
      (exec_mono h frame right).bind fun _ => Approx.refl _
  | .cond result test yes no => by
    rw [exec, exec]
    refine (exec_mono h frame test).bind fun _ => (Approx.refl _).bind fun c => ?_
    split
    · exact execAll_mono h frame yes
    · exact execAll_mono h frame no
  | .drop value => by
    rw [exec, exec]
    exact (exec_mono h frame value).bind fun _ => Approx.refl _
  | .store address value | .store8 address value => by
    rw [exec, exec]
    exact (exec_mono h frame address).bind fun _ => (Approx.refl _).bind fun _ =>
      (exec_mono h frame value).bind fun _ => Approx.refl _

/-- More fuel for calls is more fuel for operands. -/
theorem execArgs_mono {size : Nat} {i j : Invoke F ω} (h : ∀ f vs, Approx (i f vs) (j f vs))
    (frame : Frame F) : ∀ is, Approx (execArgs size i frame is) (execArgs size j frame is)
  | [] => by
    rw [execArgs, execArgs]
    exact Approx.refl _
  | instr :: is => by
    rw [execArgs, execArgs]
    exact (exec_mono h frame instr).bind fun _ => (Approx.refl _).bind fun _ =>
      (execArgs_mono h frame is).bind fun _ => Approx.refl _

/-- More fuel for calls is more fuel for instructions. -/
theorem execAll_mono {size : Nat} {i j : Invoke F ω} (h : ∀ f vs, Approx (i f vs) (j f vs))
    (frame : Frame F) : ∀ is, Approx (execAll size i frame is) (execAll size j frame is)
  | [] => by
    rw [execAll, execAll]
    exact Approx.refl _
  | instr :: is => by
    rw [execAll, execAll]
    exact (exec_mono h frame instr).bind fun _ =>
      (execAll_mono h frame is).bind fun _ => Approx.refl _

end

/-- More fuel changes nothing but a timeout. -/
theorem invoke_mono (m : Module) (host : Host F ω) (fuel : Nat) (f : String)
    (args : List (Val F)) :
    Approx (m.invoke host fuel f args) (m.invoke host (fuel + 1) f args) := by
  induction fuel generalizing f args with
  | zero => exact Approx.timeout _
  | succ fuel ih =>
    rw [Module.invoke, Module.invoke]
    cases host f with
    | some effect => exact Approx.refl _
    | none =>
      cases m.functions.find? fun g => g.name = f with
      | none => exact Approx.refl _
      | some g =>
        dsimp only
        split
        · exact execAll_mono ih _ _
        · exact Approx.refl _

/-- **A call finishes in one way only.** -/
theorem Finishes.unique {m : Module} {memory : Nat → BitVec 8} {f : String}
    {args vs ws : List (Val F)} {output output' : List Print}
    (h : Finishes m memory f args vs output) (h' : Finishes m memory f args ws output') :
    vs = ws ∧ output = output' := by
  obtain ⟨i, _, hi⟩ := h
  obtain ⟨j, _, hj⟩ := h'
  obtain ⟨hvs, hstore⟩ := Approx.unique (fun n => invoke_mono m prints n f args) hi hj nofun nofun
  exact ⟨Except.ok.inj hvs, congrArg Store.output hstore⟩

/-- A call that finishes does not trap. -/
theorem Finishes.not_traps {m : Module} {memory : Nat → BitVec 8} {f : String}
    {args vs : List (Val F)} {output output' : List Print}
    (h : Finishes m memory f args vs output) : ¬ Traps m memory f args output' := by
  rintro ⟨j, _, hj⟩
  obtain ⟨i, _, hi⟩ := h
  obtain ⟨heq, -⟩ := Approx.unique (fun n => invoke_mono m prints n f args) hi hj nofun nofun
  cases heq

end Clausal.Wasm
