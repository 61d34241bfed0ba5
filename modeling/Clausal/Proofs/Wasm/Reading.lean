import Clausal.Proofs.Grammar.Printing
import Clausal.Wasm

/-!
# Reading modules

A module is emitted as a tree of atoms and lists. Here is the way back: `Module.ofSexp?` reads the
trees of the WebAssembly text format that are made of the words below, and nothing else. The words
are listed on their own; no table of the writer is used. What a tree means, and whether it is well
typed, is a question about the module that it is read as.

The tree of an instruction is read as that instruction (`Instr.ofSexp?_toSexp`). So is the tree of a
module whose functions do not name a parameter list that is empty and whose quotations need no
escapes (`Module.ofSexp?_toSexp`).
-/

namespace Clausal.Wasm

/-! ## Words -/

/-- The machine type that a word stands for. -/
def machine? : String → Option Machine
  | "i32" => some .i32
  | "f32" => some .f32
  | _ => none

/-- The numeric instruction that a word stands for behind a machine type. -/
def Numeric.ofMnemonic? : String → Option Numeric
  | "add" => some .add
  | "sub" => some .sub
  | "mul" => some .mul
  | "div" => some .div
  | "div_s" => some .divS
  | "div_u" => some .divU
  | "rem_u" => some .remU
  | "eq" => some .eq
  | "ne" => some .ne
  | "lt_s" => some .ltS
  | "ge_u" => some .geU
  | "and" => some .and
  | _ => none

/-- The numeric instruction that a word such as `i32.add` stands for, with its machine type. -/
def Numeric.ofName? (name : String) : Option (Machine × Numeric) :=
  match name.toList with
  | 'i' :: '3' :: '2' :: '.' :: cs => (ofMnemonic? (String.ofList cs)).map fun op => (.i32, op)
  | 'f' :: '3' :: '2' :: '.' :: cs => (ofMnemonic? (String.ofList cs)).map fun op => (.f32, op)
  | _ => none

/-- The name behind a dollar sign. -/
def reference? (atom : String) : Option String :=
  match atom.toList with
  | '$' :: cs => some (String.ofList cs)
  | _ => none

/-- Whether a character stands for itself in a quotation. -/
def isLiteralChar (c : Char) : Bool :=
  c ≠ '"' && c ≠ '\\'

/-- The text between double quotes, if it has no quotes and no escapes in it. -/
def quotation? (atom : String) : Option String :=
  match atom.toList with
  | '"' :: cs =>
    if cs.getLast? = some '"' ∧ cs.dropLast.all isLiteralChar then some (String.ofList cs.dropLast)
    else none
  | _ => none

/-- The number that a decimal numeral stands for. -/
def numeral? (atom : String) : Option Int :=
  if Token.isNumeral atom.toList then some (Text.signedDecimal atom.toList) else none

/-- The local that an atom stands for: a name behind a dollar sign, or a position. -/
def Local.ofAtom? (atom : String) : Option Local :=
  match reference? atom with
  | some n => some (.name n)
  | none => (numeral? atom).map .index

/-- The word of a machine type stands for it. -/
theorem machine?_name (ty : Machine) : machine? ty.name = some ty := by
  cases ty <;> rfl

/-- The name of a numeric instruction on a machine type stands for both. -/
theorem Numeric.ofName?_name (op : Numeric) (ty : Machine) :
    ofName? (op.name ty) = some (ty, op) := by
  cases ty <;> cases op <;> rfl

/-- A dollar sign refers to the name behind it. -/
theorem reference?_dollar (name : String) : reference? ("$" ++ name) = some name := by
  have hlist : ("$" ++ name).toList = '$' :: name.toList := by simp
  rw [reference?, hlist]
  exact congrArg some String.ofList_toList

/-- A text without quotes and escapes is what stands between its quotes. -/
theorem quotation?_quoted {text : String} (h : text.toList.all isLiteralChar = true) :
    quotation? ("\"" ++ text ++ "\"") = some text := by
  have hlist : ("\"" ++ text ++ "\"").toList = '"' :: (text.toList ++ ['"']) := by simp
  rw [quotation?, hlist]
  simp only [List.getLast?_append, List.getLast?_singleton, Option.some_or, List.dropLast_concat]
  rw [if_pos ⟨trivial, h⟩, String.ofList_toList]

/-- The decimal form of a number stands for it. -/
theorem numeral?_toString (n : Int) : numeral? (toString n) = some n := by
  rw [numeral?, if_pos (isNumeral_toString n), signedDecimal_toString]

/-- A numeral has no dollar sign. -/
theorem reference?_toString (n : Int) : reference? (toString n) = none := by
  have hnumeral := isNumeral_toString n
  unfold reference?
  split
  · next cs hcs =>
    rw [hcs] at hnumeral
    exact absurd (Token.isDigits_iff.1 hnumeral).2 (by simp)
  · rfl

/-- The text form of a local stands for it. -/
theorem Local.ofAtom?_toSexp (x : Local) :
    ∃ atom, x.toSexp = .atom atom ∧ Local.ofAtom? atom = some x := by
  cases x with
  | index i => exact ⟨_, rfl, by rw [ofAtom?, reference?_toString, numeral?_toString]; rfl⟩
  | name n => exact ⟨_, rfl, by rw [ofAtom?, reference?_dollar]⟩

/-! ## Instructions -/

/-- What a list can stand for in the code of a function: an instruction, or a part of a conditional
instruction. -/
inductive Piece where
  | code (i : Instr)
  | result (ty : Machine)
  | yes (is : List Instr)
  | no (is : List Instr)

/-- The instruction that a piece is. -/
def Piece.code? : Piece → Option Instr
  | .code i => some i
  | _ => none

/-- The instructions that pieces are. -/
def codes? (parts : List (Option Piece)) : Option (List Instr) :=
  parts.mapM fun part => part.bind Piece.code?

/-- The conditional instruction with a result type that is made of a test and one or two
branches. -/
def branches? (result : Option Machine) : List (Option Piece) → Option Piece
  | [some (.code test), some (.yes is)] => some (.code (.cond result test is []))
  | [some (.code test), some (.yes is), some (.no js)] => some (.code (.cond result test is js))
  | _ => none

/-- The piece that a list stands for, by its head, the trees behind it, and what these stand for
themselves. A head without a meaning of its own is a numeric instruction on two operands. -/
def pieceOf? (head : String) (rest : List Sexp) (parts : List (Option Piece)) :
    Option Piece :=
  match head with
  | "i32.const" =>
    match rest with
    | [.atom n] => (numeral? n).map fun value => .code (.i32Const value)
    | _ => none
  | "f32.const" =>
    match rest with
    | [.atom text] => some (.code (.f32Const text))
    | _ => none
  | "local.get" =>
    match rest with
    | [.atom x] => (Local.ofAtom? x).map fun x => .code (.localGet x)
    | _ => none
  | "call" =>
    match rest, parts with
    | .atom f :: _, _ :: args =>
      (reference? f).bind fun name => (codes? args).map fun is => .code (.call name is)
    | _, _ => none
  | "if" =>
    match parts with
    | some (.result ty) :: parts => branches? (some ty) parts
    | parts => branches? none parts
  | "result" =>
    match rest with
    | [.atom ty] => (machine? ty).map .result
    | _ => none
  | "then" => (codes? parts).map .yes
  | "else" => (codes? parts).map .no
  | "drop" =>
    match parts with
    | [some (.code x)] => some (.code (.drop x))
    | _ => none
  | "i32.store" =>
    match parts with
    | [some (.code a), some (.code x)] => some (.code (.store a x))
    | _ => none
  | "i32.store8" =>
    match parts with
    | [some (.code a), some (.code x)] => some (.code (.store8 a x))
    | _ => none
  | head =>
    match parts with
    | [some (.code a), some (.code b)] =>
      (Numeric.ofName? head).map fun op => .code (.numeric op.1 op.2 a b)
    | _ => none

mutual

/-- The piece that a tree stands for. -/
def piece? : Sexp → Option Piece
  | .list (.atom head :: rest) => pieceOf? head rest (pieces? rest)
  | _ => none

/-- The pieces that trees stand for, one by one. -/
def pieces? : List Sexp → List (Option Piece)
  | [] => []
  | s :: rest => piece? s :: pieces? rest

end

/-- The instruction that a tree stands for. -/
def Instr.ofSexp? (s : Sexp) : Option Instr :=
  (piece? s).bind Piece.code?

/-- Instructions are read as the instructions that they are. -/
theorem codes?_map (is : List Instr) : codes? (is.map fun i => some (.code i)) = some is := by
  induction is with
  | nil => rfl
  | cons i is ih =>
    have hrest : (is.map fun i => some (Piece.code i)).mapM (fun part => part.bind Piece.code?) =
        some is := ih
    simp [codes?, List.mapM_cons, Piece.code?, hrest]

/-- A list is read by its head. -/
theorem piece?_word (head : String) (rest : List Sexp) :
    piece? (word head rest) = pieceOf? head rest (pieces? rest) := by
  rw [word, piece?]

/-- Trees are read one by one. -/
theorem pieces?_eq_map (ss : List Sexp) : pieces? ss = ss.map piece? := by
  induction ss with
  | nil => rfl
  | cons s ss ih => rw [pieces?, ih, List.map_cons]

/-- Two operands behind the name of a numeric instruction. -/
theorem pieceOf?_numeric (op : Numeric) (ty : Machine) (rest : List Sexp) (a b : Instr) :
    pieceOf? (op.name ty) rest [some (.code a), some (.code b)] =
      some (.code (.numeric ty op a b)) := by
  cases ty <;> cases op <;> rfl

/-- The parts of a conditional instruction behind its result type, if it has one. -/
theorem pieceOf?_if (result : Option Machine) (rest : List Sexp) (test : Instr)
    (parts : List (Option Piece)) :
    pieceOf? "if" rest
        ((result.map fun ty => some (.result ty)).toList ++ some (.code test) :: parts) =
      branches? result (some (.code test) :: parts) := by
  cases result <;> rfl

/-- A result type is a piece of its own. -/
theorem map_piece?_result (result : Option Machine) :
    (result.map resultForm).toList.map piece? =
      (result.map fun ty => some (Piece.result ty)).toList := by
  cases result with
  | none => rfl
  | some ty => cases ty <;> rfl

mutual

/-- **The tree of an instruction** stands for that instruction. -/
theorem piece?_toSexp : ∀ i : Instr, piece? i.toSexp = some (.code i)
  | .i32Const n => by
    rw [Instr.toSexp, piece?_word]
    exact congrArg (Option.map _) (numeral?_toString n)
  | .f32Const t => by
    rw [Instr.toSexp, piece?_word]
    rfl
  | .localGet x => by
    rw [Instr.toSexp, piece?_word]
    obtain ⟨atom, hatom, hx⟩ := x.ofAtom?_toSexp
    rw [hatom]
    exact congrArg (Option.map _) hx
  | .call f args => by
    rw [Instr.toSexp, piece?_word, pieces?, pieces?_toSexps args]
    simp only [pieceOf?, Sexp.reference, reference?_dollar, codes?_map, Option.bind_some,
      Option.map_some]
  | .numeric ty op a b => by
    rw [Instr.toSexp, piece?_word, pieces?, pieces?, pieces?,
      piece?_toSexp a, piece?_toSexp b, pieceOf?_numeric]
  | .cond result test yes no => by
    have hyes : piece? (word "then" (toSexps yes)) = some (.yes yes) := by
      rw [piece?_word, pieces?_toSexps yes]
      exact congrArg (Option.map Piece.yes) (codes?_map yes)
    have hno : piece? (word "else" (toSexps no)) = some (.no no) := by
      rw [piece?_word, pieces?_toSexps no]
      exact congrArg (Option.map Piece.no) (codes?_map no)
    rw [Instr.toSexp, piece?_word, pieces?_eq_map, List.map_append, List.map_cons, List.map_cons,
      map_piece?_result, piece?_toSexp test, hyes, pieceOf?_if]
    split
    · next hempty =>
      rw [List.isEmpty_iff.1 hempty]
      rfl
    · rw [List.map_cons, hno]
      rfl
  | .drop x => by
    rw [Instr.toSexp, piece?_word, pieces?, pieces?, piece?_toSexp x]
    rfl
  | .store a x => by
    rw [Instr.toSexp, piece?_word, pieces?, pieces?, pieces?,
      piece?_toSexp a, piece?_toSexp x]
    rfl
  | .store8 a x => by
    rw [Instr.toSexp, piece?_word, pieces?, pieces?, pieces?,
      piece?_toSexp a, piece?_toSexp x]
    rfl

/-- The trees of instructions stand for these instructions. -/
theorem pieces?_toSexps : ∀ is : List Instr,
    pieces? (toSexps is) = is.map fun i => some (.code i)
  | [] => rfl
  | i :: is => by
    rw [toSexps, pieces?, piece?_toSexp i, pieces?_toSexps is, List.map_cons]

end

/-- **The tree of an instruction** is read as that instruction. -/
theorem Instr.ofSexp?_toSexp (i : Instr) : Instr.ofSexp? i.toSexp = some i := by
  rw [ofSexp?, piece?_toSexp]
  rfl

/-! ## Forms -/

/-- What stands behind a word at the head of a list. -/
def items? (head : String) : Sexp → Option (List Sexp)
  | .list (.atom w :: rest) => if w = head then some rest else none
  | _ => none

/-- What the first tree is read as, if it is read as something, and the trees behind it. -/
def optional {α : Type} (read : Sexp → Option α) : List Sexp → Option α × List Sexp
  | [] => (none, [])
  | s :: rest =>
    match read s with
    | some a => (some a, rest)
    | none => (none, s :: rest)

/-- What the trees in front are read as, up to the first one that is not read, and the trees from
there on. -/
def leading {α : Type} (read : Sexp → Option α) : List Sexp → List α × List Sexp
  | [] => ([], [])
  | s :: rest =>
    match read s with
    | some a => (a :: (leading read rest).1, (leading read rest).2)
    | none => ([], s :: rest)

/-- A word in front of a list is its head. -/
theorem items?_word (head w : String) (rest : List Sexp) :
    items? head (word w rest) = if w = head then some rest else none := by
  rw [word, items?]

section Forms

variable {α : Type} {read : Sexp → Option α} {write : α → Sexp} {rest : List Sexp}

/-- Nothing is read where the first tree is not read. -/
theorem optional_eq_none (h : ∀ s ∈ rest.head?, read s = none) :
    optional read rest = (none, rest) := by
  cases rest with
  | nil => rfl
  | cons s rest => simp [optional, h s rfl]

/-- A tree that may be there is read if it is, and only if it is. -/
theorem optional_toList {o : Option α} (hread : ∀ a ∈ o, read (write a) = some a)
    (hrest : ∀ s ∈ rest.head?, read s = none) :
    optional read ((o.map write).toList ++ rest) = (o, rest) := by
  cases o with
  | some a => simp [optional, hread]
  | none => exact optional_eq_none hrest

/-- No tree is read where the first one is not. -/
theorem leading_eq_nil (h : ∀ s ∈ rest.head?, read s = none) :
    leading read rest = ([], rest) := by
  cases rest with
  | nil => rfl
  | cons s rest => simp [leading, h s rfl]

/-- Trees in front of others are read one by one, and no tree behind them is. -/
theorem leading_map {as : List α} (hread : ∀ a ∈ as, read (write a) = some a)
    (hrest : ∀ s ∈ rest.head?, read s = none) :
    leading read (as.map write ++ rest) = (as, rest) := by
  induction as with
  | nil => exact leading_eq_nil hrest
  | cons a as ih => simp [leading, hread, ih fun b hb => hread b (List.mem_cons_of_mem a hb)]

/-- Trees that are read one by one are read together. -/
theorem mapM_map_write {as : List α} (hread : ∀ a ∈ as, read (write a) = some a) :
    (as.map write).mapM read = some as := by
  induction as with
  | nil => rfl
  | cons a as ih =>
    simp [List.mapM_cons, hread, ih fun b hb => hread b (List.mem_cons_of_mem a hb)]

end Forms

/-! ## Functions -/

/-- The machine type that an atom stands for. -/
def typeOf? : Sexp → Option Machine
  | .atom t => machine? t
  | .list _ => none

/-- The type of a `result` form. -/
def resultType? (s : Sexp) : Option Machine :=
  match items? "result" s with
  | some [t] => typeOf? t
  | _ => none

/-- The types of a `param` form that names none of them. -/
def paramTypes? (s : Sexp) : Option (List Machine) :=
  match items? "param" s with
  | some (t :: ts) => (t :: ts).mapM typeOf?
  | _ => none

/-- The name and the type of a `param` form that has both. -/
def namedParam? (s : Sexp) : Option (String × Machine) :=
  match items? "param" s with
  | some [.atom x, t] => (reference? x).bind fun n => (typeOf? t).map fun ty => (n, ty)
  | _ => none

/-- The name of an `export` form. -/
def exportName? (s : Sexp) : Option String :=
  match items? "export" s with
  | some [.atom e] => quotation? e
  | _ => none

/-- The parameters in front of other trees, and these trees. -/
def paramsOf (forms : List Sexp) : Params × List Sexp :=
  match optional paramTypes? forms with
  | (some types, rest) => (.positional types, rest)
  | (none, _) =>
    match leading namedParam? forms with
    | ([], _) => (.positional [], forms)
    | (ps, rest) => (.named ps, rest)

/-- The function that a tree stands for. -/
def Func.ofSexp? (s : Sexp) : Option Func :=
  match items? "func" s with
  | some (.atom f :: forms) =>
    let exported := optional exportName? forms
    let params := paramsOf exported.2
    let result := optional resultType? params.2
    (reference? f).bind fun name => (result.2.mapM Instr.ofSexp?).map fun body =>
      { name, exportAs := exported.1, params := params.1, result := result.1, body }
  | _ => none

/-- Whether a text stands for itself between quotes. -/
def Quotable (text : String) : Prop :=
  text.toList.all isLiteralChar = true

/-- Whether the tree of a function tells the function: no list of names is empty, and the name of an
export needs no escapes. -/
structure Func.Readable (f : Func) : Prop where
  params : f.params ≠ .named []
  exportAs : ∀ e ∈ f.exportAs, Quotable e

/-- Whether no tree in front has a word as its head. -/
def Free (head : String) (ss : List Sexp) : Prop :=
  ∀ s ∈ ss.head?, items? head s = none

/-- Trees without the head in front of trees that are free of it. -/
theorem Free.append {head : String} {ss ts : List Sexp} (hs : ∀ s ∈ ss, items? head s = none)
    (ht : Free head ts) : Free head (ss ++ ts) := by
  cases ss with
  | nil => exact ht
  | cons s ss =>
    intro x hx
    cases hx
    exact hs s List.mem_cons_self

/-- An instruction is none of the forms that stand before the body of a function. -/
theorem Instr.items?_toSexp {head : String} (h : head ∈ ["export", "param", "result"])
    (i : Instr) : items? head i.toSexp = none := by
  have hne : ∃ w rest, i.toSexp = word w rest ∧ w ∉ ["export", "param", "result"] := by
    cases i with
    | numeric ty op a b => exact ⟨_, _, by rw [toSexp], by cases ty <;> cases op <;> decide⟩
    | _ => exact ⟨_, _, by rw [toSexp], by decide⟩
  obtain ⟨w, rest, hi, hw⟩ := hne
  rw [hi, items?_word, if_neg]
  rintro rfl
  exact hw h

/-- The body of a function has none of the forms that stand before it. -/
theorem free_toSexps {head : String} (h : head ∈ ["export", "param", "result"])
    (is : List Instr) : Free head (toSexps is) := by
  rw [toSexps_eq_map, ← List.append_nil (is.map Instr.toSexp)]
  refine Free.append (fun s hs => ?_) fun _ h => absurd h (by simp)
  obtain ⟨i, -, rfl⟩ := List.mem_map.1 hs
  exact i.items?_toSexp h

/-- A result type has the head `result`. -/
theorem free_result {head : String} (h : "result" ≠ head) {rest : List Sexp}
    (hrest : Free head rest) (result : Option Machine) :
    Free head ((result.map resultForm).toList ++ rest) := by
  refine Free.append (fun s hs => ?_) hrest
  obtain ⟨ty, -, rfl⟩ : ∃ ty, result = some ty ∧ resultForm ty = s := by simpa using hs
  rw [resultForm, items?_word, if_neg h]

/-- Parameters have the head `param`. -/
theorem free_params {head : String} (h : "param" ≠ head) {rest : List Sexp} (hrest : Free head rest)
    (params : Params) : Free head (params.toSexps ++ rest) := by
  refine Free.append (fun s hs => ?_) hrest
  have hs : ∃ items, s = word "param" items := by
    match params with
    | .positional [] => exact absurd hs (by simp [Params.toSexps])
    | .positional (t :: ts) => exact ⟨_, List.mem_singleton.1 hs⟩
    | .named ps =>
      obtain ⟨p, -, hp⟩ := List.mem_map.1 hs
      exact ⟨_, hp.symm⟩
  obtain ⟨items, rfl⟩ := hs
  rw [items?_word, if_neg h]

/-- The word of a machine type is read as it. -/
theorem typeOf?_typeAtom (ty : Machine) : typeOf? (typeAtom ty) = some ty :=
  machine?_name ty

/-- The form of a result type is read as it. -/
theorem resultType?_resultForm (ty : Machine) : resultType? (resultForm ty) = some ty := by
  rw [resultType?, resultForm, items?_word, if_pos rfl]
  exact typeOf?_typeAtom ty

/-- The form of types by position is read as them. -/
theorem paramTypes?_types {ts : List Machine} (h : ts ≠ []) :
    paramTypes? (word "param" (ts.map typeAtom)) = some ts := by
  rw [paramTypes?, items?_word, if_pos rfl]
  obtain ⟨t, ts, rfl⟩ := List.exists_cons_of_ne_nil h
  have hread : ((t :: ts).map typeAtom).mapM typeOf? = some (t :: ts) :=
    mapM_map_write fun ty _ => typeOf?_typeAtom ty
  exact hread

/-- The form of a named parameter is read as it. -/
theorem namedParam?_param (p : String × Machine) :
    namedParam? (word "param" [.reference p.1, typeAtom p.2]) = some p := by
  rw [namedParam?, items?_word, if_pos rfl]
  simp only [Sexp.reference, reference?_dollar, typeOf?_typeAtom, Option.bind_some,
    Option.map_some]

/-- The form of a named parameter does not list types. -/
theorem paramTypes?_param (p : String × Machine) :
    paramTypes? (word "param" [.reference p.1, typeAtom p.2]) = none := by
  have hname : machine? ("$" ++ p.1) = none := by
    unfold machine?
    split
    · next h => exact absurd (congrArg String.toList h) (by simp)
    · next h => exact absurd (congrArg String.toList h) (by simp)
    · rfl
  rw [paramTypes?, items?_word, if_pos rfl]
  simp [List.mapM_cons, Sexp.reference, typeOf?, hname]

/-- The forms of parameters are read as them. -/
theorem paramsOf_toSexps {params : Params} (h : params ≠ .named []) {rest : List Sexp}
    (hrest : Free "param" rest) : paramsOf (params.toSexps ++ rest) = (params, rest) := by
  have htypes : ∀ s ∈ rest.head?, paramTypes? s = none := fun s hs => by
    rw [paramTypes?, hrest s hs]
  have hnamed : ∀ s ∈ rest.head?, namedParam? s = none := fun s hs => by
    rw [namedParam?, hrest s hs]
  cases params with
  | positional ts =>
    cases ts with
    | nil =>
      simp only [Params.toSexps, List.nil_append, paramsOf, optional_eq_none htypes,
        leading_eq_nil hnamed]
    | cons t ts =>
      have hread : optional paramTypes? (word "param" ((t :: ts).map typeAtom) :: rest) =
          (some (t :: ts), rest) := by
        rw [optional, paramTypes?_types (List.cons_ne_nil t ts)]
      rw [Params.toSexps, List.singleton_append, paramsOf, hread]
      simp
  | named ps =>
    have hread : leading namedParam? (Params.toSexps (.named ps) ++ rest) = (ps, rest) :=
      leading_map (fun p _ => namedParam?_param p) hnamed
    obtain ⟨p, ps, rfl⟩ := List.exists_cons_of_ne_nil (fun hps => h (congrArg _ hps))
    have hnone : optional paramTypes? (Params.toSexps (.named (p :: ps)) ++ rest) =
        (none, Params.toSexps (.named (p :: ps)) ++ rest) :=
      optional_eq_none fun s hs => by
        cases hs
        exact paramTypes?_param p
    simp only [paramsOf, hnone, hread]

/-- **The tree of a function** is read as that function. -/
theorem Func.ofSexp?_toSexp {f : Func} (h : f.Readable) : Func.ofSexp? f.toSexp = some f := by
  have hbody : (toSexps f.body).mapM Instr.ofSexp? = some f.body := by
    rw [toSexps_eq_map]
    exact mapM_map_write fun i _ => i.ofSexp?_toSexp
  -- The forms before the body are read from the front. What follows each of them has another head.
  have hfree : ∀ head ∈ ["export", "param", "result"], "result" ≠ head →
      Free head ((f.result.map resultForm).toList ++ toSexps f.body) := fun _ hhead hne =>
    free_result hne (free_toSexps hhead f.body) f.result
  have hresult : optional resultType? ((f.result.map resultForm).toList ++ toSexps f.body) =
      (f.result, toSexps f.body) :=
    optional_toList (fun ty _ => resultType?_resultForm ty) fun s hs => by
      rw [resultType?, free_toSexps (by simp) f.body s hs]
  have hparams := paramsOf_toSexps h.params (hfree "param" (by simp) (by decide))
  have hexport : optional exportName?
      ((f.exportAs.map fun e => word "export" [.quotation e]).toList ++
        (f.params.toSexps ++ ((f.result.map resultForm).toList ++ toSexps f.body))) =
      (f.exportAs, f.params.toSexps ++ ((f.result.map resultForm).toList ++ toSexps f.body)) :=
    optional_toList (fun e he => by
      rw [exportName?, items?_word, if_pos rfl]
      exact quotation?_quoted (h.exportAs e he)) fun s hs => by
      rw [exportName?,
        free_params (by decide) (hfree "export" (by simp) (by decide)) f.params s hs]
  rw [Func.ofSexp?, Func.toSexp, items?_word, if_pos rfl]
  simp only [Sexp.reference, List.append_assoc, hexport, hparams, hresult, hbody, reference?_dollar,
    Option.bind_some, Option.map_some, List.cons_append]

/-! ## Modules -/

/-- The import that a tree stands for. -/
def Import.ofSexp? (s : Sexp) : Option Import :=
  match items? "import" s with
  | some [.atom library, .atom item, func] =>
    match items? "func" func with
    | some (.atom f :: forms) =>
      match paramsOf forms with
      | (.positional params, [result]) =>
        (quotation? library).bind fun library => (quotation? item).bind fun item =>
          (reference? f).bind fun name => (resultType? result).map fun result =>
            { library, item, name, params, result }
      | _ => none
    | _ => none
  | _ => none

/-- The export of the memory. -/
def memoryExport : Sexp :=
  .list [.atom "export", .atom "\"memory\"", .list [.atom "memory", .atom "0"]]

/-- The number of pages of a `memory` form. -/
def pages? (s : Sexp) : Option Nat :=
  match items? "memory" s with
  | some [.atom n] => (numeral? n).bind Int.toNat?
  | _ => none

/-- The module that a tree stands for: imports, the export of the memory, the memory, and
functions. -/
def Module.ofSexp? (s : Sexp) : Option Module :=
  match items? "module" s with
  | none => none
  | some forms =>
    match leading Import.ofSexp? forms with
    | (imports, exported :: memory :: functions) =>
      if exported = memoryExport then
        (pages? memory).bind fun pages => (functions.mapM Func.ofSexp?).map fun functions =>
          { imports, pages, functions }
      else none
    | _ => none

/-- Whether the tree of a module tells the module. -/
structure Module.Readable (m : Module) : Prop where
  imports : ∀ i ∈ m.imports, Quotable i.library ∧ Quotable i.item
  functions : ∀ f ∈ m.functions, f.Readable

/-- The tree of an import is read as that import. -/
theorem Import.ofSexp?_toSexp {i : Import} (hlibrary : Quotable i.library)
    (hitem : Quotable i.item) : Import.ofSexp? i.toSexp = some i := by
  have hresult : Free "param" [resultForm i.result] :=
    free_result (by decide) (free_toSexps (by simp) []) (some i.result)
  have hparams : paramsOf ((Params.positional i.params).toSexps ++ [resultForm i.result]) =
      (.positional i.params, [resultForm i.result]) := paramsOf_toSexps (by simp) hresult
  rw [Import.ofSexp?, Import.toSexp, items?_word, if_pos rfl]
  simp only [Sexp.quotation, items?_word, if_pos, Sexp.reference, List.cons_append, hparams,
    quotation?_quoted hlibrary, quotation?_quoted hitem, reference?_dollar,
    resultType?_resultForm, Option.bind_some, Option.map_some]

/-- The memory form of a number of pages is read as that number. -/
theorem pages?_toString (pages : Nat) :
    pages? (word "memory" [.atom (toString pages)]) = some pages := by
  have hread : numeral? (toString pages) = some (pages : Int) := numeral?_toString pages
  rw [pages?, items?_word, if_pos rfl]
  simp only [hread, Option.bind_some, Int.toNat?]

/-- **The tree of a module** is read as that module. -/
theorem Module.ofSexp?_toSexp {m : Module} (h : m.Readable) : Module.ofSexp? m.toSexp = some m := by
  have himports : leading Import.ofSexp? (m.imports.map Import.toSexp ++
        (memoryExport :: word "memory" [.atom (toString m.pages)] ::
          m.functions.map Func.toSexp)) =
      (m.imports, memoryExport :: word "memory" [.atom (toString m.pages)] ::
        m.functions.map Func.toSexp) :=
    leading_map (fun i hi => Import.ofSexp?_toSexp (h.imports i hi).1 (h.imports i hi).2)
      fun s hs => by
        cases hs
        rfl
  have hfunctions : (m.functions.map Func.toSexp).mapM Func.ofSexp? = some m.functions :=
    mapM_map_write fun f hf => Func.ofSexp?_toSexp (h.functions f hf)
  have hforms : m.toSexp = word "module" (m.imports.map Import.toSexp ++
      (memoryExport :: word "memory" [.atom (toString m.pages)] ::
        m.functions.map Func.toSexp)) := by
    rw [Module.toSexp, List.append_assoc]
    rfl
  rw [hforms, Module.ofSexp?, items?_word, if_pos rfl]
  simp only [himports, if_pos, pages?_toString, hfunctions, Option.bind_some, Option.map_some]

end Clausal.Wasm
