import Clausal.Proofs.Grammar.Complete

/-!
# Printing

Lines written down as text: the words of a line have single blanks between them, a line feed ends
it, and an expression is put in parentheses where the grammar does not take it as it is. As an
operand that is a binary or conditional expression; as an argument also a call with arguments.

`parse_text`: reading the text of lines gives the lines back, places aside. The scanner makes
tokens of the words of each line (`scanFrom_line`), these tokens are those of a derivation whose
lines are the lines written (`exists_lineTree`), and derivations are read (`ofTokens_complete`).
-/

namespace Clausal

open Token Clausal.Derivation

/-! ## What can be written -/

/-- A lower-case letter or an underscore, followed by letters, digits and underscores, that is no
keyword. -/
def IsName (s : String) : Prop :=
  (∃ c cs, s.toList = c :: cs ∧ (c.isLower || c = '_') = true ∧
    (cs.all fun d => d.isAlphanum || d = '_') = true) ∧
  s ∉ ["true", "false", "int", "float", "bool"]

/-- Integers of 32 bits and floating-point numbers with digits on both sides of the point. -/
def Literal.Writable : Literal → Prop
  | .int n => -2147483648 ≤ n ∧ n ≤ 2147483647
  | .float text => IsFraction text
  | .bool _ => True

mutual

/-- The names and literals of an expression can be written. -/
def Expr.Writable : Expr → Prop
  | .lit v _ => v.Writable
  | .call f args _ => IsName f ∧ WritableAll args
  | .binary l _ r _ => l.Writable ∧ r.Writable
  | .cond t y n _ => t.Writable ∧ y.Writable ∧ n.Writable

/-- The names and literals of expressions can be written. -/
def Expr.WritableAll : List Expr → Prop
  | [] => True
  | e :: es => e.Writable ∧ WritableAll es

end

def Pattern.Writable : Pattern → Prop
  | .name x _ => IsName x
  | .lit v _ => v.Writable

def Line.Writable : Line → Prop
  | .decl d => IsName d.name
  | .clause c => IsName c.name ∧ (∀ p ∈ c.params, p.Writable) ∧ c.body.Writable

/-! ## How it is written -/

/-- A literal as a word. -/
def Literal.word : Literal → Word
  | .int n => ⟨.integer, toString n⟩
  | .float text => ⟨.float, text⟩
  | .bool b => ⟨.boolean, if b then "true" else "false"⟩

/-- An operator as a word. -/
def Op.word (op : Op) : Word :=
  ⟨op.kind, op.sign⟩

/-- Words in parentheses, where these are needed. -/
def enclose (needed : Bool) (ws : List Word) : List Word :=
  if needed then ⟨.lparen, "("⟩ :: ws ++ [⟨.rparen, ")"⟩] else ws

/-- Whether an expression is no operand as it is. -/
def Expr.isCompound : Expr → Bool
  | .lit .. | .call .. => false
  | .binary .. | .cond .. => true

/-- Whether an expression is no argument as it is. -/
def Expr.isApplied : Expr → Bool
  | .lit .. => false
  | .call _ args _ => !args.isEmpty
  | .binary .. | .cond .. => true

mutual

/-- The words of an expression. -/
def Expr.words : Expr → List Word
  | .lit v _ => [v.word]
  | .call f args _ => ⟨.identifier, f⟩ :: argumentWords args
  | .binary l op r _ => enclose l.isCompound l.words ++ op.word :: enclose r.isCompound r.words
  | .cond t y n _ =>
    enclose t.isCompound t.words ++ ⟨.question, "?"⟩ ::
      (enclose y.isCompound y.words ++ ⟨.colon, ":"⟩ :: enclose n.isCompound n.words)

/-- The words of arguments. -/
def Expr.argumentWords : List Expr → List Word
  | [] => []
  | e :: es => enclose e.isApplied e.words ++ argumentWords es

end

/-- The words of a type. -/
def Ty.word (ty : Ty) : Word :=
  ⟨.typeName, ty.name⟩

/-- The words of a signature. -/
def typeWords : List Ty → Ty → List Word
  | [], result => [result.word]
  | p :: ps, result => p.word :: ⟨.arrow, "->"⟩ :: typeWords ps result

/-- A parameter as a word. -/
def Pattern.word : Pattern → Word
  | .name x _ => ⟨.identifier, x⟩
  | .lit v _ => v.word

/-- The words of a line. -/
def Line.words : Line → List Word
  | .decl d => ⟨.identifier, d.name⟩ :: ⟨.doubleColon, "::"⟩ ::
      typeWords d.signature.params d.signature.result
  | .clause c => ⟨.identifier, c.name⟩ ::
      (c.params.map Pattern.word ++ ⟨.assign, "="⟩ :: c.body.words)

/-- The text of a line. -/
def Line.text (l : Line) : String :=
  spaced l.words ++ "\n"

/-- The text of lines. -/
def Line.textAll (ls : List Line) : String :=
  String.join (ls.map Line.text)

/-! ## Numerals -/

/-- The characters of a whole number. -/
theorem toList_toString_int (n : Int) : (toString n).toList =
    if 0 ≤ n then Nat.toDigits 10 n.toNat else '-' :: Nat.toDigits 10 (-n).toNat := by
  rw [Int.toString_eq_repr, Int.repr_eq_if]
  split <;> simp [Nat.repr_eq_ofList_toDigits]

/-- The digits of a number stand for it. -/
theorem decimal_toDigits (n : Nat) : Text.decimal (Nat.toDigits 10 n) = n := by
  rw [Text.decimal, ← Nat.ofDigitChars_eq_foldl, Nat.ofDigitChars_ten_toDigits]

/-- The digits of a number are digits, and there is at least one. -/
theorem isDigits_toDigits (n : Nat) : isDigits (Nat.toDigits 10 n) = true :=
  isDigits_iff.2 ⟨Nat.toDigits_ne_nil, fun _ => Nat.isDigit_of_mem_toDigits (by decide) (by decide)⟩

/-- A text that starts with a digit has no sign. -/
theorem ne_minus_of_isDigits {cs : List Char} (h : isDigits cs = true) (ds : List Char) :
    cs ≠ '-' :: ds := by
  rintro rfl
  exact absurd ((isDigits_iff.1 h).2 '-' (by simp)) (by decide)

/-- A written integer is a numeral. -/
theorem isNumeral_toString (n : Int) : isNumeral (toString n).toList = true := by
  rw [toList_toString_int]
  split
  · unfold isNumeral
    split
    · next cs h => exact absurd h (ne_minus_of_isDigits (isDigits_toDigits _) cs)
    · exact isDigits_toDigits _
  · exact isDigits_toDigits _

/-- A written integer stands for itself. -/
theorem signedDecimal_toString (n : Int) : Text.signedDecimal (toString n).toList = n := by
  rw [toList_toString_int]
  split
  · unfold Text.signedDecimal
    split
    · next cs h => exact absurd h (ne_minus_of_isDigits (isDigits_toDigits _) cs)
    · rw [decimal_toDigits]
      omega
  · rw [Text.signedDecimal, decimal_toDigits]
    omega

/-- A 32-bit integer has at most ten digits. -/
theorem countP_toString_le {n : Int} (hlow : -2147483648 ≤ n) (hhigh : n ≤ 2147483647) :
    (toString n).toList.countP Char.isDigit ≤ 10 := by
  have hlength : ∀ m : Nat, m ≤ 2147483648 → (Nat.toDigits 10 m).countP Char.isDigit ≤ 10 := by
    intro m hm
    have hten : (Nat.toDigits 10 m).length ≤ 10 :=
      (Nat.length_toDigits_le_iff (by decide) (by decide)).2 (by omega)
    exact Nat.le_trans List.countP_le_length hten
  rw [toList_toString_int]
  split
  · exact hlength _ (by omega)
  · rw [List.countP_cons_of_neg (by decide)]
    exact hlength _ (by omega)

/-! ## The words of a line are a phrase -/

/-- A name is no keyword. -/
theorem ofWord_of_isName {s : String} (h : IsName s) : Kind.ofWord s = .identifier := by
  have hkeyword := h.2
  unfold Kind.ofWord
  split <;> simp_all

/-- Of most kinds, a word that is scanned as it is written has the form of its kind. -/
theorem written_of_kind {kind : Kind} {text : String} (hw : (Word.mk kind text).IsLexeme)
    (hkind : kind ∉ [.integer, .typeName, .boolean]) : (Word.mk kind text).Written := by
  refine ⟨hw, ?_, ?_⟩ <;> rintro t ⟨⟩
  · exact (regular_short_of_kind hkind).1
  · exact (regular_short_of_kind hkind).2

/-- Names are written as they are. -/
theorem written_name {s : String} (h : IsName s) : (Word.mk .identifier s).Written := by
  obtain ⟨c, cs, hs, hc, hcs⟩ := h.1
  have hchars : ∀ d ∈ cs, isNameChar d = true := List.all_eq_true.1 hcs
  have hlexeme := isLexeme_name hc hchars hs
  rw [ofWord_of_isName h] at hlexeme
  exact written_of_kind hlexeme (by decide)

/-- The words with a fixed text. -/
def vocabulary : List Word :=
  [⟨.lparen, "("⟩, ⟨.rparen, ")"⟩, ⟨.question, "?"⟩, ⟨.colon, ":"⟩, ⟨.arrow, "->"⟩,
    ⟨.doubleColon, "::"⟩, ⟨.assign, "="⟩, ⟨.plus, "+"⟩, ⟨.minus, "-"⟩, ⟨.star, "*"⟩, ⟨.slash, "/"⟩,
    ⟨.equal, "=="⟩, ⟨.notEqual, "!="⟩, ⟨.boolean, "true"⟩, ⟨.boolean, "false"⟩, ⟨.typeName, "int"⟩,
    ⟨.typeName, "float"⟩, ⟨.typeName, "bool"⟩]

/-- The words of the language are written as they are. -/
theorem written_of_mem_vocabulary {w : Word} (hw : w ∈ vocabulary) : w.Written where
  lexeme := by
    simp only [vocabulary, List.mem_cons, List.not_mem_nil, or_false] at hw
    rcases hw with rfl | rfl | rfl | rfl | rfl | rfl | rfl | rfl | rfl | rfl | rfl | rfl | rfl |
      rfl | rfl | rfl | rfl | rfl
    all_goals
      refine ⟨_, _, rfl, fun sep rest hsep => ?_⟩
      rcases hsep with rfl | rfl <;> rfl
  regular := by
    have hall : ∀ v ∈ vocabulary, Regular ⟨v.kind, v.text, .nowhere⟩ := by decide
    rintro t rfl
    exact hall t.word hw
  short := by
    have hall : ∀ v ∈ vocabulary, Short ⟨v.kind, v.text, .nowhere⟩ := by decide
    rintro t rfl
    exact hall t.word hw

/-- Literals that can be written are written as they are. -/
theorem Literal.written {v : Literal} (h : v.Writable) : v.word.Written := by
  cases v with
  | int n =>
    refine ⟨isLexeme_numeral (isNumeral_toString n), ?_, ?_⟩ <;> rintro t ht <;>
      obtain ⟨hkind, htext⟩ := Word.mk.inj ht
    · rw [Regular, hkind, htext]
      exact ⟨fun _ => isNumeral_toString n, fun h => absurd h (by decide),
        fun h => absurd h (by decide)⟩
    · rw [Short, htext]
      exact fun _ => Nat.le_trans (countP_toString_le h.1 h.2) (by decide)
  | float text => exact written_of_kind (isLexeme_fraction h) (by decide)
  | bool b => exact written_of_mem_vocabulary (by cases b <;> decide)

/-- A literal makes up a line, as far as parentheses go. -/
theorem Literal.phrase {v : Literal} (h : v.Writable) : Phrase [v.word] := by
  refine Phrase.singleton (Literal.written h) ?_ ?_ <;> cases v <;> rfl

/-- So does a name. -/
theorem phrase_name {s : String} (h : IsName s) : Phrase [⟨.identifier, s⟩] :=
  Phrase.singleton (written_name h) rfl rfl

/-- A word of the language that is no parenthesis can stand in front. -/
theorem Token.Phrase.cons_of_mem {w : Word} (hw : w ∈ vocabulary) (hparen : w.kind.isParen = false)
    {ws : List Word} (hws : Phrase ws) : Phrase (w :: ws) :=
  hws.cons (written_of_mem_vocabulary hw) hparen

/-- Parentheses around a phrase make a phrase. -/
theorem Token.Phrase.enclose {ws : List Word} (h : Phrase ws) (needed : Bool) :
    Phrase (enclose needed ws) := by
  cases needed with
  | false => exact h
  | true =>
    have hsigns : ∀ w ∈ Clausal.enclose true ws, w.Written := by
      simp only [Clausal.enclose, if_true, List.cons_append, List.mem_cons, List.mem_append,
        List.not_mem_nil, or_false]
      rintro w (rfl | hw | rfl)
      · exact written_of_mem_vocabulary (by decide)
      · exact h.written w hw
      · exact written_of_mem_vocabulary (by decide)
    refine ⟨hsigns, fun depth => ?_, ⟨.rparen, ")"⟩, ?_, rfl⟩
    · show depthAfter (depth + 1) (ws ++ [⟨.rparen, ")"⟩]) = depth
      rw [depthAfter_append, h.balanced]
      rfl
    · rw [Clausal.enclose, if_pos rfl, List.getLast?_append, List.getLast?_singleton,
        Option.some_or]

mutual

/-- The words of an expression are a phrase. -/
theorem Expr.phrase : ∀ e : Expr, e.Writable → Phrase e.words
  | .lit v _, h => by
    rw [Expr.Writable] at h
    rw [Expr.words]
    exact Literal.phrase h
  | .call f args _, h => by
    rw [Expr.Writable] at h
    rw [Expr.words]
    exact phrase_arguments args h.2 (phrase_name h.1)
  | .binary l op r _, h => by
    rw [Expr.Writable] at h
    rw [Expr.words]
    have hop := ((r.phrase h.2).enclose r.isCompound).cons_of_mem (w := op.word)
      (by cases op <;> decide) (by cases op <;> rfl)
    exact ((l.phrase h.1).enclose _).append hop
  | .cond t y n _, h => by
    rw [Expr.Writable] at h
    obtain ⟨ht, hy, hn⟩ := h
    rw [Expr.words]
    have hcolon := ((n.phrase hn).enclose n.isCompound).cons_of_mem (w := ⟨.colon, ":"⟩)
      (by decide) rfl
    have hquestion := (((y.phrase hy).enclose y.isCompound).append hcolon).cons_of_mem
      (w := ⟨.question, "?"⟩) (by decide) rfl
    exact ((t.phrase ht).enclose _).append hquestion

/-- Arguments can stand behind a phrase. -/
theorem phrase_arguments : ∀ args : List Expr, Expr.WritableAll args → ∀ {ws : List Word},
    Phrase ws → Phrase (ws ++ Expr.argumentWords args)
  | [], _, ws, hws => by
    rw [Expr.argumentWords, List.append_nil]
    exact hws
  | e :: es, h, ws, hws => by
    rw [Expr.WritableAll] at h
    rw [Expr.argumentWords, ← List.append_assoc]
    exact phrase_arguments es h.2 (hws.append ((e.phrase h.1).enclose _))

end

theorem Ty.word_mem_vocabulary (ty : Ty) : ty.word ∈ vocabulary := by
  cases ty <;> decide

/-- The words of a signature are a phrase. -/
theorem phrase_types (result : Ty) : ∀ ps : List Ty, Phrase (typeWords ps result)
  | [] => Phrase.singleton (written_of_mem_vocabulary result.word_mem_vocabulary) rfl rfl
  | p :: ps =>
    ((phrase_types result ps).cons_of_mem (by decide) rfl).cons_of_mem p.word_mem_vocabulary rfl

/-- The word of a parameter is a phrase. -/
theorem Pattern.phrase {p : Pattern} (h : p.Writable) : Phrase [p.word] := by
  cases p with
  | name x => exact phrase_name h
  | lit v => exact Literal.phrase h

/-- Parameters can stand in front of a phrase. -/
theorem phrase_parameters {ws : List Word} (hws : Phrase ws) : ∀ ps : List Pattern,
    (∀ p ∈ ps, p.Writable) → Phrase (ps.map Pattern.word ++ ws)
  | [], _ => hws
  | p :: ps, h => by
    obtain ⟨hp, hps⟩ := List.forall_mem_cons.1 h
    exact (Pattern.phrase hp).append (phrase_parameters hws ps hps)

/-- The words of a line are a phrase. -/
theorem Line.phrase {l : Line} (h : l.Writable) : Phrase l.words := by
  cases l with
  | decl d =>
    exact (phrase_name h).append ((phrase_types _ _).cons_of_mem (by decide) rfl)
  | clause c =>
    obtain ⟨hname, hparams, hbody⟩ := h
    refine (phrase_name hname).append (phrase_parameters ?_ c.params hparams)
    exact (c.body.phrase hbody).cons_of_mem (by decide) rfl

/-! ## Tokens of the words of a line have a derivation -/

/-- A token with the word of a literal stands for it. -/
theorem exists_literalLeaf {v : Literal} (h : v.Writable) {t : Token} (ht : t.word = v.word) :
    ∃ l : LiteralLeaf, l.token = t ∧ l.value = v := by
  suffices hv : Denotes t v from ⟨⟨t, v, hv⟩, rfl, rfl⟩
  cases v with
  | int n =>
    obtain ⟨hkind, htext⟩ := Word.mk.inj ht
    exact .int hkind (by rw [htext, signedDecimal_toString]) h.1 h.2
  | float text =>
    obtain ⟨hkind, rfl⟩ := Word.mk.inj ht
    exact .float hkind
  | bool b =>
    obtain ⟨hkind, htext⟩ := Word.mk.inj ht
    exact .bool hkind htext

/-- Tokens of words in parentheses. -/
theorem map_word_enclose {ts : List Token} {ws : List Word}
    (h : ts.map word = enclose true ws) :
    ∃ (opening : Leaf .lparen) (inner : List Token) (closing : Leaf .rparen),
      ts = opening.1 :: (inner ++ [closing.1]) ∧ inner.map word = ws := by
  rw [enclose, if_pos rfl, List.cons_append, List.map_eq_cons_iff] at h
  obtain ⟨t, more, rfl, ht, hmore⟩ := h
  obtain ⟨inner, last, rfl, hinner, hlast⟩ := List.map_eq_append_iff.1 hmore
  obtain ⟨c, more, rfl, hc, hnil⟩ := List.map_eq_cons_iff.1 hlast
  cases List.map_eq_nil_iff.1 hnil
  exact ⟨⟨t, congrArg Word.kind ht⟩, inner, ⟨c, congrArg Word.kind hc⟩, rfl, hinner⟩

/-- Every list of tokens with the words of the expression derives it. -/
def Expr.Derived (e : Expr) : Prop :=
  ∀ ts : List Token, ts.map word = e.words → ∃ d : Expression, d.tokens = ts ∧ d.tree = e.bare

/-- Tokens of an operand, in parentheses where these are needed, derive it. -/
theorem Expr.Derived.operand {e : Expr} (h : e.Derived) {ts : List Token}
    (hts : ts.map word = enclose e.isCompound e.words) :
    ∃ u : Operand, u.tokens = ts ∧ u.tree = e.bare := by
  cases hc : e.isCompound with
  | true =>
    rw [hc] at hts
    obtain ⟨opening, inner, closing, rfl, hinner⟩ := map_word_enclose hts
    obtain ⟨d, rfl, htree⟩ := h inner hinner
    exact ⟨.paren opening d closing, by rw [Operand.tokens], by rw [Operand.tree, htree]⟩
  | false =>
    rw [hc] at hts
    obtain ⟨d, rfl, htree⟩ := h ts hts
    cases d with
    | operand u => exact ⟨u, by rw [Expression.tokens], by rw [← htree, Expression.tree]⟩
    | binary | cond =>
      -- the tree of a compound expression is compound
      cases e <;> simp_all [Expr.bare, Expression.tree, Expr.isCompound]

/-- Tokens of an argument, in parentheses where these are needed, derive it. -/
theorem Expr.Derived.argument {e : Expr} (h : e.Derived) (he : e.Writable) {ts : List Token}
    (hts : ts.map word = enclose e.isApplied e.words) :
    ∃ a : Argument, a.tokens = ts ∧ a.tree = e.bare := by
  cases hc : e.isApplied with
  | true =>
    rw [hc] at hts
    obtain ⟨opening, inner, closing, rfl, hinner⟩ := map_word_enclose hts
    obtain ⟨d, rfl, htree⟩ := h inner hinner
    exact ⟨.paren opening d closing, by rw [Argument.tokens], by rw [Argument.tree, htree]⟩
  | false =>
    rw [hc] at hts
    cases e with
    | binary | cond => cases hc
    | lit v s =>
      rw [Expr.Writable] at he
      rw [enclose, if_neg (by decide), Expr.words] at hts
      obtain ⟨t, rfl, ht⟩ := List.map_eq_singleton_iff.1 hts
      obtain ⟨l, rfl, rfl⟩ := exists_literalLeaf he ht
      exact ⟨.literal l, by rw [Argument.tokens], by rw [Argument.tree, Expr.bare]⟩
    | call f args s =>
      have hargs : args = [] := by simpa [Expr.isApplied] using hc
      subst hargs
      rw [enclose, if_neg (by decide), Expr.words, Expr.argumentWords] at hts
      obtain ⟨t, rfl, ht⟩ := List.map_eq_singleton_iff.1 hts
      obtain ⟨hkind, rfl⟩ := Word.mk.inj ht
      exact ⟨.name ⟨t, hkind⟩, by rw [Argument.tokens],
        by rw [Argument.tree, Expr.bare, Expr.bareAll]⟩

mutual

/-- Tokens with the words of an expression derive it. -/
theorem Expr.derived : ∀ e : Expr, e.Writable → e.Derived
  | .lit v s, h, ts, hts => by
    rw [Expr.Writable] at h
    rw [Expr.words] at hts
    obtain ⟨t, rfl, ht⟩ := List.map_eq_singleton_iff.1 hts
    obtain ⟨l, rfl, rfl⟩ := exists_literalLeaf h ht
    exact ⟨.operand (.literal l), by rw [Expression.tokens, Operand.tokens],
      by rw [Expression.tree, Operand.tree, Expr.bare]⟩
  | .call f args s, h, ts, hts => by
    rw [Expr.Writable] at h
    rw [Expr.words] at hts
    obtain ⟨t, more, rfl, ht, hmore⟩ := List.map_eq_cons_iff.1 hts
    obtain ⟨hkind, rfl⟩ := Word.mk.inj ht
    obtain ⟨as, rfl, htrees⟩ := exists_arguments args h.2 more hmore
    exact ⟨.operand (.call ⟨t, hkind⟩ as), by rw [Expression.tokens, Operand.tokens],
      by rw [Expression.tree, Operand.tree, Expr.bare, htrees]⟩
  | .binary l op r s, h, ts, hts => by
    rw [Expr.Writable] at h
    rw [Expr.words] at hts
    obtain ⟨left, more, rfl, hleft, hmore⟩ := List.map_eq_append_iff.1 hts
    obtain ⟨t, right, rfl, ht, hright⟩ := List.map_eq_cons_iff.1 hmore
    obtain ⟨u, rfl, hu⟩ := (Expr.derived l h.1).operand hleft
    obtain ⟨v, rfl, hv⟩ := (Expr.derived r h.2).operand hright
    exact ⟨.binary u op ⟨t, congrArg Word.kind ht⟩ v, by rw [Expression.tokens],
      by rw [Expression.tree, Expr.bare, hu, hv]⟩
  | .cond c y n s, h, ts, hts => by
    rw [Expr.Writable] at h
    obtain ⟨hc, hy, hn⟩ := h
    rw [Expr.words] at hts
    obtain ⟨test, more, rfl, htest, hmore⟩ := List.map_eq_append_iff.1 hts
    obtain ⟨q, more, rfl, hq, hbranches⟩ := List.map_eq_cons_iff.1 hmore
    obtain ⟨yes, more, rfl, hyes, hcolon⟩ := List.map_eq_append_iff.1 hbranches
    obtain ⟨t, no, rfl, ht, hno⟩ := List.map_eq_cons_iff.1 hcolon
    obtain ⟨u, rfl, hu⟩ := (Expr.derived c hc).operand htest
    obtain ⟨v, rfl, hv⟩ := (Expr.derived y hy).operand hyes
    obtain ⟨w, rfl, hw⟩ := (Expr.derived n hn).operand hno
    exact ⟨.cond u ⟨q, congrArg Word.kind hq⟩ v ⟨t, congrArg Word.kind ht⟩ w,
      by rw [Expression.tokens], by rw [Expression.tree, Expr.bare, hu, hv, hw]⟩

/-- Tokens with the words of arguments derive them. -/
theorem exists_arguments : ∀ args : List Expr, Expr.WritableAll args → ∀ ts : List Token,
    ts.map word = Expr.argumentWords args →
      ∃ as : List Argument, argumentTokens as = ts ∧ argumentTrees as = Expr.bareAll args
  | [], _, ts, hts => by
    rw [Expr.argumentWords] at hts
    cases List.map_eq_nil_iff.1 hts
    exact ⟨[], by rw [argumentTokens], by rw [argumentTrees, Expr.bareAll]⟩
  | e :: es, h, ts, hts => by
    rw [Expr.WritableAll] at h
    rw [Expr.argumentWords] at hts
    obtain ⟨first, more, rfl, hfirst, hmore⟩ := List.map_eq_append_iff.1 hts
    obtain ⟨a, rfl, ha⟩ := (Expr.derived e h.1).argument h.1 hfirst
    obtain ⟨as, rfl, has⟩ := exists_arguments es h.2 more hmore
    exact ⟨a :: as, by rw [argumentTokens], by rw [argumentTrees, Expr.bareAll, ha, has]⟩

end

/-- A token with the word of a type names it. -/
theorem exists_typeLeaf {ty : Ty} {t : Token} (ht : t.word = ty.word) :
    ∃ l : TypeLeaf, l.token = t ∧ l.ty = ty := by
  obtain ⟨hkind, htext⟩ := Word.mk.inj ht
  exact ⟨⟨t, ty, hkind, htext⟩, rfl, rfl⟩

/-- Tokens with the words of a signature derive it. -/
theorem exists_types (result : Ty) : ∀ (ps : List Ty) (ts : List Token),
    ts.map word = typeWords ps result →
      ∃ s : Types, s.tokens = ts ∧ s.signature = ⟨ps, result⟩
  | [], ts, hts => by
    obtain ⟨t, rfl, ht⟩ := List.map_eq_singleton_iff.1 hts
    obtain ⟨l, rfl, rfl⟩ := exists_typeLeaf ht
    exact ⟨.last l, rfl, rfl⟩
  | p :: ps, ts, hts => by
    obtain ⟨t, more, rfl, ht, hmore⟩ := List.map_eq_cons_iff.1 hts
    obtain ⟨a, rest, rfl, ha, hrest⟩ := List.map_eq_cons_iff.1 hmore
    obtain ⟨l, rfl, rfl⟩ := exists_typeLeaf ht
    obtain ⟨s, rfl, hs⟩ := exists_types result ps rest hrest
    exact ⟨.arrow l ⟨a, congrArg Word.kind ha⟩ s, rfl, by rw [Types.signature, hs]⟩

/-- A token with the word of a parameter derives it. -/
theorem exists_parameter {p : Pattern} (h : p.Writable) {t : Token} (ht : t.word = p.word) :
    ∃ q : Parameter, q.token = t ∧ q.pattern = p.bare := by
  cases p with
  | name x s =>
    obtain ⟨hkind, rfl⟩ := Word.mk.inj ht
    exact ⟨.name ⟨t, hkind⟩, rfl, rfl⟩
  | lit v s =>
    obtain ⟨l, rfl, rfl⟩ := exists_literalLeaf h ht
    exact ⟨.literal l, rfl, rfl⟩

/-- Tokens with the words of parameters derive them. -/
theorem exists_parameters : ∀ (ps : List Pattern) (ts : List Token), (∀ p ∈ ps, p.Writable) →
    ts.map word = ps.map Pattern.word →
      ∃ qs : List Parameter, qs.map Parameter.token = ts ∧
        qs.map Parameter.pattern = ps.map Pattern.bare
  | [], ts, _, hts => ⟨[], (List.map_eq_nil_iff.1 hts).symm, rfl⟩
  | p :: ps, ts, h, hts => by
    obtain ⟨hp, hps⟩ := List.forall_mem_cons.1 h
    obtain ⟨t, more, rfl, ht, hmore⟩ := List.map_eq_cons_iff.1 hts
    obtain ⟨q, rfl, hq⟩ := exists_parameter hp ht
    obtain ⟨qs, rfl, hqs⟩ := exists_parameters ps more hps hmore
    exact ⟨q :: qs, rfl, by rw [List.map_cons, List.map_cons, hq, hqs]⟩

/-- Tokens with the words of a line derive it. -/
theorem exists_lineTree {l : Line} (h : l.Writable) {ts : List Token}
    (hts : ts.map word = l.words) : ∃ d : LineTree, d.tokens = ts ∧ d.line = l.bare := by
  cases l with
  | decl d =>
    obtain ⟨t, more, rfl, ht, hmore⟩ := List.map_eq_cons_iff.1 hts
    obtain ⟨c, rest, rfl, hc, hrest⟩ := List.map_eq_cons_iff.1 hmore
    obtain ⟨hkind, hname⟩ := Word.mk.inj ht
    obtain ⟨s, rfl, hs⟩ := exists_types _ _ rest hrest
    refine ⟨.signature ⟨t, hkind⟩ ⟨c, congrArg Word.kind hc⟩ s, rfl, ?_⟩
    rw [LineTree.line, Line.bare, hs, hname]
  | clause c =>
    obtain ⟨hname, hparams, hbody⟩ := h
    obtain ⟨t, more, rfl, ht, hmore⟩ := List.map_eq_cons_iff.1 hts
    obtain ⟨params, rest, rfl, hps, hrest⟩ := List.map_eq_append_iff.1 hmore
    obtain ⟨a, body, rfl, ha, hb⟩ := List.map_eq_cons_iff.1 hrest
    obtain ⟨hkind, htext⟩ := Word.mk.inj ht
    obtain ⟨qs, rfl, hqs⟩ := exists_parameters c.params params hparams hps
    obtain ⟨e, rfl, he⟩ := c.body.derived hbody body hb
    refine ⟨.clause ⟨t, hkind⟩ qs ⟨a, congrArg Word.kind ha⟩ e, rfl, ?_⟩
    rw [LineTree.line, Line.bare, hqs, he, htext]

/-! ## Round trip -/

/-- Of most kinds, every token can be read. -/
theorem readable_of_kind {t : Token} (h : t.kind ∉ [.integer, .typeName, .boolean]) :
    t.Readable :=
  ⟨(regular_short_of_kind h).1, (regular_short_of_kind h).2⟩

/-- The tokens of a phrase can be read. -/
theorem Token.Phrase.readable {ts : List Token} {ws : List Word} (h : Phrase ws)
    (hts : ts.map word = ws) : ∀ t ∈ ts, t.Readable := by
  intro t ht
  have hw := h.written t.word (hts ▸ List.mem_map_of_mem ht)
  exact ⟨hw.regular t rfl, hw.short t rfl⟩

/-- The text of lines is that of the first one, a line feed, and that of the others. -/
theorem Line.toList_textAll_cons (l : Line) (ls : List Line) :
    (Line.textAll (l :: ls)).toList =
      (spaced l.words).toList ++ '\n' :: (Line.textAll ls).toList := by
  simp [Line.textAll, Line.text, String.join_cons]

/-- Where a line may start, the text of lines is scanned as the tokens of items that stand for
them, and the end of the file. -/
theorem exists_items (file : String) (ls : List Line) (h : ∀ l ∈ ls, l.Writable) (cur : Cursor)
    (hdepth : cur.depth = 0) (hlast : cur.last = none ∨ cur.last = some .newline) :
    ∃ (items : List Item) (eof : Leaf .eof), items.filterMap Item.line? = ls.map Line.bare ∧
      (∀ t ∈ items.flatMap Item.tokens, t.Readable) ∧
      scanFrom file cur (Line.textAll ls).toList =
        { tokens := items.flatMap Item.tokens ++ [eof.1] } := by
  induction ls generalizing cur with
  | nil =>
    refine ⟨[], ⟨⟨.eof, "", .between file cur.pos cur.pos⟩, rfl⟩, rfl, by simp, ?_⟩
    rw [Line.textAll, List.map_nil, String.join_nil, String.toList_empty, scanFrom, hdepth,
      endTokens]
    rcases hlast with hlast | hlast <;> rw [hlast] <;> rfl
  | cons l ls ih =>
    obtain ⟨hl, hls⟩ := List.forall_mem_cons.1 h
    have hsigned : cur.signed = true := by
      rcases hlast with hlast | hlast <;> simp [Cursor.signed, hlast, Kind.completesValue]
    obtain ⟨ts, stop, next, hts, hstop, hdepth', hlast', hscan⟩ :=
      scanFrom_line file (Line.phrase hl) hsigned hdepth (Line.textAll ls).toList
    have hreadable := (Line.phrase hl).readable hts
    obtain ⟨d, rfl, hd⟩ := exists_lineTree hl hts
    obtain ⟨items, eof, hlines, hread, htail⟩ := ih hls next hdepth' (.inr hlast')
    refine ⟨.line d ⟨stop, hstop⟩ :: items, eof, ?_, ?_, ?_⟩
    · rw [List.filterMap_cons, Item.line?, hd, hlines, List.map_cons]
    · simp only [List.flatMap_cons, Item.tokens, List.mem_append, List.mem_singleton]
      rintro t ((ht | rfl) | ht)
      · exact hreadable t ht
      · exact readable_of_kind (by rw [hstop]; decide)
      · exact hread t ht
    · rw [Line.toList_textAll_cons, hscan, htail]
      simp [Scan.withTokens, Item.tokens]

/-- **Printing and reading is the identity.** Lines whose names are identifiers and no keywords and
whose literals can be written are read back from their text as they were, places aside. -/
theorem Program.parse_textAll (file : String) (ls : List Line) (h : ∀ l ∈ ls, l.Writable) :
    ∃ p, Program.parse (Line.textAll ls) file = .ok p ∧
      p.lines.map Line.bare = ls.map Line.bare := by
  obtain ⟨items, eof, hlines, hread, hscan⟩ := exists_items file ls h {} rfl (.inl rfl)
  have hreadable : ∀ t ∈ (Derivation.mk items eof).tokens, t.Readable := by
    intro t ht
    rcases List.mem_append.1 ht with ht | ht
    · exact hread t ht
    · rw [List.mem_singleton.1 ht]
      exact readable_of_kind (by rw [eof.2]; decide)
  obtain ⟨p, hp, hbare⟩ := Program.ofTokens_complete file ⟨items, eof⟩ hreadable
  refine ⟨p, ?_, hbare.trans hlines⟩
  have hparse : Program.parse (Line.textAll ls) file =
      Program.ofTokens file (Derivation.mk items eof).tokens := by
    simp [Program.parse, scan, hscan, Derivation.tokens]
  rw [hparse, hp]

/-- Two lines with a negative literal as pattern, argument and operand, an argument that is a call,
and a conditional operand. -/
def Program.pick : List Line :=
  [.decl ⟨"pick", ⟨[.int, .float], .bool⟩, .nowhere⟩,
    .clause ⟨"pick", [.lit (.int (-3)) .nowhere, .name "x_1" .nowhere],
      .binary
        (.call "go" [.call "f" [.lit (.int (-1)) .nowhere] .nowhere, .lit (.float "-0.5") .nowhere]
          .nowhere)
        .sub
        (.cond (.lit (.bool true) .nowhere) (.lit (.int (-7)) .nowhere)
          (.call "x_1" [] .nowhere) .nowhere)
        .nowhere, .nowhere⟩]

/-- The two lines are read back from their text. -/
theorem Program.parse_textAll_pick :
    (∀ l ∈ Program.pick, l.Writable) ∧
      Line.textAll Program.pick =
        "pick :: int -> float -> bool\npick -3 x_1 = go ( f -1 ) -0.5 - ( true ? -7 : x_1 )\n" ∧
      ∃ p, Program.parse (Line.textAll Program.pick) "pick" = .ok p ∧
        p.lines.map Line.bare = Program.pick.map Line.bare := by
  have hname : ∀ s ∈ ["pick", "go", "f", "x_1"], IsName s := by
    simp only [List.mem_cons, List.not_mem_nil, or_false]
    rintro s (rfl | rfl | rfl | rfl) <;>
      exact ⟨⟨_, _, rfl, rfl, rfl⟩, by decide⟩
  have hhalf : IsFraction "-0.5" := ⟨['0'], ['5'], by decide, by decide, .inr (by decide)⟩
  have hpick : ∀ l ∈ Program.pick, l.Writable := by
    simp [Program.pick, Line.Writable, Pattern.Writable, Expr.Writable, Expr.WritableAll,
      Literal.Writable, hname, hhalf]
  exact ⟨hpick, by decide +kernel, Program.parse_textAll "pick" Program.pick hpick⟩

end Clausal
