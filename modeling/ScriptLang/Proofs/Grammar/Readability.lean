import ScriptLang.Proofs.Decimal.Plain
import ScriptLang.Proofs.Grammar.Vocabulary
import ScriptLang.Proofs.Program.Erasure
import ScriptLang.Proofs.Program.Outlines
import ScriptLang.Proofs.Source.Rendering

/-!
# Texts of expressions can be read

From the text of an expression that was parsed from a source, the expression can be read back, but
for the lines of its words and the numbers of its references. Two kinds of expression are left out
because their texts do not tell all: a string is shown without quotes, and of a function only the
parameters are shown. So different expressions have different texts (`Expr.erase_eq_of_text_eq`).

The words of an expression are spelled as tokens of a source are (`Spelled`), so its outline is
legible. It is read by its heads: the word after the parenthesis and the number of parts tell the
kind of node, also where a minus has one operand or two (`Head.ofText_text`). A word alone is one
of the constants, `this`, a number or a name, and no two of these are spelled alike
(`Outline.readWord`).
-/

namespace ScriptLang

open Decimal (plain render)

/-! ## Words -/

/-- The word is one that a token of the kind may have in a source. -/
def Spelled (kind : Kind) (word : Lexeme) : Prop :=
  ∃ t, Source.Genuine t ∧ t.kind = kind ∧ t.lexeme = word

/-- A name: letters, digits and underscores, no digit first, and no keyword. -/
structure IsName (cs : List Char) : Prop where
  first : ∃ c body, cs = c :: body ∧ (c.isAlpha ∨ c = '_')
  all : ∀ c ∈ cs, c.isAlpha ∨ c = '_' ∨ c.isDigit
  free : Keyword.ofSpelling cs = none

theorem spelled_of_mem {source : String} {t : Token} (ht : t ∈ Source.tokens source)
    (hkind : t.kind ≠ .endOfInput) : Spelled t.kind t.lexeme :=
  ⟨t, Source.genuine_of_mem ht hkind, rfl, rfl⟩

namespace Spelled

variable {s : Symbol} {k : Keyword} {word : Lexeme}

theorem symbol (h : Spelled (.symbol s) word) : word.text = String.ofList s.spelling := by
  obtain ⟨t, ht, hkind, rfl⟩ := h
  cases ht <;> cases hkind
  rfl

theorem keyword (h : Spelled (.keyword k) word) : word.text = String.ofList k.spelling := by
  obtain ⟨t, ht, hkind, rfl⟩ := h
  cases ht <;> cases hkind
  rfl

theorem name (h : Spelled .identifier word) : IsName word.text.toList := by
  obtain ⟨t, ht, hkind, rfl⟩ := h
  cases ht with
  | symbol => cases hkind
  | keyword => cases hkind
  | string => cases hkind
  | number => cases hkind
  | @identifier c body line hstart hparts hkeyword =>
    rw [String.toList_ofList]
    refine ⟨⟨c, body, rfl, hstart⟩, fun d hd => ?_, ?_⟩
    · rcases List.mem_cons.mp hd with rfl | hd
      · exact hstart.elim .inl fun hunderscore => .inr (.inl hunderscore)
      · exact hparts d hd
    · cases hspelling : Keyword.ofSpelling (c :: body) with
      | none => rfl
      | some k => exact absurd (Keyword.spelling_of_ofSpelling hspelling) (hkeyword k)

end Spelled

/-- What no delimiter is tells what is no delimiter. -/
theorem isDelimiter_eq_false {p : Char → Prop} {c : Char} (hp : ¬ p ' ' ∧ ¬ p '(' ∧ ¬ p ')')
    (hc : p c) : isDelimiter c = false := by
  rw [isDelimiter, Bool.or_eq_false_iff, Bool.or_eq_false_iff, decide_eq_false_iff_not,
    decide_eq_false_iff_not, decide_eq_false_iff_not]
  refine ⟨⟨?_, ?_⟩, ?_⟩ <;> rintro rfl
  · exact hp.1 hc
  · exact hp.2.1 hc
  · exact hp.2.2 hc

theorem IsName.isWord {cs : List Char} (h : IsName cs) : IsWord cs := by
  obtain ⟨c, body, rfl, -⟩ := h.first
  refine ⟨List.cons_ne_nil _ _, fun d hd => ?_⟩
  exact isDelimiter_eq_false (p := fun d => d.isAlpha ∨ d = '_' ∨ d.isDigit) (by decide)
    (h.all d hd)

/-! ### Numbers -/

section Numbers

variable {x : Float} (hx : x.isFinite = true)
include hx

theorem isWord_number : IsWord (render plain x).toList := by
  obtain ⟨cs, hcs, htext⟩ := Decimal.render_plain_cases hx
  obtain ⟨c, rest, rfl, -⟩ := hcs.first
  have hdelimiter : ∀ d ∈ c :: rest, isDelimiter d = false := fun d hd =>
    isDelimiter_eq_false (p := fun d => d.isDigit ∨ d = '.') (by decide) (hcs.all d hd)
  rcases htext with htext | htext
  · rw [htext]
    exact ⟨List.cons_ne_nil _ _, hdelimiter⟩
  · rw [htext]
    exact ⟨List.cons_ne_nil _ _, List.forall_mem_cons.mpr ⟨rfl, hdelimiter⟩⟩

/-- A number begins with a digit or a sign, so it is neither a keyword nor a name. -/
theorem not_letter_of_number {c : Char} {rest : List Char}
    (h : (render plain x).toList = c :: rest) : ¬ (c.isAlpha ∨ c = '_') := by
  rw [← Source.isWordStart_iff]
  obtain ⟨cs, hcs, htext⟩ := Decimal.render_plain_cases hx
  obtain ⟨d, places, rfl, hd⟩ := hcs.first
  rcases htext with htext | htext
  · obtain ⟨rfl, -⟩ := List.cons.inj (h.symm.trans htext)
    exact fun hstart => Source.not_isDigit_of_isWordStart hstart hd
  · obtain ⟨rfl, -⟩ := List.cons.inj (h.symm.trans htext)
    decide

theorem ofSpelling_number : Keyword.ofSpelling (render plain x).toList = none := by
  cases hspelling : Keyword.ofSpelling (render plain x).toList with
  | none => rfl
  | some k =>
    have htext := Keyword.spelling_of_ofSpelling hspelling
    obtain ⟨c, rest, hk⟩ := List.exists_cons_of_ne_nil k.spelling_ne_nil
    have halpha := k.isAlpha_of_mem_spelling c (by rw [hk]; exact List.mem_cons_self)
    exact absurd (.inl halpha) (not_letter_of_number hx (htext.symm.trans hk))

theorem not_isName_number : ¬ IsName (render plain x).toList := by
  intro h
  obtain ⟨c, body, htext, hc⟩ := h.first
  exact not_letter_of_number hx htext hc

end Numbers

/-! ## Heads -/

/-- The kinds of node. -/
inductive Head
  | assign | unary (op : UnaryOp) | binary (op : BinaryOp) | logical (op : LogicalOp) | comma
  | conditional | grouping | call | get | set | super
  deriving DecidableEq

namespace Head

/-- The word that a node begins with. -/
def text : Head → List Char
  | assign => ['=']
  | unary op => op.symbol.spelling
  | binary op => op.symbol.spelling
  | logical op => op.keyword.spelling
  | comma => [',']
  | conditional => ['?', ':']
  | grouping => ['g', 'r', 'o', 'u', 'p']
  | call => ['c', 'a', 'l', 'l']
  | get => ['g', 'e', 't']
  | set => ['s', 'e', 't']
  | super => ['s', 'u', 'p', 'e', 'r']

/-- Whether a node has so many parts. -/
def takes : Head → Nat → Bool
  | unary _, n | grouping, n | super, n => n = 1
  | conditional, n | set, n => n = 3
  | call, n => n ≠ 0
  | assign, n | binary _, n | logical _, n | comma, n | get, n => n = 2

/-- Every head, once. -/
def all : List Head :=
  [assign, unary .not, unary .negate, binary .add, binary .subtract, binary .multiply,
    binary .divide, binary .greater, binary .greaterEqual, binary .less, binary .lessEqual,
    binary .equal, binary .notEqual, logical .and, logical .or, comma, conditional, grouping, call,
    get, set, super]

/-- The head of a node with so many parts that begins with the word. -/
def ofText (cs : List Char) (n : Nat) : Option Head :=
  all.find? fun h => h.text == cs && h.takes n

/-- A node is told by its first word and the number of its parts. -/
theorem ofText_text {h : Head} {n : Nat} (hn : h.takes n = true) : ofText h.text n = some h := by
  have hcall (n : Nat) : ofText call.text (n + 1) = some call := rfl
  cases h with
  | call =>
    obtain ⟨m, rfl⟩ := Nat.exists_eq_succ_of_ne_zero (by simpa [takes] using hn)
    exact hcall m
  | unary op =>
    obtain rfl : n = 1 := by simpa [takes] using hn
    cases op <;> rfl
  | binary op =>
    obtain rfl : n = 2 := by simpa [takes] using hn
    cases op <;> rfl
  | logical op =>
    obtain rfl : n = 2 := by simpa [takes] using hn
    cases op <;> rfl
  | _ =>
    simp only [takes, decide_eq_true_eq] at hn
    subst hn
    rfl

theorem isWord_text (h : Head) : IsWord h.text := by
  cases h with
  | unary op => cases op <;> decide
  | binary op => cases op <;> decide
  | logical op => cases op <;> decide
  | _ => decide

/-- The expression that a node stands for, if its parts stand for these. A name stands for a
variable before it is known what it names. -/
def build : Head → List Expr → Option Expr
  | assign, [.variable ref, value] => some (.assign ref value)
  | unary op, [operand] => some (.unary op ⟨String.ofList op.symbol.spelling, 0⟩ operand)
  | binary op, [left, right] => some (.binary op ⟨String.ofList op.symbol.spelling, 0⟩ left right)
  | logical op, [left, right] =>
    some (.logical op ⟨String.ofList op.keyword.spelling, 0⟩ left right)
  | comma, [left, right] => some (.comma left right)
  | conditional, [condition, whenTrue, whenFalse] =>
    some (.conditional condition whenTrue whenFalse)
  | grouping, [inner] => some (.grouping inner)
  | call, callee :: arguments =>
    some (.call callee arguments ⟨String.ofList Symbol.rightParen.spelling, 0⟩)
  | get, [object, .variable property] => some (.get object property.word)
  | set, [object, .variable property, value] => some (.set object property.word value)
  | super, [.variable method] =>
    some (.super ⟨0, String.ofList Keyword.super.spelling, 0⟩ method.word)
  | _, _ => none

end Head

/-! ## Reading -/

namespace Outline

open Classical in
/-- The expression that a word stands for. -/
noncomputable def readWord (cs : List Char) : Expr :=
  match Keyword.ofSpelling cs with
  | some .nil => .literal .nil
  | some .true => .literal (.bool true)
  | some .false => .literal (.bool false)
  | some .this => .this ⟨0, String.ofList Keyword.this.spelling, 0⟩
  | _ =>
    -- No two numbers have the same text, so it does not matter which one is chosen.
    if h : ∃ x : Float, x.isFinite = true ∧ (render plain x).toList = cs then
      .literal (.number h.choose)
    else .variable ⟨0, String.ofList cs, 0⟩

mutual

/-- The expression that an outline stands for. -/
noncomputable def read : Outline → Option Expr
  | word cs => some (readWord cs)
  | node head parts => do
    let es ← readAll parts
    (← Head.ofText head parts.length).build es

/-- The expressions that several outlines stand for. -/
noncomputable def readAll : List Outline → Option (List Expr)
  | [] => some []
  | part :: parts => do
    let e ← part.read
    let es ← readAll parts
    some (e :: es)

end

theorem readWord_number {x : Float} (hx : x.isFinite = true) :
    readWord (render plain x).toList = .literal (.number x) := by
  have hnumber : ∃ y : Float, y.isFinite = true ∧
      (render plain y).toList = (render plain x).toList := ⟨x, hx, rfl⟩
  have hsame : hnumber.choose = x :=
    Decimal.render_plain_injective hnumber.choose_spec.1 hx
      (String.toList_injective hnumber.choose_spec.2)
  unfold readWord
  rw [ofSpelling_number hx]
  dsimp only
  rw [dif_pos hnumber, hsame]

theorem readWord_name {cs : List Char} (h : IsName cs) :
    readWord cs = .variable ⟨0, String.ofList cs, 0⟩ := by
  have hnumber : ¬ ∃ x : Float, x.isFinite = true ∧ (render plain x).toList = cs := by
    rintro ⟨x, hx, rfl⟩
    exact not_isName_number hx h
  unfold readWord
  rw [h.free]
  dsimp only
  rw [dif_neg hnumber]

theorem read_name {word : Lexeme} (h : Spelled .identifier word) :
    read (.word word.text.toList) = some (.variable ⟨0, word.erase⟩) := by
  rw [read, readWord_name h.name, String.ofList_toList]
  rfl

variable {parts : List Outline} {part : Outline} {e : Expr} {es : List Expr}

theorem readAll_nil : readAll [] = some [] := rfl

theorem readAll_cons (h : part.read = some e) (hs : readAll parts = some es) :
    readAll (part :: parts) = some (e :: es) := by
  rw [readAll, h, hs]
  rfl

theorem read_node (h : Head) (htakes : h.takes parts.length = true)
    (hparts : readAll parts = some es) : read (.node h.text parts) = h.build es := by
  rw [read, hparts, Head.ofText_text htakes]
  rfl

end Outline

/-! ## Expressions -/

mutual

/-- There is no string literal and no function in the expression, and its numbers are finite. -/
def Expr.Simple : Expr → Prop
  | .literal (.number x) => x.isFinite = true
  | .literal (.string _) => False
  | .literal _ => True
  | .variable _ => True
  | .assign _ value => value.Simple
  | .unary _ _ operand => operand.Simple
  | .binary _ _ left right => left.Simple ∧ right.Simple
  | .logical _ _ left right => left.Simple ∧ right.Simple
  | .comma left right => left.Simple ∧ right.Simple
  | .conditional condition whenTrue whenFalse =>
    condition.Simple ∧ whenTrue.Simple ∧ whenFalse.Simple
  | .grouping inner => inner.Simple
  | .call callee arguments _ => callee.Simple ∧ Expr.AllSimple arguments
  | .get object _ => object.Simple
  | .set object _ value => object.Simple ∧ value.Simple
  | .this _ => True
  | .super _ _ => True
  | .function _ => False

/-- There is no string literal and no function in the expressions, and their numbers are finite. -/
def Expr.AllSimple : List Expr → Prop
  | [] => True
  | e :: es => e.Simple ∧ Expr.AllSimple es

end

theorem Lexeme.erase_symbol {s : Symbol} {word : Lexeme} (h : Spelled (.symbol s) word) :
    word.erase = ⟨String.ofList s.spelling, 0⟩ := by
  rw [Lexeme.erase, h.symbol]

theorem Lexeme.erase_keyword {k : Keyword} {word : Lexeme} (h : Spelled (.keyword k) word) :
    word.erase = ⟨String.ofList k.spelling, 0⟩ := by
  rw [Lexeme.erase, h.keyword]

theorem Spelled.toList_symbol {s : Symbol} {word : Lexeme} (h : Spelled (.symbol s) word) :
    word.text.toList = s.spelling := by
  rw [h.symbol, String.toList_ofList]

theorem Spelled.toList_keyword {k : Keyword} {word : Lexeme} (h : Spelled (.keyword k) word) :
    word.text.toList = k.spelling := by
  rw [h.keyword, String.toList_ofList]

/-- A constant that is no string is shown by a word, and is read from it. -/
theorem Literal.read_text {value : Literal} (h : (Expr.literal value).Simple) :
    IsWord value.text.toList ∧ Outline.readWord value.text.toList = .literal value := by
  cases value with
  | nil => exact ⟨by decide, rfl⟩
  | bool b => cases b <;> exact ⟨by decide, rfl⟩
  | number x => exact ⟨isWord_number h, Outline.readWord_number h⟩
  | string _ => exact h.elim

open Outline in
mutual

/-- The words of an expression are those of tokens, so its outline is legible. -/
theorem Expr.legible_outline : ∀ {e : Expr}, e.Worded Spelled → e.Simple → e.outline.Legible
  | .literal _, _, hsimple => (Literal.read_text hsimple).1
  | .variable _, hword, _ => hword.name.isWord
  | .assign _ _, ⟨hname, hvalue⟩, hsimple =>
    ⟨Head.assign.isWord_text, hname.name.isWord, legible_outline hvalue hsimple, trivial⟩
  | .unary op _ _, ⟨hsign, hoperand⟩, hsimple =>
    ⟨hsign.toList_symbol ▸ (Head.unary op).isWord_text, legible_outline hoperand hsimple, trivial⟩
  | .binary op _ _ _, ⟨hsign, hleft, hright⟩, hsimple =>
    ⟨hsign.toList_symbol ▸ (Head.binary op).isWord_text, legible_outline hleft hsimple.1,
      legible_outline hright hsimple.2, trivial⟩
  | .logical op _ _ _, ⟨hsign, hleft, hright⟩, hsimple =>
    ⟨hsign.toList_keyword ▸ (Head.logical op).isWord_text, legible_outline hleft hsimple.1,
      legible_outline hright hsimple.2, trivial⟩
  | .comma _ _, ⟨hleft, hright⟩, hsimple =>
    ⟨Head.comma.isWord_text, legible_outline hleft hsimple.1, legible_outline hright hsimple.2,
      trivial⟩
  | .conditional _ _ _, ⟨hcondition, htrue, hfalse⟩, hsimple =>
    ⟨Head.conditional.isWord_text, legible_outline hcondition hsimple.1,
      legible_outline htrue hsimple.2.1, legible_outline hfalse hsimple.2.2, trivial⟩
  | .grouping _, hinner, hsimple =>
    ⟨Head.grouping.isWord_text, legible_outline hinner hsimple, trivial⟩
  | .call _ _ _, ⟨hcallee, harguments, _⟩, hsimple =>
    ⟨Head.call.isWord_text, legible_outline hcallee hsimple.1,
      legible_outlines harguments hsimple.2⟩
  | .get _ _, ⟨hobject, hname⟩, hsimple =>
    ⟨Head.get.isWord_text, legible_outline hobject hsimple, hname.name.isWord, trivial⟩
  | .set _ _ _, ⟨hobject, hname, hvalue⟩, hsimple =>
    ⟨Head.set.isWord_text, legible_outline hobject hsimple.1, hname.name.isWord,
      legible_outline hvalue hsimple.2, trivial⟩
  | .this _, _, _ => (show IsWord ['t', 'h', 'i', 's'] by decide)
  | .super _ _, ⟨_, hname⟩, _ => ⟨Head.super.isWord_text, hname.name.isWord, trivial⟩
  | .function _, _, hsimple => hsimple.elim

theorem Expr.legible_outlines : ∀ {es : List Expr}, Expr.AllWorded Spelled es →
    Expr.AllSimple es → AllLegible (Expr.outlines es)
  | [], _, _ => trivial
  | _ :: _, ⟨he, hes⟩, hsimple => ⟨legible_outline he hsimple.1, legible_outlines hes hsimple.2⟩

end

open Outline in
mutual

/-- **An expression is read back from its outline, without lines and numbers.** -/
theorem Expr.read_outline : ∀ {e : Expr}, e.Worded Spelled → e.Simple →
    e.outline.read = some e.erase
  | .literal value, _, hsimple => by
    rw [Expr.outline, Outline.read, (Literal.read_text hsimple).2, Expr.erase]
  | .variable ref, hword, _ => read_name hword
  | .assign ref value, ⟨hname, hvalue⟩, hsimple => by
    have htarget := read_name hname
    have hread := read_outline hvalue hsimple
    exact read_node .assign rfl (readAll_cons htarget (readAll_cons hread readAll_nil))
  | .unary op sign operand, ⟨hsign, hoperand⟩, hsimple => by
    -- With one part, the sign is not that of an operator between two operands.
    have hread := read_outline hoperand hsimple
    rw [Expr.outline, hsign.toList_symbol, Expr.erase, Lexeme.erase_symbol hsign]
    exact read_node (.unary op) rfl (readAll_cons hread readAll_nil)
  | .binary op sign left right, ⟨hsign, hl, hr⟩, hsimple => by
    have hleft := read_outline hl hsimple.1
    have hright := read_outline hr hsimple.2
    rw [Expr.outline, hsign.toList_symbol, Expr.erase, Lexeme.erase_symbol hsign]
    exact read_node (.binary op) rfl (readAll_cons hleft (readAll_cons hright readAll_nil))
  | .logical op sign left right, ⟨hsign, hl, hr⟩, hsimple => by
    have hleft := read_outline hl hsimple.1
    have hright := read_outline hr hsimple.2
    rw [Expr.outline, hsign.toList_keyword, Expr.erase, Lexeme.erase_keyword hsign]
    exact read_node (.logical op) rfl (readAll_cons hleft (readAll_cons hright readAll_nil))
  | .comma left right, ⟨hl, hr⟩, hsimple => by
    have hleft := read_outline hl hsimple.1
    have hright := read_outline hr hsimple.2
    exact read_node .comma rfl (readAll_cons hleft (readAll_cons hright readAll_nil))
  | .conditional condition whenTrue whenFalse, ⟨hc, ht, hf⟩, hsimple => by
    have hcondition := read_outline hc hsimple.1
    have htrue := read_outline ht hsimple.2.1
    have hfalse := read_outline hf hsimple.2.2
    exact read_node .conditional rfl
      (readAll_cons hcondition (readAll_cons htrue (readAll_cons hfalse readAll_nil)))
  | .grouping inner, hinner, hsimple => by
    have hread : inner.outline.read = some inner.erase := read_outline hinner hsimple
    exact read_node .grouping rfl (readAll_cons hread readAll_nil)
  | .call callee arguments closing, ⟨hc, ha, hclosing⟩, hsimple => by
    have hcallee := read_outline hc hsimple.1
    have harguments := readAll_outlines ha hsimple.2
    rw [Expr.erase, Lexeme.erase_symbol hclosing]
    exact read_node .call rfl (readAll_cons hcallee harguments)
  | .get object property, ⟨ho, hname⟩, hsimple => by
    have hobject := read_outline ho hsimple
    exact read_node .get rfl (readAll_cons hobject (readAll_cons (read_name hname) readAll_nil))
  | .set object property value, ⟨ho, hname, hv⟩, hsimple => by
    have hobject := read_outline ho hsimple.1
    have hvalue := read_outline hv hsimple.2
    exact read_node .set rfl
      (readAll_cons hobject (readAll_cons (read_name hname) (readAll_cons hvalue readAll_nil)))
  | .this ref, hword, _ => by
    rw [Expr.erase, Ref.erase, Lexeme.erase_keyword hword]
    rfl
  | .super ref method, ⟨hword, hname⟩, _ => by
    rw [Expr.erase, Ref.erase, Lexeme.erase_keyword hword]
    exact read_node .super rfl (readAll_cons (read_name hname) readAll_nil)
  | .function _, _, hsimple => hsimple.elim

theorem Expr.readAll_outlines : ∀ {es : List Expr}, Expr.AllWorded Spelled es →
    Expr.AllSimple es → readAll (Expr.outlines es) = some (Expr.eraseAll es)
  | [], _, _ => rfl
  | _ :: _, ⟨he, hes⟩, hsimple =>
    readAll_cons (read_outline he hsimple.1) (readAll_outlines hes hsimple.2)

end

/-- Expressions whose words are those of tokens are the same if their texts are, but for lines and
numbers. -/
theorem Expr.erase_eq_of_worded {e e' : Expr} (he : e.Worded Spelled) (he' : e'.Worded Spelled)
    (hsimple : e.Simple) (hsimple' : e'.Simple) (h : e.text = e'.text) : e.erase = e'.erase := by
  have hchars : e.outline.chars = e'.outline.chars := by
    rw [e.chars_outline, e'.chars_outline, h]
  have houtline : e.outline = e'.outline :=
    Outline.chars_injective (legible_outline he hsimple) (legible_outline he' hsimple') hchars
  have hread : some e.erase = some e'.erase := by
    rw [← read_outline he hsimple, houtline, read_outline he' hsimple']
  exact Option.some.inj hread

/-! ## Expressions of sources -/

namespace Scoping

/-- The expression is in the phrase. The name of a superclass is an expression, too. -/
inductive Phrase.Shows (t : Phrase) : Expr → Prop
  | part {e} (h : t.Contains (.expression e)) : t.Shows e
  | superclass {name ref members} (h : t.Contains (.statement (.class name (some ref) members))) :
    t.Shows (.variable ref)

theorem Phrase.Shows.worded {P : Kind → Lexeme → Prop} {t : Phrase} {e : Expr} (h : t.Shows e)
    (ht : t.Worded P) : e.Worded P := by
  cases h with
  | part h => exact h.worded ht
  | superclass h => exact (h.worded ht).1 _ rfl

end Scoping

open Scoping (Phrase)

/-- The tree of a nonterminal as a phrase. -/
def Grammar.Nonterminal.phrase : (n : Nonterminal) → n.Tree → Phrase
  | .expression, e => .expression e
  | .assignment, e => .expression e
  | .conditional, e => .expression e
  | .unary, e => .expression e
  | .statement, s => .statement s
  | .declaration, s => .statements s.toList

theorem Grammar.Nonterminal.Worded.phrase {P : Kind → Lexeme → Prop} {n : Nonterminal}
    {tree : n.Tree} (h : n.Worded P tree) : (n.phrase tree).Worded P := by
  cases n with
  | declaration => exact Stmt.allWorded_iff.mpr fun s hs => h s (Option.mem_toList.mp hs)
  | _ => exact h

/-- The parser builds the expression from tokens of the source. It is in a tree that a rule of the
grammar makes of them, also if there is a fault before or after it, or in a program. -/
inductive Expr.BuiltFrom (source : String) (e : Expr) : Prop
  | rule {fuel n c tree c'} (htokens : ∀ t ∈ c.rest, t ∈ Source.tokens source)
    (hparse : Grammar.grammar fuel n c = .ok tree c') (hshown : (n.phrase tree).Shows e)
  | statement {mode nextRef p}
    (hparse : (Program.parse (Source.tokens source) mode nextRef).result = .ok p)
    (hshown : (Phrase.statements p.statements).Shows e)
  | trailing {mode nextRef p}
    (hparse : (Program.parse (Source.tokens source) mode nextRef).result = .ok p)
    (hshown : (Phrase.expressions p.trailing.toList).Shows e)

theorem Expr.BuiltFrom.worded {source : String} {e : Expr} (h : e.BuiltFrom source) :
    e.Worded Spelled := by
  have htokens : ∀ t ∈ Source.tokens source, t.kind ≠ .endOfInput → Spelled t.kind t.lexeme :=
    fun t ht hkind => spelled_of_mem ht hkind
  cases h with
  | @rule fuel n c tree c' hc hparse hshown =>
    have htree : n.Worded Spelled tree :=
      Grammar.worded_grammar htokens fuel n c hc tree c' hparse
    exact hshown.worded htree.phrase
  | statement hparse hshown =>
    exact hshown.worded (Program.worded_of_parse htokens hparse).statements
  | @trailing mode nextRef p hparse hshown =>
    refine hshown.worded (Expr.allWorded_iff.mpr fun e he => ?_)
    exact (Program.worded_of_parse htokens hparse).trailing e (Option.mem_toList.mp he)

/-- **Different expressions have different texts.** Take two expressions that the parser builds,
each from the tokens of a source, in which there are no strings and no functions and all numbers
are finite. If their texts are the same, then so are the expressions, but for the lines of their
words and the numbers of their references. -/
theorem Expr.erase_eq_of_text_eq {source source' : String} {e e' : Expr}
    (he : e.BuiltFrom source) (he' : e'.BuiltFrom source') (hsimple : e.Simple)
    (hsimple' : e'.Simple) (h : e.text = e'.text) : e.erase = e'.erase :=
  Expr.erase_eq_of_worded he.worded he'.worded hsimple hsimple' h

/-- A minus with two operands and one with one operand, in a program and at a prompt. -/
theorem same_text_on_another_line : ∃ e e' : Expr, e.BuiltFrom "a - -call(1, c);" ∧
    e'.BuiltFrom "\na--call(1,c)" ∧ e.text = e'.text ∧ e ≠ e' ∧ e.erase = e'.erase := by
  let tree (id line : Nat) : Expr :=
    .binary .subtract ⟨"-", line⟩ (.variable ⟨id, "a", line⟩)
      (.unary .negate ⟨"-", line⟩
        (.call (.variable ⟨id + 1, "call", line⟩)
          [.literal (.number (Float.ofScientific 1 true 0)), .variable ⟨id + 2, "c", line⟩]
          ⟨")", line⟩))
  have hscript : (Program.parse (Source.tokens "a - -call(1, c);") .script 0).result =
      .ok ⟨[.expression (tree 0 1)], none⟩ := rfl
  have hprompt : (Program.parse (Source.tokens "\na--call(1,c)") .interactive 7).result =
      .ok ⟨[], some (tree 7 2)⟩ := rfl
  have hstatement : Phrase.Holds (.statements [.expression (tree 0 1)])
      (.statement (.expression (tree 0 1))) := ⟨{}, [], .start [], _, _, _, .head⟩
  have hevaluated : Phrase.Holds (.statement (.expression (tree 0 1))) (.expression (tree 0 1)) :=
    ⟨{}, [], .start [], _, _, _, .evaluated⟩
  have hfirst : Phrase.Holds (.expressions [tree 7 2]) (.expression (tree 7 2)) :=
    ⟨{}, [], .start [], _, _, _, .first⟩
  have he : (tree 0 1).BuiltFrom "a - -call(1, c);" :=
    .statement hscript (.part ((Relation.ReflTransGen.single hstatement).tail hevaluated))
  have he' : (tree 7 2).BuiltFrom "\na--call(1,c)" :=
    .trailing hprompt (.part (.single hfirst))
  have hsimple (id line : Nat) : (tree id line).Simple := ⟨trivial, trivial, rfl, trivial, trivial⟩
  refine ⟨tree 0 1, tree 7 2, he, he', rfl, nofun, ?_⟩
  exact Expr.erase_eq_of_text_eq he he' (hsimple 0 1) (hsimple 7 2) rfl

end ScriptLang
