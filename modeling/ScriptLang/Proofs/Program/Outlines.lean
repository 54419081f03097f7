import ScriptLang.Program.Text
import ScriptLang.Proofs.Source.Lexical

/-!
# Outlines of texts

The text of an expression is a word or stands in parentheses, where the first word is the head and
the parts come after it, each behind a blank. An `Outline` is such a text taken apart, and every
expression has one (`Expr.chars_outline`).

If its words are not empty and have no blanks or parentheses in them (`Outline.Legible`), an
outline is told by its characters, whatever stands behind it: a word is over where a blank or a
parenthesis is next, and the parts of a node are over where its parenthesis is closed
(`Outline.chars_append_injective`).
-/

namespace ScriptLang

/-- Whether the character is one that stands between words. -/
def isDelimiter (c : Char) : Bool := c = ' ' || c = '(' || c = ')'

/-- A word that is over where a delimiter is next. -/
def IsWord (cs : List Char) : Prop := cs ≠ [] ∧ ∀ c ∈ cs, isDelimiter c = false

instance (cs : List Char) : Decidable (IsWord cs) :=
  decidable_of_iff ((! cs.isEmpty && cs.all (! isDelimiter ·)) = true) (by simp [IsWord])

/-- The text ends, or a delimiter is next. -/
def EndsWord (rest : List Char) : Prop := ∀ c ∈ rest.head?, isDelimiter c = true

/-- A text taken apart: a word, or a head and parts in parentheses. -/
inductive Outline
  | word (cs : List Char)
  | node (head : List Char) (parts : List Outline)

namespace Outline

mutual

/-- The characters of an outline. -/
def chars : Outline → List Char
  | word cs => cs
  | node head parts => '(' :: (head ++ partChars parts ++ [')'])

/-- The characters of parts, a blank before each of them. -/
def partChars : List Outline → List Char
  | [] => []
  | part :: parts => ' ' :: (part.chars ++ partChars parts)

end

mutual

/-- No word of the outline has a delimiter in it. -/
def Legible : Outline → Prop
  | word cs => IsWord cs
  | node head parts => IsWord head ∧ AllLegible parts

/-- No word of the outlines has a delimiter in it. -/
def AllLegible : List Outline → Prop
  | [] => True
  | part :: parts => part.Legible ∧ AllLegible parts

end

/-! ## Telling outlines by their characters -/

variable {t t' : Outline} {parts parts' : List Outline} {cs cs' rest rest' : List Char}

theorem ends_partChars (parts : List Outline) (rest : List Char) :
    EndsWord (partChars parts ++ ')' :: rest) := by
  intro c hc
  cases parts with
  | nil =>
    cases hc
    rfl
  | cons part parts =>
    cases hc
    rfl

/-- A word is told by where it ends. -/
theorem word_append_injective (hcs : IsWord cs) (hcs' : IsWord cs') (hrest : EndsWord rest)
    (hrest' : EndsWord rest') (h : cs ++ rest = cs' ++ rest') : cs = cs' ∧ rest = rest' := by
  have htake {word after : List Char} (hword : IsWord word) (hafter : EndsWord after) :
      (word ++ after).takeWhile (! isDelimiter ·) = word := by
    refine Source.Longest.takeWhile_eq ⟨fun c hc => ?_, fun c hc => ?_⟩
    · simp [hword.2 c hc]
    · simp [hafter c hc]
  have hwords : cs = cs' := by
    rw [← htake hcs hrest, h, htake hcs' hrest']
  subst hwords
  exact ⟨rfl, List.append_cancel_left h⟩

/-- A word does not begin with a parenthesis. -/
theorem word_ne_node {head : List Char} (hcs : IsWord cs) :
    cs ++ rest ≠ (node head parts).chars ++ rest' := by
  obtain ⟨c, body, rfl⟩ := List.exists_cons_of_ne_nil hcs.1
  intro h
  have hopen : c = '(' := (List.cons.inj h).1
  have hdelimiter := hcs.2 c List.mem_cons_self
  rw [hopen] at hdelimiter
  cases hdelimiter

mutual

/-- **A legible outline is told by its characters, whatever stands behind it.** -/
theorem chars_append_injective : ∀ {t t' : Outline} {rest rest' : List Char}, t.Legible →
    t'.Legible → EndsWord rest → EndsWord rest' → t.chars ++ rest = t'.chars ++ rest' →
      t = t' ∧ rest = rest'
  | word cs, word cs', rest, rest', ht, ht', hrest, hrest', h => by
    obtain ⟨rfl, rfl⟩ := word_append_injective ht ht' hrest hrest' h
    exact ⟨rfl, rfl⟩
  | word cs, node head parts, rest, rest', ht, _, _, _, h => absurd h (word_ne_node ht)
  | node head parts, word cs, rest, rest', _, ht', _, _, h => absurd h.symm (word_ne_node ht')
  | node head parts, node head' parts', rest, rest', ht, ht', _, _, h => by
    have hheads : head ++ (partChars parts ++ ')' :: rest) =
        head' ++ (partChars parts' ++ ')' :: rest') := by
      simpa [chars, List.append_assoc] using h
    obtain ⟨rfl, hparts⟩ := word_append_injective ht.1 ht'.1 (ends_partChars parts rest)
      (ends_partChars parts' rest') hheads
    obtain ⟨rfl, rfl⟩ := partChars_append_injective ht.2 ht'.2 hparts
    exact ⟨rfl, rfl⟩

theorem partChars_append_injective : ∀ {parts parts' : List Outline} {rest rest' : List Char},
    AllLegible parts → AllLegible parts' →
    partChars parts ++ ')' :: rest = partChars parts' ++ ')' :: rest' →
      parts = parts' ∧ rest = rest'
  | [], [], _, _, _, _, h => ⟨rfl, (List.cons.inj h).2⟩
  | [], part :: parts, _, _, _, _, h => by cases (List.cons.inj h).1
  | part :: parts, [], _, _, _, _, h => by cases (List.cons.inj h).1
  | part :: parts, part' :: parts', rest, rest', hparts, hparts', h => by
    have hfirst : part.chars ++ (partChars parts ++ ')' :: rest) =
        part'.chars ++ (partChars parts' ++ ')' :: rest') := by
      simpa [partChars, List.append_assoc] using h
    obtain ⟨rfl, hothers⟩ := chars_append_injective hparts.1 hparts'.1
      (ends_partChars parts rest) (ends_partChars parts' rest') hfirst
    obtain ⟨rfl, rfl⟩ := partChars_append_injective hparts.2 hparts'.2 hothers
    exact ⟨rfl, rfl⟩

end

/-- A legible outline is told by its characters. -/
theorem chars_injective (ht : t.Legible) (ht' : t'.Legible) (h : t.chars = t'.chars) : t = t' := by
  have hnone : EndsWord [] := nofun
  have happend : t.chars ++ [] = t'.chars ++ [] := by rw [h]
  exact (chars_append_injective ht ht' hnone hnone happend).1

theorem partChars_eq_flatMap (parts : List Outline) :
    partChars parts = parts.flatMap fun part => ' ' :: part.chars := by
  induction parts with
  | nil => rfl
  | cons part parts ih => rw [partChars, ih, List.flatMap_cons, List.cons_append]

end Outline

/-! ## Outlines of expressions -/

/-- The outline of a list of names. -/
def nameOutline : List Lexeme → Outline
  | [] => .node [] []
  | name :: names => .node name.text.toList (names.map fun word => .word word.text.toList)

mutual

/-- The outline of the text of an expression. -/
def Expr.outline : Expr → Outline
  | .literal value => .word value.text.toList
  | .variable ref => .word ref.word.text.toList
  | .assign ref value => .node ['='] [.word ref.word.text.toList, value.outline]
  | .unary _ sign operand => .node sign.text.toList [operand.outline]
  | .binary _ sign left right => .node sign.text.toList [left.outline, right.outline]
  | .logical _ sign left right => .node sign.text.toList [left.outline, right.outline]
  | .comma left right => .node [','] [left.outline, right.outline]
  | .conditional condition whenTrue whenFalse =>
    .node ['?', ':'] [condition.outline, whenTrue.outline, whenFalse.outline]
  | .grouping inner => .node ['g', 'r', 'o', 'u', 'p'] [inner.outline]
  | .call callee arguments _ =>
    .node ['c', 'a', 'l', 'l'] (callee.outline :: Expr.outlines arguments)
  | .get object property => .node ['g', 'e', 't'] [object.outline, .word property.text.toList]
  | .set object property value =>
    .node ['s', 'e', 't'] [object.outline, .word property.text.toList, value.outline]
  | .this _ => .word ['t', 'h', 'i', 's']
  | .super _ method => .node ['s', 'u', 'p', 'e', 'r'] [.word method.text.toList]
  | .function ⟨params, _⟩ => .node ['f', 'u', 'n'] [nameOutline params]

/-- The outlines of the texts of several expressions. -/
def Expr.outlines : List Expr → List Outline
  | [] => []
  | e :: es => e.outline :: Expr.outlines es

end

theorem intercalate_blank (first : List Char) (others : List (List Char)) :
    [' '].intercalate (first :: others) = first ++ others.flatMap (' ' :: ·) := by
  induction others generalizing first with
  | nil => simp
  | cons second others ih =>
    rw [List.intercalate_cons_cons, ih, List.flatMap_cons, List.append_assoc]
    rfl

theorem toList_node (head : String) (parts : List String) : (node head parts).toList =
    '(' :: (head.toList ++ (parts.flatMap fun part => ' ' :: part.toList) ++ [')']) := by
  unfold node spaced
  rw [String.toList_append, String.toList_append, String.toList_intercalate, List.map_cons,
    show " ".toList = [' '] from rfl, intercalate_blank, List.flatMap_map]
  rfl

/-- A text in parentheses has the characters of a node if its parts have those of the node's. -/
theorem chars_node (head : String) {texts : List String} {parts : List Outline}
    (h : texts.map String.toList = parts.map Outline.chars) :
    (Outline.node head.toList parts).chars = (node head texts).toList := by
  have hparts : (parts.flatMap fun part => ' ' :: part.chars) =
      texts.flatMap fun text => ' ' :: text.toList := by
    simpa [List.flatMap_map] using congrArg (List.flatMap (' ' :: ·)) h.symm
  rw [Outline.chars, Outline.partChars_eq_flatMap, hparts, toList_node]

theorem chars_nameOutline (names : List Lexeme) :
    (nameOutline names).chars = (nameList names).toList := by
  cases names with
  | nil => rfl
  | cons name names =>
    rw [nameList, List.map_cons, ← node, ← chars_node]
    · rfl
    · simp [Outline.chars]

mutual

/-- An expression has the text of its outline. -/
theorem Expr.chars_outline : ∀ e : Expr, e.outline.chars = e.text.toList
  | .literal _ => rfl
  | .variable _ => rfl
  | .assign ref value => chars_node "=" (by simp [Outline.chars, value.chars_outline])
  | .unary _ sign operand => chars_node sign.text (by simp [operand.chars_outline])
  | .binary _ sign left right => chars_node sign.text (by simp [left.chars_outline, right.chars_outline])
  | .logical _ sign left right => chars_node sign.text (by simp [left.chars_outline, right.chars_outline])
  | .comma left right =>
    chars_node "," (by simp [left.chars_outline, right.chars_outline])
  | .conditional condition whenTrue whenFalse => chars_node "?:"
    (by simp [condition.chars_outline, whenTrue.chars_outline, whenFalse.chars_outline])
  | .grouping inner => chars_node "group" (by simp [inner.chars_outline])
  | .call callee arguments _ => chars_node "call"
    (by simp [callee.chars_outline, Expr.chars_outlines arguments])
  | .get object property =>
    chars_node "get" (by simp [Outline.chars, object.chars_outline])
  | .set object property value => chars_node "set"
    (by simp [Outline.chars, object.chars_outline, value.chars_outline])
  | .this _ => show ['t', 'h', 'i', 's'] = "this".toList from rfl
  | .super _ method => chars_node "super" (by simp [Outline.chars])
  | .function ⟨params, _⟩ => chars_node "fun" (by simp [chars_nameOutline])

theorem Expr.chars_outlines : ∀ es : List Expr,
    (Expr.texts es).map String.toList = (Expr.outlines es).map Outline.chars
  | [] => rfl
  | e :: es => by simp [Expr.texts, Expr.outlines, e.chars_outline, Expr.chars_outlines es]

end

end ScriptLang
