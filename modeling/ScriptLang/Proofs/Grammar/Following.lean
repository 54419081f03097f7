import ScriptLang.Proofs.Grammar.Grammatical

/-!
# What may follow

A parser of operators goes on as long as the next word joins another operand to what it has. So
a phrase is read to its end only if what follows does not go on with it: if it joins at all, it
has to join at a looser level (`Stops`). What a phrase starts with decides which rule reads it
(`Expr.starts`, `Stmt.starts`).
-/

namespace ScriptLang.Grammar

/-! ## Joining words -/

/-- The kind of the first of some words, or of what follows them if there are none. -/
def kindAt (ws : List Word) : Kind := (ws.head?.map Word.kind).getD .endOfInput

@[simp]
theorem kindAt_nil : kindAt [] = .endOfInput := rfl

@[simp]
theorem kindAt_cons (w : Word) (ws : List Word) : kindAt (w :: ws) = w.kind := rfl

/-- The level at which a token goes on with the expression in front of it. -/
def joiningLevel : Kind → Option Level
  | .symbol .leftParen | .symbol .dot => some .call
  | .symbol .slash | .symbol .star => some .product
  | .symbol .minus | .symbol .plus => some .sum
  | .symbol .greater | .symbol .greaterEqual | .symbol .less | .symbol .lessEqual =>
    some .comparison
  | .symbol .bangEqual | .symbol .equalEqual => some .equality
  | .keyword .and => some .conjunction
  | .keyword .or => some .disjunction
  | .symbol .question => some .conditional
  | .symbol .equal => some .assignment
  | .symbol .comma => some .comma
  | _ => none

/-- What follows does not go on with an expression of the level. -/
def Stops (l : Level) (rest : List Word) : Prop :=
  ∀ l', joiningLevel (kindAt rest) = some l' → l' < l

theorem Stops.mono {l l' : Level} {rest : List Word} (h : Stops l rest) (hle : l ≤ l') :
    Stops l' rest := fun l₁ h₁ => (h l₁ h₁).trans_le hle

theorem stops_of_none {l : Level} {rest : List Word} (h : joiningLevel (kindAt rest) = none) :
    Stops l rest := by
  intro l' hl'
  rw [h] at hl'
  cases hl'

/-- What follows stands at the level or at a looser one. -/
theorem stops_of_joins {l l' : Level} {rest : List Word} (h : joiningLevel (kindAt rest) = some l)
    (hlt : l < l') : Stops l' rest := by
  intro l₁ hl₁
  rw [h] at hl₁
  cases hl₁
  exact hlt

theorem joiningLevel_of_join {rank : Rank} {kind : Kind} {node : Lexeme → Expr → Expr → Expr}
    (h : rank.join kind = some node) : joiningLevel kind = some rank.level := by
  obtain ⟨op, hop, rfl, -⟩ | ⟨op, hop, rfl, -⟩ := Rank.join_eq_some h
  · rw [← hop]
    cases op <;> rfl
  · rw [← hop]
    cases op <;> rfl

theorem joiningLevel_of_commaJoin {kind : Kind} {node : Lexeme → Expr → Expr → Expr}
    (h : commaJoin kind = some node) : joiningLevel kind = some .comma := by
  unfold commaJoin at h
  split at h
  · rfl
  · cases h

/-! ## First words -/

/-- Whether an expression may start with a token of the kind. -/
def startsExpression : Kind → Bool
  | .keyword k =>
    match k with
    | .false | .true | .nil | .this | .super | .fun => true
    | _ => false
  | .symbol s =>
    match s with
    | .leftParen | .bang | .minus => true
    | _ => false
  | .identifier | .number | .string => true
  | .endOfInput => false

/-- The first word of an expression. A routine without a name has its parameters next. -/
def Starts (ws : List Word) : Prop :=
  ∃ w ws', ws = w :: ws' ∧ startsExpression w.kind ∧
    (w.kind = .keyword .fun → ∃ ws'', ws' = Symbol.leftParen.word :: ws'')

theorem Starts.append {ws : List Word} (h : Starts ws) (rest : List Word) : Starts (ws ++ rest) := by
  obtain ⟨w, ws', rfl, hstart, hfun⟩ := h
  refine ⟨w, ws' ++ rest, rfl, hstart, fun hkind => ?_⟩
  obtain ⟨ws'', rfl⟩ := hfun hkind
  exact ⟨ws'' ++ rest, rfl⟩

theorem starts_of_kind {w : Word} {ws : List Word} (hstart : startsExpression w.kind)
    (hfun : w.kind ≠ .keyword .fun) : Starts (w :: ws) :=
  ⟨w, ws, rfl, hstart, fun hkind => absurd hkind hfun⟩

/-- Every expression starts with a word that no other phrase starts with. The induction is down
the left operands. -/
theorem starts_words : (e : Expr) → Starts e.words
  | .literal value => by
    cases value with
    | nil => exact starts_of_kind rfl nofun
    | bool b => cases b <;> exact starts_of_kind rfl nofun
    | number x => exact starts_of_kind rfl nofun
    | string s => exact starts_of_kind rfl nofun
  | .variable ref => starts_of_kind rfl nofun
  | .assign ref value => starts_of_kind rfl nofun
  | .unary op sign operand => by cases op <;> exact starts_of_kind rfl nofun
  | .binary op sign left right => by
    rw [Expr.words]
    exact (starts_words left).append _
  | .logical op sign left right => by
    rw [Expr.words]
    exact (starts_words left).append _
  | .comma left right => by
    rw [Expr.words]
    exact (starts_words left).append _
  | .conditional condition whenTrue whenFalse => by
    rw [Expr.words, List.append_assoc]
    exact (starts_words condition).append _
  | .grouping inner => starts_of_kind rfl nofun
  | .call callee arguments closing => by
    rw [Expr.words, List.append_assoc]
    exact (starts_words callee).append _
  | .get object property => by
    rw [Expr.words]
    exact (starts_words object).append _
  | .set object property value => by
    rw [Expr.words]
    exact (starts_words object).append _
  | .this ref => starts_of_kind rfl nofun
  | .super ref method => starts_of_kind rfl nofun
  | .function ⟨params, body⟩ => ⟨_, _, rfl, rfl, fun _ => ⟨_, rfl⟩⟩

/-- Whether a declaration or statement may start with a token of the kind. -/
def startsStatement : Kind → Bool
  | .keyword .print | .keyword .var | .keyword .if | .keyword .while | .keyword .break
  | .keyword .return | .keyword .class | .symbol .leftBrace => true
  | kind => startsExpression kind

theorem startsStatement_of_startsExpression {kind : Kind} (h : startsExpression kind) :
    startsStatement kind := by
  unfold startsStatement
  split <;> first | rfl | exact h

theorem startsStatement_words (s : Stmt) : ∃ w ws, s.words = w :: ws ∧ startsStatement w.kind := by
  have hexpression (e : Expr) (rest : List Word) :
      ∃ w ws, e.words ++ rest = w :: ws ∧ startsStatement w.kind := by
    obtain ⟨w, ws, hws, hstart, -⟩ := (starts_words e).append rest
    exact ⟨w, ws, hws, startsStatement_of_startsExpression hstart⟩
  cases s with
  | expression e =>
    rw [Stmt.words]
    exact hexpression e _
  | print e => exact ⟨_, _, rfl, rfl⟩
  | vars ds => exact ⟨_, _, rfl, rfl⟩
  | block body => exact ⟨_, _, rfl, rfl⟩
  | ifElse condition whenTrue whenFalse => cases whenFalse <;> exact ⟨_, _, rfl, rfl⟩
  | whileLoop condition body => exact ⟨_, _, rfl, rfl⟩
  | breakLoop keyword => exact ⟨_, _, rfl, rfl⟩
  | returnFrom keyword value => cases value <;> exact ⟨_, _, rfl, rfl⟩
  | function name routine =>
    obtain ⟨params, body⟩ := routine
    exact ⟨_, _, rfl, rfl⟩
  | «class» name superclass members => cases superclass <;> exact ⟨_, _, rfl, rfl⟩

/-- Statements behind which something else stands start as a statement or as that does. -/
theorem kindAt_listWords (body : List Stmt) (rest : List Word) :
    startsStatement (kindAt (Stmt.listWords body ++ rest)) ∨
      body = [] ∧ kindAt (Stmt.listWords body ++ rest) = kindAt rest := by
  cases body with
  | nil => exact .inr ⟨rfl, rfl⟩
  | cons s body =>
    obtain ⟨w, ws, hws, hstart⟩ := startsStatement_words s
    refine .inl ?_
    rw [Stmt.listWords, hws]
    exact hstart

end ScriptLang.Grammar
