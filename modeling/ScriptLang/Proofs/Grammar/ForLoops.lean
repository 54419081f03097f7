import ScriptLang.Proofs.Grammar.Trees

/-!
# Loops with clauses

A loop with clauses has no node of its own: what is parsed is a `while` loop in blocks. Here such
a loop is a record of its clauses and its body (`ForLoop`), and `ForLoop.tree` is the tree that
stands for it. `forClauses` reads the same words as the parser of `for` statements but keeps the
clauses apart, so each `for` statement that parses is the tree of its clauses (`forStatement_eq`).
-/

namespace ScriptLang

open Scoping (Phrase)

/-- The first clause of a loop. -/
inductive ForInitializer
  | vars (declarators : List Declarator)
  | expression (e : Expr)

/-- The clauses of a loop, each of which may be missing, and its body. -/
structure ForLoop where
  initializer : Option ForInitializer
  condition : Option Expr
  increment : Option Expr
  body : Stmt

/-! ## Trees -/

/-- The first clause as a statement. -/
def ForInitializer.tree : ForInitializer → Stmt
  | vars ds => .vars ds
  | expression e => .expression e

namespace ForLoop

/-- The tree of a loop. -/
def tree (loop : ForLoop) : Stmt :=
  .forLoop (loop.initializer.map ForInitializer.tree) loop.condition loop.increment loop.body

/-- The tree of the condition, which holds if it is missing. -/
def conditionTree (loop : ForLoop) : Expr := loop.condition.getD (.literal (.bool true))

/-- The tree of what is done in each round. -/
def roundTree (loop : ForLoop) : Stmt :=
  match loop.increment with
  | some e => .block [loop.body, .expression e]
  | none => loop.body

/-- The tree of the loop without its first clause. -/
def whileTree (loop : ForLoop) : Stmt := .whileLoop loop.conditionTree loop.roundTree

theorem tree_eq (loop : ForLoop) : loop.tree =
    match loop.initializer with
    | some i => .block [i.tree, loop.whileTree]
    | none => loop.whileTree := by
  obtain ⟨initializer, condition, increment, body⟩ := loop
  cases initializer <;> rfl

/-- What may be evaluated in each round. -/
inductive Piece
  | condition | body | increment

/-- The piece of a loop, unless it is missing. -/
def phrase? (loop : ForLoop) : Piece → Option Phrase
  | .condition => loop.condition.map .expression
  | .body => some (.statement loop.body)
  | .increment => loop.increment.map .expression

/-- The variables of a loop. -/
def names (loop : ForLoop) : List String :=
  match loop.initializer with
  | some (.vars ds) => ds.map (·.name.text)
  | _ => []

end ForLoop

/-! ## Parsing -/

namespace Grammar

variable {g : Grammar} {fuel : Nat}

/-- The first clause of a loop, with its semicolon. -/
def firstClause (g : Grammar) (fuel : Nat) : Parser (Option ForInitializer) := do
  if ← skip (.symbol .semicolon) then pure none
  else if ← looksAt (.keyword .var) then
    let _ ← take
    let declarators ← declaratorsFrom g fuel []
    let _ ← symbol .afterVariables
    pure (some (.vars declarators))
  else
    let e ← expression g fuel
    let _ ← symbol .afterExpressionStatement
    pure (some (.expression e))

/-- The clauses and the body of a loop. -/
def forClauses (g : Grammar) (fuel : Nat) : Parser ForLoop := do
  let _ ← take
  let _ ← symbol .afterFor
  let initializer ← firstClause g fuel
  let condition ← clauseUpTo g .semicolon
  let _ ← symbol .afterLoopCondition
  let increment ← clauseUpTo g .rightParen
  let _ ← symbol .afterForClauses
  let body ← g .statement
  pure ⟨initializer, condition, increment, body⟩

theorem forInitializer_eq :
    forInitializer g fuel = Option.map ForInitializer.tree <$> firstClause g fuel := by
  unfold forInitializer firstClause
  rw [map_bind]
  refine congrArg _ (funext fun missing => ?_)
  cases missing with
  | true => simp only [if_true, map_pure, Option.map_none]
  | false =>
    simp only [Bool.false_eq_true, if_false, map_bind]
    refine congrArg _ (funext fun declared => ?_)
    cases declared with
    | true =>
      simp only [if_true, varDeclaration, map_bind, map_pure]
      rfl
    | false =>
      simp only [Bool.false_eq_true, if_false, expressionStatement, map_bind, map_pure]
      rfl

/-- A `for` statement is read like its clauses, and is the tree of them. -/
theorem forStatement_eq : forStatement g fuel = ForLoop.tree <$> forClauses g fuel := by
  unfold forStatement forClauses
  rw [forInitializer_eq]
  simp only [map_bind, map_pure, bind_map_left]
  rfl

theorem map_eq_match {α β : Type} (f : α → β) (act : Parser α) (c : Cursor) :
    (f <$> act) c = match act c with
      | .ok a c' => .ok (f a) c'
      | .error stop c' => .error stop c' := bind_eq_match act (fun a => pure (f a)) c

theorem Reads.of_map {α β : Type} {f : α → β} {act : Parser α} {c : Cursor}
    {good : β → Cursor → Prop} (h : Reads (f <$> act) c good) :
    Reads act c fun a c' => good (f a) c' := by
  unfold Reads at h ⊢
  rw [map_eq_match] at h
  cases hact : act c with
  | ok a c' =>
    rw [hact] at h
    exact h
  | error stop c' =>
    rw [hact] at h
    exact h

/-- The body of a loop is read as a statement, so it declares nothing in the scope around it. -/
theorem reads_forClauses (hg : Faithful g) {c : Cursor} (hc : c.Honest) :
    Reads (forClauses g fuel) c fun loop _ => loop.body.declares = [] := by
  have hinitializer {c : Cursor} (hc : c.Honest) :
      Reads (firstClause g fuel) c fun _ _ => True := by
    have hread : Reads (forInitializer g fuel) c _ := reads_forInitializer hg hc
    rw [forInitializer_eq] at hread
    exact hread.of_map.mono fun _ _ _ => trivial
  unfold forClauses
  refine reads_bind (reads_take hc) fun _ c₁ hc₁ _ _ => ?_
  refine reads_bind (reads_symbol hc₁) fun _ c₂ hc₂ _ _ => ?_
  refine reads_bind (hinitializer hc₂) fun initializer c₃ hc₃ _ _ => ?_
  refine reads_bind (reads_clauseUpTo hg hc₃) fun condition c₄ hc₄ _ _ => ?_
  refine reads_bind (reads_symbol hc₄) fun _ c₅ hc₅ _ _ => ?_
  refine reads_bind (reads_clauseUpTo hg hc₅) fun increment c₆ hc₆ _ _ => ?_
  refine reads_bind (reads_symbol hc₆) fun _ c₇ hc₇ _ _ => ?_
  refine reads_bind (hg .statement c₇ hc₇) fun body c₈ hc₈ _ hbody => ?_
  exact reads_pure hc₈ hbody.2

/-- What parses as a `for` statement is the tree of its clauses, and the body declares nothing. -/
theorem forLoop_of_statement (hg : Faithful g) {c c' : Cursor} (hc : c.Honest)
    (hfor : c.kind = .keyword .for) {s : Stmt} (h : statement g fuel c = .ok s c') :
    ∃ loop : ForLoop, forClauses g fuel c = .ok loop c' ∧ s = loop.tree ∧
      loop.body.declares = [] := by
  unfold statement at h
  rw [hfor] at h
  dsimp only at h
  rw [forStatement_eq, map_eq_match] at h
  have hread : Reads (forClauses g fuel) c _ := reads_forClauses hg hc
  cases hclauses : forClauses g fuel c with
  | error stop c₁ =>
    rw [hclauses] at h
    cases h
  | ok loop c₁ =>
    rw [hclauses] at h
    cases h
    exact ⟨loop, rfl, rfl, (hread.of_ok hclauses).2.2⟩

end Grammar

end ScriptLang
