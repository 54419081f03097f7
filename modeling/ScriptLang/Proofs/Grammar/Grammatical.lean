import Mathlib.Data.Nat.Basic
import Mathlib.Order.Lattice
import ScriptLang.Grammar.Expression
import ScriptLang.Proofs.Grammar.Words
import ScriptLang.Proofs.Program.WellFormed

/-!
# Grammatical trees

Which trees the grammar has a text for. Every expression is at a `Level`, from the comma, which
binds loosest, to the expressions that start and end with tokens of their own. An operand has to
be at the level that its place asks for: to the left of an operator at the level of the
operator or a tighter one, to the right at a tighter one, except that assignments and
conditionals group to the right.

A choice without an `else` may not stand where an `else` would follow it (`Stmt.endsOpen`), and
a branch or the body of a loop may not be a declaration.
-/

namespace ScriptLang

/-! ## Levels -/

/-- The levels of expressions, the loosest first. -/
inductive Level
  | comma | assignment | conditional | disjunction | conjunction | equality | comparison
  | sum | product | unary | call | primary
  deriving DecidableEq

namespace Level

/-- The number of levels that are looser. -/
def depth : Level → Nat
  | comma => 0
  | assignment => 1
  | conditional => 2
  | disjunction => 3
  | conjunction => 4
  | equality => 5
  | comparison => 6
  | sum => 7
  | product => 8
  | unary => 9
  | call => 10
  | primary => 11

theorem depth_injective : Function.Injective depth := by
  intro a b h
  cases a <;> cases b <;> first | rfl | cases h

instance : LinearOrder Level := LinearOrder.lift' depth depth_injective

/-- What is tighter than a level is at the next level or a tighter one. -/
theorem lt_iff_le {a b l : Level} (h : b.depth = a.depth + 1) : a < l ↔ b ≤ l := by
  change a.depth < l.depth ↔ b.depth ≤ l.depth
  omega

theorem comma_le (l : Level) : comma ≤ l := Nat.zero_le _

theorem le_primary (l : Level) : l ≤ primary := by
  cases l <;> decide

end Level

/-- The level of an operator that always evaluates both operands. -/
def BinaryOp.level : BinaryOp → Level
  | multiply | divide => .product
  | add | subtract => .sum
  | greater | greaterEqual | less | lessEqual => .comparison
  | equal | notEqual => .equality

/-- The level of a logical operator. -/
def LogicalOp.level : LogicalOp → Level
  | and => .conjunction
  | or => .disjunction

theorem BinaryOp.level_lt_unary (op : BinaryOp) : op.level < .unary := by
  cases op <;> decide

theorem LogicalOp.level_lt_unary (op : LogicalOp) : op.level < .unary := by
  cases op <;> decide

/-- The level of an expression. -/
def Expr.level : Expr → Level
  | .comma _ _ => .comma
  | .assign _ _ | .set _ _ _ => .assignment
  | .conditional _ _ _ => .conditional
  | .logical op _ _ _ => op.level
  | .binary op _ _ _ => op.level
  | .unary _ _ _ => .unary
  | .call _ _ _ | .get _ _ => .call
  | .literal _ | .variable _ | .grouping _ | .this _ | .super _ _ | .function _ => .primary

/-! ## Statements -/

/-- Whether the statement is a declaration. -/
def Stmt.isDeclaration : Stmt → Bool
  | .vars _ | .function _ _ | .class _ _ _ => true
  | _ => false

/-- Whether an `else` behind the statement would belong to a choice in it. -/
def Stmt.endsOpen : Stmt → Bool
  | .ifElse _ _ none => true
  | .ifElse _ _ (some whenFalse) => whenFalse.endsOpen
  | .whileLoop _ body => body.endsOpen
  | _ => false

/-! ## Grammatical trees -/

/-- Names that are no keywords, and no more of them than a routine may have. -/
def Grammar.Parameters (params : List Lexeme) : Prop :=
  params.length ≤ Grammar.maxListed ∧ ∀ p ∈ params, IsFree p.text

mutual

/-- The expression can be written down. -/
def Expr.Grammatical : Expr → Prop
  | .literal _ => True
  | .variable ref => IsFree ref.word.text
  | .assign ref value =>
    IsFree ref.word.text ∧ Level.assignment ≤ value.level ∧ value.Grammatical
  | .unary _ _ operand => Level.unary ≤ operand.level ∧ operand.Grammatical
  | .binary op _ left right =>
    (op.level ≤ left.level ∧ left.Grammatical) ∧ op.level < right.level ∧ right.Grammatical
  | .logical op _ left right =>
    (op.level ≤ left.level ∧ left.Grammatical) ∧ op.level < right.level ∧ right.Grammatical
  | .comma left right =>
    left.Grammatical ∧ Level.comma < right.level ∧ right.Grammatical
  | .conditional condition whenTrue whenFalse =>
    (Level.conditional < condition.level ∧ condition.Grammatical) ∧ whenTrue.Grammatical ∧
      Level.conditional ≤ whenFalse.level ∧ whenFalse.Grammatical
  | .grouping inner => inner.Grammatical
  | .call callee arguments _ =>
    (Level.call ≤ callee.level ∧ callee.Grammatical) ∧
      arguments.length ≤ Grammar.maxListed ∧ Expr.AllGrammatical arguments
  | .get object property =>
    (Level.call ≤ object.level ∧ object.Grammatical) ∧ IsFree property.text
  | .set object property value =>
    (Level.call ≤ object.level ∧ object.Grammatical) ∧ IsFree property.text ∧
      Level.assignment ≤ value.level ∧ value.Grammatical
  | .this _ => True
  | .super _ method => IsFree method.text
  | .function ⟨params, body⟩ => Grammar.Parameters params ∧ Stmt.AllGrammatical body

/-- Every expression can be written down as one of several, with commas between them. -/
def Expr.AllGrammatical : List Expr → Prop
  | [] => True
  | e :: es => (Level.assignment ≤ e.level ∧ e.Grammatical) ∧ Expr.AllGrammatical es

/-- The statement can be written down. -/
def Stmt.Grammatical : Stmt → Prop
  | .expression e => e.Grammatical
  | .print e => e.Grammatical
  | .vars ds =>
    ds ≠ [] ∧ (ds.map (·.name.text)).Nodup ∧ Declarator.AllGrammatical ds
  | .block body => Stmt.AllGrammatical body
  | .ifElse condition whenTrue none =>
    condition.Grammatical ∧ whenTrue.Grammatical ∧ whenTrue.isDeclaration = false
  | .ifElse condition whenTrue (some whenFalse) =>
    condition.Grammatical ∧
      (whenTrue.Grammatical ∧ whenTrue.isDeclaration = false ∧ whenTrue.endsOpen = false) ∧
      whenFalse.Grammatical ∧ whenFalse.isDeclaration = false
  | .whileLoop condition body =>
    condition.Grammatical ∧ body.Grammatical ∧ body.isDeclaration = false
  | .breakLoop _ => True
  | .returnFrom _ none => True
  | .returnFrom _ (some e) => e.Grammatical
  | .function name ⟨params, body⟩ =>
    IsFree name.text ∧ Grammar.Parameters params ∧ Stmt.AllGrammatical body
  | .class name superclass members =>
    IsFree name.text ∧ (∀ ref ∈ superclass, IsFree ref.word.text) ∧
      Method.AllGrammatical members

/-- Every statement can be written down. -/
def Stmt.AllGrammatical : List Stmt → Prop
  | [] => True
  | s :: rest => s.Grammatical ∧ Stmt.AllGrammatical rest

/-- Every declared variable can be written down. -/
def Declarator.AllGrammatical : List Declarator → Prop
  | [] => True
  | ⟨name, none⟩ :: rest => IsFree name.text ∧ Declarator.AllGrammatical rest
  | ⟨name, some e⟩ :: rest =>
    IsFree name.text ∧ (Level.assignment ≤ e.level ∧ e.Grammatical) ∧
      Declarator.AllGrammatical rest

/-- Every method can be written down. -/
def Method.AllGrammatical : List Method → Prop
  | [] => True
  | ⟨name, ⟨params, body⟩⟩ :: rest =>
    (IsFree name.text ∧ Grammar.Parameters params ∧ Stmt.AllGrammatical body) ∧
      Method.AllGrammatical rest

end

/-- The routine can be written down. -/
def Routine.Grammatical (r : Routine) : Prop :=
  Grammar.Parameters r.params ∧ Stmt.AllGrammatical r.body

/-- The program can be written down. -/
def Program.Grammatical (p : Program) : Prop :=
  Stmt.AllGrammatical p.statements ∧ ∀ e ∈ p.trailing, e.Grammatical

/-! ## Lists -/

theorem Expr.allGrammatical_iff {es : List Expr} :
    Expr.AllGrammatical es ↔ ∀ e ∈ es, Level.assignment ≤ e.level ∧ e.Grammatical := by
  induction es with
  | nil => simp [Expr.AllGrammatical]
  | cons e es ih => simp [Expr.AllGrammatical, ih]

theorem Stmt.allGrammatical_append {body body' : List Stmt} :
    Stmt.AllGrammatical (body ++ body') ↔
      Stmt.AllGrammatical body ∧ Stmt.AllGrammatical body' := by
  induction body with
  | nil => simp [Stmt.AllGrammatical]
  | cons s body ih => simp [Stmt.AllGrammatical, ih, and_assoc]

theorem Declarator.allGrammatical_append {ds ds' : List Declarator} :
    Declarator.AllGrammatical (ds ++ ds') ↔
      Declarator.AllGrammatical ds ∧ Declarator.AllGrammatical ds' := by
  induction ds with
  | nil => simp [Declarator.AllGrammatical]
  | cons d ds ih =>
    obtain ⟨name, initializer⟩ := d
    cases initializer <;> simp [Declarator.AllGrammatical, ih, and_assoc]

theorem Method.allGrammatical_append {members members' : List Method} :
    Method.AllGrammatical (members ++ members') ↔
      Method.AllGrammatical members ∧ Method.AllGrammatical members' := by
  induction members with
  | nil => simp [Method.AllGrammatical]
  | cons first members ih =>
    obtain ⟨name, params, body⟩ := first
    simp [Method.AllGrammatical, ih, and_assoc]

/-! ## Operators -/

/-- The level of a rank of operators. -/
def Grammar.Rank.level : Grammar.Rank → Level
  | product => .product
  | sum => .sum
  | comparison => .comparison
  | equality => .equality
  | conjunction => .conjunction
  | disjunction => .disjunction

/-- A rank joins two operands by an operator of its level, at the word of that operator. -/
theorem Grammar.Rank.join_eq_some {rank : Grammar.Rank} {kind : Kind}
    {node : Lexeme → Expr → Expr → Expr} (h : rank.join kind = some node) :
    (∃ op : BinaryOp, op.level = rank.level ∧ kind = .symbol op.symbol ∧ node = .binary op) ∨
      ∃ op : LogicalOp, op.level = rank.level ∧ kind = .keyword op.keyword ∧
        node = .logical op := by
  unfold Grammar.Rank.join at h
  split at h <;> cases h
  · exact .inl ⟨.divide, rfl, rfl, rfl⟩
  · exact .inl ⟨.multiply, rfl, rfl, rfl⟩
  · exact .inl ⟨.subtract, rfl, rfl, rfl⟩
  · exact .inl ⟨.add, rfl, rfl, rfl⟩
  · exact .inl ⟨.greater, rfl, rfl, rfl⟩
  · exact .inl ⟨.greaterEqual, rfl, rfl, rfl⟩
  · exact .inl ⟨.less, rfl, rfl, rfl⟩
  · exact .inl ⟨.lessEqual, rfl, rfl, rfl⟩
  · exact .inl ⟨.notEqual, rfl, rfl, rfl⟩
  · exact .inl ⟨.equal, rfl, rfl, rfl⟩
  · exact .inr ⟨.and, rfl, rfl, rfl⟩
  · exact .inr ⟨.or, rfl, rfl, rfl⟩

theorem Grammar.Rank.join_binary {rank : Grammar.Rank} {op : BinaryOp}
    (h : op.level = rank.level) : rank.join (.symbol op.symbol) = some (.binary op) := by
  cases op <;> cases rank <;> first | rfl | cases h

theorem Grammar.Rank.join_logical {rank : Grammar.Rank} {op : LogicalOp}
    (h : op.level = rank.level) : rank.join (.keyword op.keyword) = some (.logical op) := by
  cases op <;> cases rank <;> first | rfl | cases h

end ScriptLang
