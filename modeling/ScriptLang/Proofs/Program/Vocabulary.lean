import ScriptLang.Proofs.Grammar.Words
import ScriptLang.Proofs.Scoping.Containment

/-!
# Words of expressions

An expression is written with words whose kinds are known: the sign of an operator, the name of a
variable or property, the keyword of `this` or `super`, the parenthesis that closes a call. `Worded
P` says that `P` holds of each of these words at its kind, in all expressions of a tree. The
superclass of a class is such a word, too. It holds of all parts of the tree
(`Phrase.Contains.worded`).
-/

namespace ScriptLang

section Trees

variable (P : Kind → Lexeme → Prop)

mutual

/-- `P` holds of the words of the expression. -/
def Expr.Worded : Expr → Prop
  | .literal _ => True
  | .variable ref => P .identifier ref.word
  | .assign ref value => P .identifier ref.word ∧ value.Worded
  | .unary op sign operand => P (.symbol op.symbol) sign ∧ operand.Worded
  | .binary op sign left right => P (.symbol op.symbol) sign ∧ left.Worded ∧ right.Worded
  | .logical op sign left right => P (.keyword op.keyword) sign ∧ left.Worded ∧ right.Worded
  | .comma left right => left.Worded ∧ right.Worded
  | .conditional condition whenTrue whenFalse =>
    condition.Worded ∧ whenTrue.Worded ∧ whenFalse.Worded
  | .grouping inner => inner.Worded
  | .call callee arguments closing =>
    callee.Worded ∧ Expr.AllWorded arguments ∧ P (.symbol .rightParen) closing
  | .get object property => object.Worded ∧ P .identifier property
  | .set object property value => object.Worded ∧ P .identifier property ∧ value.Worded
  | .this ref => P (.keyword .this) ref.word
  | .super ref method => P (.keyword .super) ref.word ∧ P .identifier method
  | .function ⟨_, body⟩ => Stmt.AllWorded body

/-- `P` holds of the words of the expressions. -/
def Expr.AllWorded : List Expr → Prop
  | [] => True
  | e :: es => e.Worded ∧ Expr.AllWorded es

/-- `P` holds of the words of the expressions in the statement. -/
def Stmt.Worded : Stmt → Prop
  | .expression e => e.Worded
  | .print e => e.Worded
  | .vars ds => Declarator.AllWorded ds
  | .block body => Stmt.AllWorded body
  | .ifElse condition whenTrue none => condition.Worded ∧ whenTrue.Worded
  | .ifElse condition whenTrue (some whenFalse) =>
    condition.Worded ∧ whenTrue.Worded ∧ whenFalse.Worded
  | .whileLoop condition body => condition.Worded ∧ body.Worded
  | .breakLoop _ => True
  | .returnFrom _ none => True
  | .returnFrom _ (some e) => e.Worded
  | .function _ ⟨_, body⟩ => Stmt.AllWorded body
  | .class _ superclass members =>
    (∀ ref ∈ superclass, P .identifier ref.word) ∧ Method.AllWorded members

/-- `P` holds of the words of the expressions in the statements. -/
def Stmt.AllWorded : List Stmt → Prop
  | [] => True
  | s :: rest => s.Worded ∧ Stmt.AllWorded rest

/-- `P` holds of the words of the initial values. -/
def Declarator.AllWorded : List Declarator → Prop
  | [] => True
  | ⟨_, none⟩ :: rest => Declarator.AllWorded rest
  | ⟨_, some e⟩ :: rest => e.Worded ∧ Declarator.AllWorded rest

/-- `P` holds of the words of the expressions in the methods. -/
def Method.AllWorded : List Method → Prop
  | [] => True
  | ⟨_, ⟨_, body⟩⟩ :: rest => Stmt.AllWorded body ∧ Method.AllWorded rest

end

/-- `P` holds of the words of the expressions in the routine. -/
def Routine.Worded (r : Routine) : Prop := Stmt.AllWorded P r.body

/-- `P` holds of the words of the expressions in the program. -/
structure Program.Worded (p : Program) : Prop where
  statements : Stmt.AllWorded P p.statements
  trailing : ∀ e ∈ p.trailing, e.Worded P

/-- `P` holds of the words of the expressions in the phrase. -/
def Scoping.Phrase.Worded : Scoping.Phrase → Prop
  | expression e => e.Worded P
  | expressions es => Expr.AllWorded P es
  | statement s => s.Worded P
  | statements body => Stmt.AllWorded P body
  | declarators ds => Declarator.AllWorded P ds
  | methods members => Method.AllWorded P members
  | routine r => r.Worded P

end Trees

variable {P : Kind → Lexeme → Prop}

/-! ## Lists -/

theorem Expr.allWorded_iff {es : List Expr} : Expr.AllWorded P es ↔ ∀ e ∈ es, e.Worded P := by
  induction es with
  | nil => simp [Expr.AllWorded]
  | cons e es ih => simp [Expr.AllWorded, ih]

theorem Stmt.allWorded_iff {body : List Stmt} :
    Stmt.AllWorded P body ↔ ∀ s ∈ body, s.Worded P := by
  induction body with
  | nil => simp [Stmt.AllWorded]
  | cons s rest ih => simp [Stmt.AllWorded, ih]

theorem Declarator.allWorded_iff {ds : List Declarator} :
    Declarator.AllWorded P ds ↔ ∀ d ∈ ds, ∀ e ∈ d.initializer, e.Worded P := by
  induction ds with
  | nil => simp [Declarator.AllWorded]
  | cons d ds ih =>
    obtain ⟨name, initializer⟩ := d
    cases initializer <;> simp [Declarator.AllWorded, ih]

theorem Method.allWorded_iff {members : List Method} :
    Method.AllWorded P members ↔ ∀ m ∈ members, m.routine.Worded P := by
  induction members with
  | nil => simp [Method.AllWorded]
  | cons m members ih =>
    obtain ⟨name, params, body⟩ := m
    simp [Method.AllWorded, Routine.Worded, ih]

/-! ## Parts -/

namespace Scoping

/-- What holds of the words in a phrase holds of those inside it. -/
theorem Visits.worded {Q Q' : Place} (h : Visits Q Q') (hQ : Q.phrase.Worded P) :
    Q'.phrase.Worded P := by
  cases h with
  | @choice _ _ _ _ _ whenFalse =>
    cases whenFalse <;> simp_all [Phrase.Worded, Stmt.Worded]
  | @chosen _ _ _ _ _ whenFalse =>
    cases whenFalse <;> simp_all [Phrase.Worded, Stmt.Worded]
  | @function _ _ _ routine =>
    obtain ⟨params, body⟩ := routine
    exact hQ
  | @declaredFunction _ _ _ _ routine =>
    obtain ⟨params, body⟩ := routine
    exact hQ
  | @method _ _ _ _ routine =>
    obtain ⟨params, body⟩ := routine
    exact hQ.1
  | @otherMethods _ _ _ _ routine =>
    obtain ⟨params, body⟩ := routine
    exact hQ.2
  | _ =>
    simp_all [Phrase.Worded, Expr.Worded, Expr.AllWorded, Stmt.Worded, Stmt.AllWorded,
      Declarator.AllWorded, Routine.Worded]

theorem Phrase.Contains.worded {t t' : Phrase} (h : t.Contains t') (ht : t.Worded P) :
    t'.Worded P := by
  induction h with
  | refl => exact ht
  | tail _ hlast ih =>
    obtain ⟨a, S, r, a', S', r', hvisits⟩ := hlast
    exact hvisits.worded ih

end Scoping

/-- `P` holds of the words of a loop with clauses if it holds of those of the clauses and of the
body. -/
theorem Stmt.worded_forLoop {initializer : Option Stmt} {condition increment : Option Expr}
    {body : Stmt} (hinitializer : ∀ s ∈ initializer, s.Worded P)
    (hcondition : ∀ e ∈ condition, e.Worded P) (hincrement : ∀ e ∈ increment, e.Worded P)
    (hbody : body.Worded P) : (Stmt.forLoop initializer condition increment body).Worded P := by
  have hcondition : (condition.getD (.literal (.bool true))).Worded P := by
    cases condition with
    | none => exact trivial
    | some e => exact hcondition e rfl
  cases initializer with
  | none =>
    cases increment with
    | none => exact ⟨hcondition, hbody⟩
    | some e => exact ⟨hcondition, hbody, hincrement e rfl, trivial⟩
  | some s =>
    cases increment with
    | none => exact ⟨hinitializer s rfl, ⟨hcondition, hbody⟩, trivial⟩
    | some e => exact ⟨hinitializer s rfl, ⟨hcondition, hbody, hincrement e rfl, trivial⟩, trivial⟩

end ScriptLang
