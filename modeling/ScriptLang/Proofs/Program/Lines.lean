import ScriptLang.Proofs.Scoping.Containment

/-!
# Lines of trees

A tree keeps the words that messages may have to quote or to blame, each with its line. `On P` says
that `P` holds of the lines of all words in a tree, those in the bodies of its functions and methods
included. It holds of all parts of the tree, too (`Visits.on`).
-/

namespace ScriptLang

section Trees

variable (P : Nat → Prop)

mutual

/-- `P` holds of the lines of the words in the expression. -/
def Expr.On : Expr → Prop
  | .literal _ => True
  | .variable ref => P ref.word.line
  | .assign ref value => P ref.word.line ∧ value.On
  | .unary _ sign operand => P sign.line ∧ operand.On
  | .binary _ sign left right => P sign.line ∧ left.On ∧ right.On
  | .logical _ sign left right => P sign.line ∧ left.On ∧ right.On
  | .comma left right => left.On ∧ right.On
  | .conditional condition whenTrue whenFalse => condition.On ∧ whenTrue.On ∧ whenFalse.On
  | .grouping inner => inner.On
  | .call callee arguments closing => callee.On ∧ Expr.AllOn arguments ∧ P closing.line
  | .get object property => object.On ∧ P property.line
  | .set object property value => object.On ∧ P property.line ∧ value.On
  | .this ref => P ref.word.line
  | .super ref method => P ref.word.line ∧ P method.line
  | .function ⟨params, body⟩ => (∀ word ∈ params, P word.line) ∧ Stmt.AllOn body

/-- `P` holds of the lines of the words in the expressions. -/
def Expr.AllOn : List Expr → Prop
  | [] => True
  | e :: es => e.On ∧ Expr.AllOn es

/-- `P` holds of the lines of the words in the statement. -/
def Stmt.On : Stmt → Prop
  | .expression e => e.On
  | .print e => e.On
  | .vars ds => Declarator.AllOn ds
  | .block body => Stmt.AllOn body
  | .ifElse condition whenTrue none => condition.On ∧ whenTrue.On
  | .ifElse condition whenTrue (some whenFalse) => condition.On ∧ whenTrue.On ∧ whenFalse.On
  | .whileLoop condition body => condition.On ∧ body.On
  | .breakLoop keyword => P keyword.line
  | .returnFrom keyword none => P keyword.line
  | .returnFrom keyword (some e) => P keyword.line ∧ e.On
  | .function name ⟨params, body⟩ =>
    P name.line ∧ (∀ word ∈ params, P word.line) ∧ Stmt.AllOn body
  | .class name superclass members =>
    P name.line ∧ (∀ ref ∈ superclass, P ref.word.line) ∧ Method.AllOn members

/-- `P` holds of the lines of the words in the statements. -/
def Stmt.AllOn : List Stmt → Prop
  | [] => True
  | s :: rest => s.On ∧ Stmt.AllOn rest

/-- `P` holds of the lines of the words in the declared variables. -/
def Declarator.AllOn : List Declarator → Prop
  | [] => True
  | ⟨name, none⟩ :: rest => P name.line ∧ Declarator.AllOn rest
  | ⟨name, some e⟩ :: rest => P name.line ∧ e.On ∧ Declarator.AllOn rest

/-- `P` holds of the lines of the words in the methods. -/
def Method.AllOn : List Method → Prop
  | [] => True
  | ⟨name, ⟨params, body⟩⟩ :: rest =>
    P name.line ∧ ((∀ word ∈ params, P word.line) ∧ Stmt.AllOn body) ∧ Method.AllOn rest

end

/-- `P` holds of the lines of the words in the routine. -/
def Routine.On (r : Routine) : Prop := (∀ word ∈ r.params, P word.line) ∧ Stmt.AllOn P r.body

/-- `P` holds of the lines of the words in the program. -/
structure Program.On (p : Program) : Prop where
  statements : Stmt.AllOn P p.statements
  trailing : ∀ e ∈ p.trailing, e.On P

/-- `P` holds of the lines of the words in the phrase. -/
def Scoping.Phrase.On : Scoping.Phrase → Prop
  | expression e => e.On P
  | expressions es => Expr.AllOn P es
  | statement s => s.On P
  | statements body => Stmt.AllOn P body
  | declarators ds => Declarator.AllOn P ds
  | methods members => Method.AllOn P members
  | routine r => r.On P

end Trees

variable {P : Nat → Prop}

/-! ## Lists -/

theorem Expr.allOn_iff {es : List Expr} : Expr.AllOn P es ↔ ∀ e ∈ es, e.On P := by
  induction es with
  | nil => simp [Expr.AllOn]
  | cons e es ih => simp [Expr.AllOn, ih]

theorem Stmt.allOn_iff {body : List Stmt} : Stmt.AllOn P body ↔ ∀ s ∈ body, s.On P := by
  induction body with
  | nil => simp [Stmt.AllOn]
  | cons s rest ih => simp [Stmt.AllOn, ih]

theorem Declarator.allOn_iff {ds : List Declarator} : Declarator.AllOn P ds ↔
    ∀ d ∈ ds, P d.name.line ∧ ∀ e ∈ d.initializer, e.On P := by
  induction ds with
  | nil => simp [Declarator.AllOn]
  | cons d ds ih =>
    obtain ⟨name, initializer⟩ := d
    cases initializer <;> simp [Declarator.AllOn, ih, and_assoc]

theorem Method.allOn_iff {members : List Method} : Method.AllOn P members ↔
    ∀ m ∈ members, P m.name.line ∧ m.routine.On P := by
  induction members with
  | nil => simp [Method.AllOn]
  | cons m members ih =>
    obtain ⟨name, params, body⟩ := m
    simp [Method.AllOn, Routine.On, ih, and_assoc]

/-! ## Parts -/

/-- What holds of the lines of a phrase holds of those inside it. -/
theorem Scoping.Visits.on {Q Q' : Place} (h : Visits Q Q') (hQ : Q.phrase.On P) :
    Q'.phrase.On P := by
  cases h with
  | @choice _ _ _ _ _ whenFalse => cases whenFalse <;> simp_all [Phrase.On, Stmt.On]
  | @chosen _ _ _ _ _ whenFalse => cases whenFalse <;> simp_all [Phrase.On, Stmt.On]
  | @function _ _ _ routine =>
    obtain ⟨params, body⟩ := routine
    exact hQ
  | @declaredFunction _ _ _ _ routine =>
    obtain ⟨params, body⟩ := routine
    exact hQ.2
  | @method _ _ _ _ routine =>
    obtain ⟨params, body⟩ := routine
    exact hQ.2.1
  | @otherMethods _ _ _ _ routine =>
    obtain ⟨params, body⟩ := routine
    exact hQ.2.2
  | _ =>
    simp_all [Phrase.On, Expr.On, Expr.AllOn, Stmt.On, Stmt.AllOn, Declarator.AllOn, Routine.On]

/-- `P` holds of the lines of a loop with clauses if it holds of those of the clauses and of the
body. -/
theorem Stmt.on_forLoop {initializer : Option Stmt} {condition increment : Option Expr}
    {body : Stmt} (hinitializer : ∀ s ∈ initializer, s.On P) (hcondition : ∀ e ∈ condition, e.On P)
    (hincrement : ∀ e ∈ increment, e.On P) (hbody : body.On P) :
    (Stmt.forLoop initializer condition increment body).On P := by
  have hcondition : (condition.getD (.literal (.bool true))).On P := by
    cases condition with
    | none => exact trivial
    | some e => exact hcondition e rfl
  cases initializer with
  | none =>
    cases increment with
    | none => exact ⟨hcondition, hbody⟩
    | some e => exact ⟨hcondition, hbody, hincrement e rfl, trivial⟩
  | some s =>
    cases increment with
    | none => exact ⟨hinitializer s rfl, ⟨hcondition, hbody⟩, trivial⟩
    | some e => exact ⟨hinitializer s rfl, ⟨hcondition, hbody, hincrement e rfl, trivial⟩, trivial⟩

end ScriptLang
