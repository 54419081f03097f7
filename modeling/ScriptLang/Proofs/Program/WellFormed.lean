import ScriptLang.Proofs.Scoping.Walk

/-!
# Well-formed trees

Trees allow more than the grammar does. In a tree that was parsed, no variable, routine,
parameter or class is named by a keyword, the references for `this` and `super` have the
words of that spelling, and neither a branch of a choice nor the body of a loop is a
declaration.
-/

namespace ScriptLang

/-- A name that is no keyword, so that things can be named by it. -/
def IsFree (name : String) : Prop := Keyword.ofSpelling name.toList = none

instance (name : String) : Decidable (IsFree name) :=
  inferInstanceAs (Decidable (Keyword.ofSpelling name.toList = none))

theorem this_not_free : ¬ IsFree "this" := by decide

theorem super_not_free : ¬ IsFree "super" := by decide

mutual

/-- The expression is one that the grammar allows. -/
def Expr.WellFormed : Expr → Prop
  | .literal _ => True
  | .variable ref => IsFree ref.word.text
  | .assign ref value => IsFree ref.word.text ∧ value.WellFormed
  | .unary _ _ operand => operand.WellFormed
  | .binary _ _ left right => left.WellFormed ∧ right.WellFormed
  | .logical _ _ left right => left.WellFormed ∧ right.WellFormed
  | .comma left right => left.WellFormed ∧ right.WellFormed
  | .conditional condition whenTrue whenFalse =>
    condition.WellFormed ∧ whenTrue.WellFormed ∧ whenFalse.WellFormed
  | .grouping inner => inner.WellFormed
  | .call callee arguments _ => callee.WellFormed ∧ Expr.AllWellFormed arguments
  | .get object _ => object.WellFormed
  | .set object _ value => object.WellFormed ∧ value.WellFormed
  | .this ref => ref.word.text = "this"
  | .super ref _ => ref.word.text = "super"
  | .function ⟨params, body⟩ => (∀ p ∈ params, IsFree p.text) ∧ Stmt.AllWellFormed body

/-- Every expression is one that the grammar allows. -/
def Expr.AllWellFormed : List Expr → Prop
  | [] => True
  | e :: es => e.WellFormed ∧ Expr.AllWellFormed es

/-- The statement is one that the grammar allows. -/
def Stmt.WellFormed : Stmt → Prop
  | .expression e => e.WellFormed
  | .print e => e.WellFormed
  | .vars ds => Declarator.AllWellFormed ds
  | .block body => Stmt.AllWellFormed body
  | .ifElse condition whenTrue none =>
    condition.WellFormed ∧ whenTrue.WellFormed ∧ whenTrue.declares = []
  | .ifElse condition whenTrue (some whenFalse) =>
    condition.WellFormed ∧ (whenTrue.WellFormed ∧ whenTrue.declares = []) ∧
      whenFalse.WellFormed ∧ whenFalse.declares = []
  | .whileLoop condition body =>
    condition.WellFormed ∧ body.WellFormed ∧ body.declares = []
  | .breakLoop _ => True
  | .returnFrom _ none => True
  | .returnFrom _ (some e) => e.WellFormed
  | .function name ⟨params, body⟩ =>
    IsFree name.text ∧ (∀ p ∈ params, IsFree p.text) ∧ Stmt.AllWellFormed body
  | .class name superclass members =>
    IsFree name.text ∧ (∀ ref ∈ superclass, IsFree ref.word.text) ∧
      Method.AllWellFormed members

/-- Every statement is one that the grammar allows. -/
def Stmt.AllWellFormed : List Stmt → Prop
  | [] => True
  | s :: rest => s.WellFormed ∧ Stmt.AllWellFormed rest

/-- Every declared variable is one that the grammar allows. -/
def Declarator.AllWellFormed : List Declarator → Prop
  | [] => True
  | ⟨name, none⟩ :: rest => IsFree name.text ∧ Declarator.AllWellFormed rest
  | ⟨name, some e⟩ :: rest =>
    IsFree name.text ∧ e.WellFormed ∧ Declarator.AllWellFormed rest

/-- Every method is one that the grammar allows. -/
def Method.AllWellFormed : List Method → Prop
  | [] => True
  | ⟨_, ⟨params, body⟩⟩ :: rest =>
    ((∀ p ∈ params, IsFree p.text) ∧ Stmt.AllWellFormed body) ∧ Method.AllWellFormed rest

end

/-- The routine is one that the grammar allows. -/
def Routine.WellFormed (r : Routine) : Prop :=
  (∀ p ∈ r.params, IsFree p.text) ∧ Stmt.AllWellFormed r.body

/-- The phrase is one that the grammar allows. -/
def Scoping.Phrase.WellFormed : Scoping.Phrase → Prop
  | expression e => e.WellFormed
  | expressions es => Expr.AllWellFormed es
  | statement s => s.WellFormed
  | statements body => Stmt.AllWellFormed body
  | declarators ds => Declarator.AllWellFormed ds
  | methods members => Method.AllWellFormed members
  | routine r => r.WellFormed

theorem Stmt.allWellFormed_iff {body : List Stmt} :
    Stmt.AllWellFormed body ↔ ∀ s ∈ body, s.WellFormed := by
  induction body with
  | nil => simp [Stmt.AllWellFormed]
  | cons s rest ih => simp [Stmt.AllWellFormed, ih]

theorem Expr.allWellFormed_iff {es : List Expr} :
    Expr.AllWellFormed es ↔ ∀ e ∈ es, e.WellFormed := by
  induction es with
  | nil => simp [Expr.AllWellFormed]
  | cons e es ih => simp [Expr.AllWellFormed, ih]

/-! ## Declared names are free -/

theorem Declarator.free_of_allWellFormed {ds : List Declarator}
    (h : Declarator.AllWellFormed ds) : ∀ x ∈ ds.map (·.name.text), IsFree x := by
  induction ds with
  | nil => simp
  | cons d ds ih =>
    obtain ⟨name, initializer⟩ := d
    cases initializer with
    | none => simpa using ⟨h.1, by simpa using ih h.2⟩
    | some e => simpa using ⟨h.1, by simpa using ih h.2.2⟩

theorem Stmt.free_of_wellFormed {s : Stmt} (h : s.WellFormed) : ∀ x ∈ s.declares, IsFree x := by
  cases s with
  | vars ds =>
    rw [Stmt.declares]
    exact Declarator.free_of_allWellFormed h
  | ifElse condition whenTrue whenFalse =>
    cases whenFalse with
    | none =>
      rw [Stmt.declares, h.2.2]
      simp
    | some whenFalse =>
      rw [Stmt.declares, h.2.1.2, h.2.2.2]
      simp
  | whileLoop condition body =>
    rw [Stmt.declares, h.2.2]
    simp
  | function name routine =>
    obtain ⟨params, body⟩ := routine
    simpa [Stmt.declares] using h.1
  | «class» name superclass members => simpa [Stmt.declares] using h.1
  | expression e => simp [Stmt.declares]
  | print e => simp [Stmt.declares]
  | block body => simp [Stmt.declares]
  | breakLoop keyword => simp [Stmt.declares]
  | returnFrom keyword value => simp [Stmt.declares]

theorem Scoping.Phrase.free_of_wellFormed {t : Scoping.Phrase} (h : t.WellFormed) :
    ∀ x ∈ t.declares, IsFree x := by
  cases t with
  | statement s => exact Stmt.free_of_wellFormed h
  | statements body =>
    intro x hx
    obtain ⟨s, hs, hx⟩ := List.mem_flatMap.mp hx
    exact Stmt.free_of_wellFormed (Stmt.allWellFormed_iff.mp h s hs) x hx
  | declarators ds => exact Declarator.free_of_allWellFormed h
  | expression e => simp [declares]
  | expressions es => simp [declares]
  | methods members => simp [declares]
  | routine r => simp [declares]

end ScriptLang
