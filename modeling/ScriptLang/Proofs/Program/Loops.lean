import ScriptLang.Proofs.Scoping.Places

/-!
# Loops in trees

Whether there is a loop anywhere in a tree, in the bodies of its functions and methods, too. A tree
without loops has none in any of its parts (`Visits.noLoop`).
-/

namespace ScriptLang

mutual

/-- There is a loop in the expression. -/
def Expr.hasLoop : Expr → Bool
  | .literal _ => false
  | .variable _ => false
  | .assign _ value => value.hasLoop
  | .unary _ _ operand => operand.hasLoop
  | .binary _ _ left right => left.hasLoop || right.hasLoop
  | .logical _ _ left right => left.hasLoop || right.hasLoop
  | .comma left right => left.hasLoop || right.hasLoop
  | .conditional condition whenTrue whenFalse =>
    condition.hasLoop || whenTrue.hasLoop || whenFalse.hasLoop
  | .grouping inner => inner.hasLoop
  | .call callee arguments _ => callee.hasLoop || Expr.anyLoop arguments
  | .get object _ => object.hasLoop
  | .set object _ value => object.hasLoop || value.hasLoop
  | .this _ => false
  | .super _ _ => false
  | .function ⟨_, body⟩ => Stmt.anyLoop body

/-- There is a loop in one of the expressions. -/
def Expr.anyLoop : List Expr → Bool
  | [] => false
  | e :: es => e.hasLoop || Expr.anyLoop es

/-- There is a loop in the statement, or it is one. -/
def Stmt.hasLoop : Stmt → Bool
  | .expression e => e.hasLoop
  | .print e => e.hasLoop
  | .vars ds => Declarator.anyLoop ds
  | .block body => Stmt.anyLoop body
  | .ifElse condition whenTrue none => condition.hasLoop || whenTrue.hasLoop
  | .ifElse condition whenTrue (some whenFalse) =>
    condition.hasLoop || whenTrue.hasLoop || whenFalse.hasLoop
  | .whileLoop _ _ => true
  | .breakLoop _ => false
  | .returnFrom _ none => false
  | .returnFrom _ (some e) => e.hasLoop
  | .function _ ⟨_, body⟩ => Stmt.anyLoop body
  | .class _ _ members => Method.anyLoop members

/-- There is a loop among the statements. -/
def Stmt.anyLoop : List Stmt → Bool
  | [] => false
  | s :: rest => s.hasLoop || Stmt.anyLoop rest

/-- There is a loop in one of the initial values. -/
def Declarator.anyLoop : List Declarator → Bool
  | [] => false
  | ⟨_, none⟩ :: rest => Declarator.anyLoop rest
  | ⟨_, some e⟩ :: rest => e.hasLoop || Declarator.anyLoop rest

/-- There is a loop in one of the methods. -/
def Method.anyLoop : List Method → Bool
  | [] => false
  | ⟨_, ⟨_, body⟩⟩ :: rest => Stmt.anyLoop body || Method.anyLoop rest

end

/-- There is a loop in the body. -/
def Routine.hasLoop (r : Routine) : Bool := Stmt.anyLoop r.body

/-- There is a loop in the program. -/
def Program.hasLoop (p : Program) : Bool :=
  Stmt.anyLoop p.statements || p.trailing.any Expr.hasLoop

namespace Scoping

/-- There is a loop in the phrase. -/
def Phrase.hasLoop : Phrase → Bool
  | expression e => e.hasLoop
  | expressions es => Expr.anyLoop es
  | statement s => s.hasLoop
  | statements body => Stmt.anyLoop body
  | declarators ds => Declarator.anyLoop ds
  | methods members => Method.anyLoop members
  | routine r => r.hasLoop

/-- What is inside a phrase without loops has none. -/
theorem Visits.noLoop {P P' : Place} (h : Visits P P') (hP : P.phrase.hasLoop = false) :
    P'.phrase.hasLoop = false := by
  cases h with
  | @choice _ _ _ _ _ whenFalse =>
    cases whenFalse <;> simp_all [Phrase.hasLoop, Stmt.hasLoop]
  | @chosen _ _ _ _ _ whenFalse =>
    cases whenFalse <;> simp_all [Phrase.hasLoop, Stmt.hasLoop]
  | @function _ _ _ routine =>
    obtain ⟨params, body⟩ := routine
    exact hP
  | @declaredFunction _ _ _ _ routine =>
    obtain ⟨params, body⟩ := routine
    exact hP
  | @method _ _ _ _ routine =>
    obtain ⟨params, body⟩ := routine
    exact (Bool.or_eq_false_iff.mp hP).1
  | @otherMethods _ _ _ _ routine =>
    obtain ⟨params, body⟩ := routine
    exact (Bool.or_eq_false_iff.mp hP).2
  | _ =>
    simp_all [Phrase.hasLoop, Expr.hasLoop, Expr.anyLoop, Stmt.hasLoop, Stmt.anyLoop,
      Declarator.anyLoop, Routine.hasLoop]

end Scoping

end ScriptLang
