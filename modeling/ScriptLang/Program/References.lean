import ScriptLang.Program.Tree

/-!
# References of a program

The places of a program that refer to something declared elsewhere, in the order in which
they are written, except that an assignment comes before the value assigned.
-/

namespace ScriptLang

/-- How a word refers to something. -/
inductive RefKind
  | assign | variable | this | super
  deriving DecidableEq

mutual

/-- The references of an expression. -/
def Expr.references : Expr → List (RefKind × Ref)
  | .literal _ => []
  | .variable ref => [(.variable, ref)]
  | .assign ref value => (.assign, ref) :: value.references
  | .unary _ _ operand => operand.references
  | .binary _ _ left right => left.references ++ right.references
  | .logical _ _ left right => left.references ++ right.references
  | .comma left right => left.references ++ right.references
  | .conditional condition whenTrue whenFalse =>
    condition.references ++ whenTrue.references ++ whenFalse.references
  | .grouping inner => inner.references
  | .call callee arguments _ => callee.references ++ Expr.listReferences arguments
  | .get object _ => object.references
  | .set object _ value => object.references ++ value.references
  | .this ref => [(.this, ref)]
  | .super ref _ => [(.super, ref)]
  | .function ⟨_, body⟩ => Stmt.listReferences body

/-- The references of several expressions. -/
def Expr.listReferences : List Expr → List (RefKind × Ref)
  | [] => []
  | e :: es => e.references ++ Expr.listReferences es

/-- The references of a statement. -/
def Stmt.references : Stmt → List (RefKind × Ref)
  | .expression e => e.references
  | .print e => e.references
  | .vars declarators => Declarator.listReferences declarators
  | .block body => Stmt.listReferences body
  | .ifElse condition whenTrue none => condition.references ++ whenTrue.references
  | .ifElse condition whenTrue (some whenFalse) =>
    condition.references ++ whenTrue.references ++ whenFalse.references
  | .whileLoop condition body => condition.references ++ body.references
  | .breakLoop _ => []
  | .returnFrom _ none => []
  | .returnFrom _ (some e) => e.references
  | .function _ ⟨_, body⟩ => Stmt.listReferences body
  | .class _ superclass methods =>
    (superclass.map (RefKind.variable, ·)).toList ++ Method.listReferences methods

/-- The references of several statements. -/
def Stmt.listReferences : List Stmt → List (RefKind × Ref)
  | [] => []
  | s :: rest => s.references ++ Stmt.listReferences rest

/-- The references of several declared variables. -/
def Declarator.listReferences : List Declarator → List (RefKind × Ref)
  | [] => []
  | ⟨_, none⟩ :: rest => Declarator.listReferences rest
  | ⟨_, some e⟩ :: rest => e.references ++ Declarator.listReferences rest

/-- The references of several methods. -/
def Method.listReferences : List Method → List (RefKind × Ref)
  | [] => []
  | ⟨_, ⟨_, body⟩⟩ :: rest => Stmt.listReferences body ++ Method.listReferences rest

end

/-- The references of a program. -/
def Program.references (p : Program) : List (RefKind × Ref) :=
  Stmt.listReferences p.statements ++ (p.trailing.map Expr.references).getD []

end ScriptLang
