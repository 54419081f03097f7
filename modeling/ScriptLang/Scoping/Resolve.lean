import ScriptLang.Scoping.Scope

/-!
# Binding the names of a program

One walk over a program, in the order in which it is written, binds its references and
finds its scoping faults: names declared twice or never used, initializers that read what
they initialize, and jumps, `this` and `super` where they mean nothing. `Program.resolve`
gives the bindings of a program without faults, or all faults by line.
-/

namespace ScriptLang

namespace Scoping

/-! ## Surroundings -/

/-- What a routine is called for. -/
inductive Role
  | function | method | initializer
  deriving DecidableEq

/-- What a method of the given name is called for. -/
def Role.ofMethod (name : String) : Role := if name = "init" then initializer else method

/-- Whether a class has a superclass. -/
inductive Descent
  | base | derived
  deriving DecidableEq

/-- What surrounds a place of a program: the innermost routine, the innermost class, and
whether a loop of that routine is around it. -/
structure Surroundings where
  role : Option Role := none
  descent : Option Descent := none
  inLoop : Bool := false

/-- The surroundings of a routine's own statements. -/
def Surroundings.within (around : Surroundings) (role : Role) : Surroundings :=
  { around with role := some role, inLoop := false }

/-! ## Jumps and references -/

namespace Resolution

/-- A `break` needs a loop. -/
def checkBreak (r : Resolution) (around : Surroundings) (keyword : Lexeme) : Resolution :=
  if around.inLoop then r else r.report keyword .breakOutsideLoop

/-- A `return` needs a routine, and in an initializer it may not have a value. -/
def checkReturn (r : Resolution) (around : Surroundings) (keyword : Lexeme)
    (hasValue : Bool) : Resolution :=
  match around.role with
  | none => r.report keyword .returnAtTopLevel
  | some .initializer => if hasValue then r.report keyword .returnFromInitializer else r
  | some _ => r

/-- `this` needs a class. -/
def referThis (r : Resolution) (around : Surroundings) (ref : Ref) : Resolution :=
  match around.descent with
  | none => r.report ref.word .thisOutsideClass
  | some _ => r.refer ref

/-- `super` needs a class with a superclass. -/
def referSuper (r : Resolution) (around : Surroundings) (ref : Ref) : Resolution :=
  let r := match around.descent with
    | none => r.report ref.word .superOutsideClass
    | some .base => r.report ref.word .superWithoutSuperclass
    | some .derived => r
  r.refer ref

/-- Declare parameters, which need no initializer. -/
def declareAll (r : Resolution) (words : List Lexeme) : Resolution :=
  words.foldl (fun r word => (r.declare word).define word) r

/-- Enter the scopes around the methods of a class: one with `super` if it has a superclass,
which is referred to first, and one with `this`. -/
def enterClass (r : Resolution) (name : Lexeme) (superclass : Option Ref) : Resolution :=
  let r := match superclass with
    | none => r
    | some ref =>
      let r := if ref.word.text = name.text then r.report ref.word .inheritsFromItself else r
      (r.read ref).enter (implicitly "super" name)
  r.enter (implicitly "this" name)

/-- Leave the scopes around the methods of a class. -/
def leaveClass (r : Resolution) (superclass : Option Ref) : Resolution :=
  if superclass.isSome then r.leave.leave else r.leave

end Resolution

/-! ## The walk -/

mutual

/-- Bind the references of an expression. -/
def expression (around : Surroundings) : Expr → Resolution → Resolution
  | .literal _, r => r
  | .variable ref, r => r.read ref
  | .assign ref value, r => (expression around value r).refer ref
  | .unary _ _ operand, r => expression around operand r
  | .binary _ _ left right, r => expression around right (expression around left r)
  | .logical _ _ left right, r => expression around right (expression around left r)
  | .comma left right, r => expression around right (expression around left r)
  | .conditional condition whenTrue whenFalse, r =>
    expression around whenFalse (expression around whenTrue (expression around condition r))
  | .grouping inner, r => expression around inner r
  | .call callee arguments _, r => expressions around arguments (expression around callee r)
  | .get object _, r => expression around object r
  | .set object _ value, r => expression around object (expression around value r)
  | .this ref, r => r.referThis around ref
  | .super ref _, r => r.referSuper around ref
  | .function routine, r => routineBody (around.within .function) routine r

/-- Bind the references of expressions, from left to right. -/
def expressions (around : Surroundings) : List Expr → Resolution → Resolution
  | [], r => r
  | e :: es, r => expressions around es (expression around e r)

/-- Bind the references of a statement. -/
def statement (around : Surroundings) : Stmt → Resolution → Resolution
  | .expression e, r => expression around e r
  | .print e, r => expression around e r
  | .vars ds, r => declarators around ds r
  | .block body, r => (statements around body r.enter).leave
  | .ifElse condition whenTrue none, r =>
    statement around whenTrue (expression around condition r)
  | .ifElse condition whenTrue (some whenFalse), r =>
    statement around whenFalse (statement around whenTrue (expression around condition r))
  | .whileLoop condition body, r =>
    statement { around with inLoop := true } body (expression around condition r)
  | .breakLoop keyword, r => r.checkBreak around keyword
  | .returnFrom keyword none, r => r.checkReturn around keyword false
  | .returnFrom keyword (some value), r =>
    expression around value (r.checkReturn around keyword true)
  | .function name routine, r =>
    routineBody (around.within .function) routine ((r.declare name).define name)
  | .class name superclass members, r =>
    let descent : Descent := if superclass.isSome then .derived else .base
    let r := ((r.declare name).define name).enterClass name superclass
    (methods { around with descent } members r).leaveClass superclass

/-- Bind the references of statements, in order. -/
def statements (around : Surroundings) : List Stmt → Resolution → Resolution
  | [], r => r
  | s :: rest, r => statements around rest (statement around s r)

/-- Bind the references of declared variables. Each is declared before its initializer and
defined after it. -/
def declarators (around : Surroundings) : List Declarator → Resolution → Resolution
  | [], r => r
  | ⟨name, none⟩ :: rest, r => declarators around rest ((r.declare name).define name)
  | ⟨name, some e⟩ :: rest, r =>
    declarators around rest ((expression around e (r.declare name)).define name)

/-- Bind the references of methods, in order. -/
def methods (around : Surroundings) : List Method → Resolution → Resolution
  | [], r => r
  | ⟨name, routine⟩ :: rest, r =>
    methods around rest (routineBody (around.within (.ofMethod name.text)) routine r)

/-- Bind the references of a routine. Its parameters and its own statements share a scope. -/
def routineBody (around : Surroundings) : Routine → Resolution → Resolution
  | ⟨params, body⟩, r => (statements around body (r.enter.declareAll params)).leave

end

/-- Bind the references of a program. -/
def program (p : Program) (r : Resolution) : Resolution :=
  let r := statements {} p.statements r
  match p.trailing with
  | some e => expression {} e r
  | none => r

end Scoping

/-- The bindings of a program that knows the given globals, or its scoping faults, by line
and otherwise in the order in which they were found. -/
def Program.resolve (p : Program) (globals : List String := []) :
    Except (List Diagnostic) Bindings :=
  let r := Scoping.program p (.start globals)
  if r.found = [] then .ok r.bindings else .error (sortByNumber Diagnostic.line r.found)

end ScriptLang
