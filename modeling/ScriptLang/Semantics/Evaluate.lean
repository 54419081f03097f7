import ScriptLang.Semantics.Objects
import ScriptLang.Semantics.Operators

/-!
# Evaluation

What expressions and statements do on the machine. The walk over a tree is structural. Two
things can go on without end, calls and loops, and both are given `Limits`: what a call
does, and how many rounds a loop may have. `invoke` ties the knot: with more fuel calls may
nest deeper and loops turn longer, and running out of it is told apart from every error.
-/

namespace ScriptLang

/-- How a statement ends: it goes on with the next one, leaves a loop, or ends a call with a
value. -/
inductive Flow
  | normal
  | broken
  | returned (v : Value)

/-- The value of a call whose body ended in the given way. -/
def Flow.result : Flow → Value
  | returned v => v
  | normal | broken => .nil

namespace Eval

/-- What evaluation may use without end. -/
structure Limits where
  /-- How many rounds a loop may have. -/
  rounds : Nat
  /-- What a call does. -/
  invoke : Callable → List Value → Eval Value

/-- Repeat a body as long as a condition holds, for fewer than the given number of rounds. -/
def repeatWhile (condition : Eval Value) (body : Eval Flow) : Nat → Eval Flow
  | 0 => outOfFuel
  | rounds + 1 => do
    if (← condition).isTruthy then
      match ← body with
      | .normal => repeatWhile condition body rounds
      | .broken => pure .normal
      | .returned v => pure (.returned v)
    else
      pure .normal

/-- The result of an operator, or its fault blamed on the operator. -/
def ofOperator (sign : Lexeme) : Except RunFault Value → Eval Value
  | .ok v => pure v
  | .error fault => fail sign fault

mutual

/-- The value of an expression. -/
def expression (limits : Limits) : Expr → Eval Value
  | .literal value => pure value.value
  | .variable ref => readVariable ref
  | .assign ref value => do
    let v ← expression limits value
    assignVariable ref v
    pure v
  | .unary op sign operand => do
    let v ← expression limits operand
    ofOperator sign (op.apply v)
  | .binary op sign left right => do
    let v ← expression limits left
    let w ← expression limits right
    ofOperator sign (op.apply v w)
  | .logical op _ left right => do
    let v ← expression limits left
    if op.decides v then pure v else expression limits right
  | .comma left right => do
    let _ ← expression limits left
    expression limits right
  | .conditional condition whenTrue whenFalse => do
    let v ← expression limits condition
    if v.isTruthy then expression limits whenTrue else expression limits whenFalse
  | .grouping inner => expression limits inner
  | .call callee arguments closing => do
    let v ← expression limits callee
    let vs ← expressions limits arguments
    callValue limits.invoke v vs closing
  | .get object property => do
    let v ← expression limits object
    getOf v property
  | .set object property value => do
    let i ← instanceOf (← expression limits object) property
    let v ← expression limits value
    setField i property v
    pure v
  | .this ref => readVariable ref
  | .super ref method => superMethod ref method
  | .function routine => declaredFunction none routine

/-- The values of expressions, from left to right. -/
def expressions (limits : Limits) : List Expr → Eval (List Value)
  | [] => pure []
  | e :: es => do
    let v ← expression limits e
    let vs ← expressions limits es
    pure (v :: vs)

/-- Run a statement. -/
def statement (limits : Limits) : Stmt → Eval Flow
  | .expression e => do
    let _ ← expression limits e
    pure .normal
  | .print e => do
    let v ← expression limits e
    println v.display
    pure .normal
  | .vars ds => do
    declarators limits ds
    pure .normal
  | .block body => do
    let frame ← newFrame (← current)
    within frame (statements limits body)
  | .ifElse condition whenTrue none => do
    let v ← expression limits condition
    if v.isTruthy then statement limits whenTrue else pure .normal
  | .ifElse condition whenTrue (some whenFalse) => do
    let v ← expression limits condition
    if v.isTruthy then statement limits whenTrue else statement limits whenFalse
  | .whileLoop condition body =>
    repeatWhile (expression limits condition) (statement limits body) limits.rounds
  | .breakLoop _ => pure .broken
  | .returnFrom _ none => pure (.returned .nil)
  | .returnFrom _ (some e) => do
    let v ← expression limits e
    pure (.returned v)
  | .function name routine => do
    define name.text (← declaredFunction (some name.text) routine)
    pure .normal
  | .class name superclass methods => do
    declareClass name superclass methods
    pure .normal

/-- Run statements, up to one that does not go on with the next. -/
def statements (limits : Limits) : List Stmt → Eval Flow
  | [] => pure .normal
  | s :: rest => do
    match ← statement limits s with
    | .normal => statements limits rest
    | flow => pure flow

/-- Declare variables, each once its initial value is there. -/
def declarators (limits : Limits) : List Declarator → Eval Unit
  | [] => pure ()
  | ⟨name, none⟩ :: rest => do
    define name.text .nil
    declarators limits rest
  | ⟨name, some e⟩ :: rest => do
    let v ← expression limits e
    define name.text v
    declarators limits rest

end

/-- What calls do, nested less than `fuel` deep. -/
def invokeWith : Nat → Callable → List Value → Eval Value
  | 0, _, _ => outOfFuel
  | fuel + 1, c, arguments =>
    invoke (fun body => do return (← statements ⟨fuel, invokeWith fuel⟩ body).result) c
      arguments

/-- The limits that fuel allows. -/
def Limits.ofFuel (fuel : Nat) : Limits := ⟨fuel, invokeWith fuel⟩

/-- Run the statements of a program. A jump out of one of them goes nowhere. -/
def topLevel (limits : Limits) : List Stmt → Eval Unit
  | [] => pure ()
  | s :: rest => do
    let _ ← statement limits s
    topLevel limits rest

/-- Run a program from the global frame on. The result is the value of its trailing
expression. -/
def program (limits : Limits) (p : Program) : Eval (Option Value) := do
  modify fun m => { m with current := m.globals, depth := 0 }
  topLevel limits p.statements
  match p.trailing with
  | some e => some <$> expression limits e
  | none => pure none

end Eval

end ScriptLang
