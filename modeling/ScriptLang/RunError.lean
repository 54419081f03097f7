import ScriptLang.Token

/-!
# Runtime errors

What can go wrong while a program runs. The first error ends the run; it carries the line
of the word it is blamed on.
-/

namespace ScriptLang

/-- Why a run cannot go on. -/
inductive RunFault
  | undefinedVariable (name : String)
  | undefinedProperty (name : String)
  | numberOperand
  | numberOperands
  | addOperands
  | notCallable
  | arity (callee : String) (expected got : Nat)
  | propertyOnNonInstance
  | fieldOnNonInstance
  | superclassNotClass
  | stackOverflow
  deriving DecidableEq

/-- The wording of a runtime fault. -/
def RunFault.message : RunFault → String
  | undefinedVariable name => "Undefined variable '" ++ name ++ "'."
  | undefinedProperty name => "Undefined property '" ++ name ++ "'."
  | numberOperand => "Operand must be a number."
  | numberOperands => "Operands must be numbers."
  | addOperands => "Operands must be two numbers or two strings."
  | notCallable => "Can only call functions and classes."
  | arity callee expected got =>
    callee ++ " expected " ++ toString expected ++ " arguments but got " ++ toString got ++ "."
  | propertyOnNonInstance => "Only instances have properties."
  | fieldOnNonInstance => "Only instances have fields."
  | superclassNotClass => "Superclass must be a class."
  | stackOverflow => "Stack overflow."

/-- A fault and the line it is blamed on. -/
structure RunError where
  line : Nat
  fault : RunFault
  deriving DecidableEq

/-- A runtime error as it is shown, on two lines. -/
def RunError.message (e : RunError) : String :=
  e.fault.message ++ "\n[line " ++ toString e.line ++ "]"

/-- A fault blamed on a word. -/
def RunError.at (word : Lexeme) (fault : RunFault) : RunError := ⟨word.line, fault⟩

end ScriptLang
