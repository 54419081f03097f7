import ScriptLang.RunError
import ScriptLang.Value.Basic

/-!
# Operators

What operators make of values, and the faults they have with others.
-/

namespace ScriptLang

/-- The value of an operator with one operand. -/
def UnaryOp.apply : UnaryOp → Value → Except RunFault Value
  | not, v => .ok (.bool !v.isTruthy)
  | negate, .number x => .ok (.number (-x))
  | negate, _ => .error .numberOperand

/-- The value of an operator that is defined for numbers only. -/
def onNumbers (f : Float → Float → Value) : Value → Value → Except RunFault Value
  | .number x, .number y => .ok (f x y)
  | _, _ => .error .numberOperands

/-- Numbers are added, texts are joined. -/
def addValues : Value → Value → Except RunFault Value
  | .number x, .number y => .ok (.number (x + y))
  | .text s, .text t => .ok (.text (s ++ t))
  | _, _ => .error .addOperands

/-- The value of an operator with two operands. -/
def BinaryOp.apply : BinaryOp → Value → Value → Except RunFault Value
  | add => addValues
  | subtract => onNumbers fun x y => .number (x - y)
  | multiply => onNumbers fun x y => .number (x * y)
  | divide => onNumbers fun x y => .number (x / y)
  | greater => onNumbers fun x y => .bool (x > y)
  | greaterEqual => onNumbers fun x y => .bool (x ≥ y)
  | less => onNumbers fun x y => .bool (x < y)
  | lessEqual => onNumbers fun x y => .bool (x ≤ y)
  | equal => fun v w => .ok (.bool (v.equals w))
  | notEqual => fun v w => .ok (.bool !(v.equals w))

/-- Whether the left operand of a logical operator is its value. -/
def LogicalOp.decides : LogicalOp → Value → Bool
  | or, v => v.isTruthy
  | and, v => !v.isTruthy

end ScriptLang
