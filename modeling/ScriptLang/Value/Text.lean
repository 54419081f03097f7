import ScriptLang.Decimal.Layout
import ScriptLang.Text.Quoted
import ScriptLang.Value.Basic

/-!
# Values as text

A value is shown in two ways: as a program prints it (`Value.display`) and as it is
described to a programmer (`Value.describe`), which also tells its kind.
-/

namespace ScriptLang

/-- A callable as it is printed. -/
def Callable.display : Callable → String
  | .function f =>
    match f.name with
    | some name => "<fn " ++ name ++ ">"
    | none => "<fn>"
  | .native _ => "<native fn>"
  | .class c => c.name

/-- A value as it is printed. -/
def Value.display : Value → String
  | .nil => "nil"
  | .bool b => toString b
  | .number x => Decimal.render Decimal.plain x
  | .text s => s
  | .callable c => c.display
  | .instance i => i.ofClass.name ++ " instance"

/-- A value as it is described. -/
def Value.describe : Value → String
  | .nil => "Nil"
  | .bool b => "Bool(" ++ toString b ++ ")"
  | .number x => "Number(" ++ Decimal.render Decimal.detailed x ++ ")"
  | .text s => "Str(" ++ Text.quoted s ++ ")"
  | .callable c => "Callable(" ++ c.display ++ ")"
  | .instance i => "Instance(" ++ (Value.instance i).display ++ ")"

end ScriptLang
