import ScriptLang.Decimal.Layout
import ScriptLang.Program.Tree

/-!
# Programs as text

The parenthesized form of a tree: the operator or kind of node comes first, then its parts,
all between parentheses and separated by single spaces. Of a function inside an expression
only the parameters are shown.
-/

namespace ScriptLang

/-- Texts separated by single spaces. -/
def spaced (parts : List String) : String := " ".intercalate parts

/-- A node: its head and its parts. -/
def node (head : String) (parts : List String) : String := "(" ++ spaced (head :: parts) ++ ")"

/-- A list of names. -/
def nameList (names : List Lexeme) : String := "(" ++ spaced (names.map (·.text)) ++ ")"

/-- A constant as it is shown. -/
def Literal.text : Literal → String
  | nil => "nil"
  | bool b => toString b
  | number x => Decimal.render Decimal.plain x
  | string s => s

mutual

/-- The text of an expression. -/
def Expr.text : Expr → String
  | .literal value => value.text
  | .variable ref => ref.word.text
  | .assign ref value => node "=" [ref.word.text, value.text]
  | .unary _ sign operand => node sign.text [operand.text]
  | .binary _ sign left right => node sign.text [left.text, right.text]
  | .logical _ sign left right => node sign.text [left.text, right.text]
  | .comma left right => node "," [left.text, right.text]
  | .conditional condition whenTrue whenFalse =>
    node "?:" [condition.text, whenTrue.text, whenFalse.text]
  | .grouping inner => node "group" [inner.text]
  | .call callee arguments _ => node "call" (callee.text :: Expr.texts arguments)
  | .get object property => node "get" [object.text, property.text]
  | .set object property value => node "set" [object.text, property.text, value.text]
  | .this _ => "this"
  | .super _ method => node "super" [method.text]
  | .function ⟨params, _⟩ => node "fun" [nameList params]

/-- The texts of several expressions. -/
def Expr.texts : List Expr → List String
  | [] => []
  | e :: es => e.text :: Expr.texts es

end

/-- The text of a declared variable. -/
def Declarator.text : Declarator → String
  | ⟨name, none⟩ => node name.text []
  | ⟨name, some e⟩ => node name.text [e.text]

mutual

/-- The text of a statement. -/
def Stmt.text : Stmt → String
  | .expression e => node "expr" [e.text]
  | .print e => node "print" [e.text]
  | .vars declarators => node "var" (declarators.map Declarator.text)
  | .block body => node "block" (Stmt.texts body)
  | .ifElse condition whenTrue none => node "if" [condition.text, whenTrue.text]
  | .ifElse condition whenTrue (some whenFalse) =>
    node "if" [condition.text, whenTrue.text, whenFalse.text]
  | .whileLoop condition body => node "while" [condition.text, body.text]
  | .breakLoop _ => node "break" []
  | .returnFrom _ none => node "return" []
  | .returnFrom _ (some e) => node "return" [e.text]
  | .function name ⟨params, body⟩ =>
    node "fun" (name.text :: nameList params :: Stmt.texts body)
  | .class name none methods => node "class" (name.text :: Method.texts methods)
  | .class name (some superclass) methods =>
    node "class" (name.text :: "<" :: superclass.word.text :: Method.texts methods)

/-- The texts of several statements. -/
def Stmt.texts : List Stmt → List String
  | [] => []
  | s :: rest => s.text :: Stmt.texts rest

/-- The texts of several methods. -/
def Method.texts : List Method → List String
  | [] => []
  | ⟨name, ⟨params, body⟩⟩ :: rest =>
    node "method" (name.text :: nameList params :: Stmt.texts body) :: Method.texts rest

end

end ScriptLang
