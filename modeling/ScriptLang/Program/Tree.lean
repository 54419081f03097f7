import ScriptLang.Token

/-!
# Programs as trees

Expressions, statements and declarations. A tree keeps the words that messages may have to
quote, and no other tokens. Four kinds of expression refer to something declared elsewhere:
reading a variable, assigning to one, `this` and `super`. These carry a `Ref`, whose number
tells them apart from every other reference of the same session.

A `for` loop has no node of its own: `Stmt.forLoop` writes it with blocks and a `while`
loop.
-/

namespace ScriptLang

/-! ## Operators and references -/

/-- Operators with one operand. -/
inductive UnaryOp
  | not | negate
  deriving DecidableEq

/-- Operators that always evaluate both operands. -/
inductive BinaryOp
  | add | subtract | multiply | divide
  | greater | greaterEqual | less | lessEqual
  | equal | notEqual
  deriving DecidableEq

/-- Operators that evaluate their right operand only if the left one does not decide. -/
inductive LogicalOp
  | and | or
  deriving DecidableEq

/-- A word that refers to something declared elsewhere. -/
structure Ref where
  id : Nat
  word : Lexeme
  deriving DecidableEq

/-! ## Trees -/

mutual

/-- Expressions. -/
inductive Expr
  | literal (value : Literal)
  | variable (ref : Ref)
  | assign (ref : Ref) (value : Expr)
  | unary (op : UnaryOp) (sign : Lexeme) (operand : Expr)
  | binary (op : BinaryOp) (sign : Lexeme) (left right : Expr)
  | logical (op : LogicalOp) (sign : Lexeme) (left right : Expr)
  | comma (left right : Expr)
  | conditional (condition whenTrue whenFalse : Expr)
  | grouping (inner : Expr)
  | call (callee : Expr) (arguments : List Expr) (closing : Lexeme)
  | get (object : Expr) (property : Lexeme)
  | set (object : Expr) (property : Lexeme) (value : Expr)
  | this (ref : Ref)
  | super (ref : Ref) (method : Lexeme)
  | function (routine : Routine)

/-- Statements. -/
inductive Stmt
  | expression (e : Expr)
  | print (e : Expr)
  | vars (declarators : List Declarator)
  | block (body : List Stmt)
  | ifElse (condition : Expr) (whenTrue : Stmt) (whenFalse : Option Stmt)
  | whileLoop (condition : Expr) (body : Stmt)
  | breakLoop (keyword : Lexeme)
  | returnFrom (keyword : Lexeme) (value : Option Expr)
  | function (name : Lexeme) (routine : Routine)
  | class (name : Lexeme) (superclass : Option Ref) (methods : List Method)

/-- What is run by a call: the parameters and the statements. -/
structure Routine where
  params : List Lexeme
  body : List Stmt

/-- A function declared in the body of a class. -/
structure Method where
  name : Lexeme
  routine : Routine

/-- One variable of a `var` declaration, and its initial value if it has one. -/
structure Declarator where
  name : Lexeme
  initializer : Option Expr

end

/-- What is parsed and run as a whole: statements, and at a prompt perhaps a last expression
whose value is shown. -/
structure Program where
  statements : List Stmt
  trailing : Option Expr := none

/-! ## Loops with clauses -/

/-- The tree of `for (initializer; condition; increment) body`. The initializer gets a block
of its own around the loop, the increment one around each round of the body, and a missing
condition always holds. -/
def Stmt.forLoop (initializer : Option Stmt) (condition increment : Option Expr)
    (body : Stmt) : Stmt :=
  let round := match increment with
    | some e => .block [body, .expression e]
    | none => body
  let loop := .whileLoop (condition.getD (.literal (.bool true))) round
  match initializer with
  | some s => .block [s, loop]
  | none => loop

end ScriptLang
