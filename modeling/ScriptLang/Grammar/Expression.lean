import ScriptLang.Grammar.Cursor

/-!
# The grammar of expressions

From the loosest binding to the tightest: the comma, assignment, the conditional, the two
logical operators, equality, comparison, sums, products, the operators with one operand,
calls and properties, and what stands for itself. Assignment and the conditional group to
the right, the other operators with two operands to the left.

The grammar is recursive. Its rules are written over a `Grammar` that gives the meaning of
the nonterminals, and a rule goes through it only after it has read a token.
-/

namespace ScriptLang.Grammar

/-! ## Nonterminals -/

/-- The nonterminals through which the grammar is recursive. -/
inductive Nonterminal
  | expression | assignment | conditional | unary | statement | declaration
  deriving DecidableEq

/-- The trees that a nonterminal stands for. A declaration that was given up has none. -/
abbrev Nonterminal.Tree : Nonterminal → Type
  | expression | assignment | conditional | unary => Expr
  | statement => Stmt
  | declaration => Option Stmt

/-- A parser for each nonterminal. -/
abbrev Grammar := (n : Nonterminal) → Parser n.Tree

/-! ## Blocks and routines -/

/-- Declarations up to a closing brace or the end of the input. -/
def declarationsFrom (g : Grammar) : Nat → List Stmt → Parser (List Stmt)
  | 0, _ => exhausted
  | fuel + 1, statements => fun c =>
    if c.kind = .symbol .rightBrace ∨ c.atEnd then .ok statements.reverse c
    else
      match g .declaration c with
      | .ok statement c' => declarationsFrom g fuel (statement.toList ++ statements) c'
      | .error stop c' => .error stop c'

/-- The rest of a block, after its opening brace. -/
def block (g : Grammar) (fuel : Nat) : Parser (List Stmt) := do
  let statements ← declarationsFrom g fuel []
  let _ ← symbol .afterBlock
  pure statements

/-- Parameters and a body, after the opening parenthesis. -/
def routine (g : Grammar) (fuel : Nat) (kind : RoutineKind) : Parser Routine := do
  let (params, _) ← items .tooManyParameters .afterParameters (identifier .parameter) fuel
  let _ ← symbol (.beforeRoutineBody kind)
  let body ← block g fuel
  pure ⟨params, body⟩

/-! ## Operands -/

/-- An expression that starts with a token of its own. -/
def primary (g : Grammar) (fuel : Nat) : Parser Expr := fun c =>
  match c.kind with
  | .keyword .false => .ok (.literal (.bool false)) c.advance
  | .keyword .true => .ok (.literal (.bool true)) c.advance
  | .keyword .nil => .ok (.literal .nil) c.advance
  | .number | .string => .ok (.literal c.next.literal) c.advance
  | .identifier => (do return .variable (← fresh (← take).lexeme) : Parser Expr) c
  | .keyword .this => (do return .this (← fresh (← take).lexeme) : Parser Expr) c
  | .keyword .super =>
    (do
      let keyword ← take
      let _ ← symbol .afterSuper
      let method ← identifier .superclassMethod
      return .super (← fresh keyword.lexeme) method : Parser Expr) c
  | .keyword .fun =>
    (do
      let _ ← take
      let _ ← symbol .afterFun
      return .function (← routine g fuel .function) : Parser Expr) c
  | .symbol .leftParen =>
    (do
      let _ ← take
      let inner ← g .expression
      let _ ← symbol .afterGrouping
      return .grouping inner : Parser Expr) c
  | _ => failHere .missingExpression c

/-- Calls and property accesses that follow an expression. -/
def suffixesFrom (g : Grammar) : Nat → Expr → Parser Expr
  | 0, _ => exhausted
  | fuel + 1, e => do
    if ← skip (.symbol .leftParen) then
      let (arguments, closing) ←
        items .tooManyArguments .afterArguments (g .assignment) fuel
      suffixesFrom g fuel (.call e arguments closing.lexeme)
    else if ← skip (.symbol .dot) then
      let property ← identifier .property
      suffixesFrom g fuel (.get e property)
    else
      pure e

/-- An expression with its calls and property accesses. -/
def call (g : Grammar) (fuel : Nat) : Parser Expr := do
  suffixesFrom g fuel (← primary g fuel)

/-- The operator with one operand that a token stands for. -/
def unaryOp : Kind → Option UnaryOp
  | .symbol .bang => some .not
  | .symbol .minus => some .negate
  | _ => none

/-- An operator with one operand, or a call. -/
def unary (g : Grammar) (fuel : Nat) : Parser Expr := fun c =>
  match unaryOp c.kind with
  | some op =>
    match g .unary c.advance with
    | .ok operand c' => .ok (.unary op c.next.lexeme operand) c'
    | .error stop c' => .error stop c'
  | none => call g fuel c

/-! ## Operators with two operands -/

/-- The ranks of the operators that group to the left, the tightest first. -/
inductive Rank
  | product | sum | comparison | equality | conjunction | disjunction
  deriving DecidableEq

/-- How the operators of a rank join two operands. -/
def Rank.join : Rank → Kind → Option (Lexeme → Expr → Expr → Expr)
  | product, .symbol .slash => some (.binary .divide)
  | product, .symbol .star => some (.binary .multiply)
  | sum, .symbol .minus => some (.binary .subtract)
  | sum, .symbol .plus => some (.binary .add)
  | comparison, .symbol .greater => some (.binary .greater)
  | comparison, .symbol .greaterEqual => some (.binary .greaterEqual)
  | comparison, .symbol .less => some (.binary .less)
  | comparison, .symbol .lessEqual => some (.binary .lessEqual)
  | equality, .symbol .bangEqual => some (.binary .notEqual)
  | equality, .symbol .equalEqual => some (.binary .equal)
  | conjunction, .keyword .and => some (.logical .and)
  | disjunction, .keyword .or => some (.logical .or)
  | _, _ => none

/-- Products. -/
def product (g : Grammar) (fuel : Nat) : Parser Expr :=
  chain Rank.product.join (unary g fuel) fuel

/-- Sums. -/
def sum (g : Grammar) (fuel : Nat) : Parser Expr :=
  chain Rank.sum.join (product g fuel) fuel

/-- Comparisons. -/
def comparison (g : Grammar) (fuel : Nat) : Parser Expr :=
  chain Rank.comparison.join (sum g fuel) fuel

/-- Equalities. -/
def equality (g : Grammar) (fuel : Nat) : Parser Expr :=
  chain Rank.equality.join (comparison g fuel) fuel

/-- Conjunctions. -/
def conjunction (g : Grammar) (fuel : Nat) : Parser Expr :=
  chain Rank.conjunction.join (equality g fuel) fuel

/-- Disjunctions. -/
def disjunction (g : Grammar) (fuel : Nat) : Parser Expr :=
  chain Rank.disjunction.join (conjunction g fuel) fuel

/-- A conditional, or a disjunction. -/
def conditional (g : Grammar) (fuel : Nat) : Parser Expr := do
  let condition ← disjunction g fuel
  if ← skip (.symbol .question) then
    let whenTrue ← g .expression
    let _ ← symbol .afterThenBranch
    let whenFalse ← g .conditional
    pure (.conditional condition whenTrue whenFalse)
  else
    pure condition

/-- The assignment of a value to what an expression stands for, if that can be assigned to. -/
def assignTo? (target value : Expr) : Option Expr :=
  match target with
  | .variable ref => some (.assign ref value)
  | .get object property => some (.set object property value)
  | _ => none

/-- An assignment, or a conditional. A target that cannot be assigned to is reported once
the value has been read, and the value is dropped. -/
def assignment (g : Grammar) (fuel : Nat) : Parser Expr := do
  let target ← conditional g fuel
  if ← looksAt (.symbol .equal) then
    let equals ← take
    let value ← g .assignment
    match assignTo? target value with
    | some e => pure e
    | none =>
      reportAt equals .invalidAssignmentTarget
      pure target
  else
    pure target

/-- How the comma joins two expressions. -/
def commaJoin : Kind → Option (Lexeme → Expr → Expr → Expr)
  | .symbol .comma => some fun _ => .comma
  | _ => none

/-- Expressions with commas between them. -/
def expression (g : Grammar) (fuel : Nat) : Parser Expr :=
  chain commaJoin (assignment g fuel) fuel

end ScriptLang.Grammar
