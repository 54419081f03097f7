import ScriptLang.Grammar.Expression

/-!
# The grammar of statements

Statements, and the declarations that may stand wherever a statement list allows them. A
declaration is where faults are caught: it reports the fault and reads on to a place where
a statement may start (`resume`).
-/

namespace ScriptLang.Grammar

/-! ## Declarations of variables -/

/-- At least one variable, with commas between them. A name that the declaration has already
is reported, and its variable dropped. -/
def declaratorsFrom (g : Grammar) : Nat → List Declarator → Parser (List Declarator)
  | 0, _ => exhausted
  | fuel + 1, declarators => do
    let token ← peek
    let name ← identifier .variable
    let initializer ←
      if ← skip (.symbol .equal) then some <$> g .assignment else pure none
    let declarators ←
      if declarators.any (·.name.text = name.text) then do
        reportAt token .repeatedVariable
        pure declarators
      else pure (declarators ++ [⟨name, initializer⟩])
    if ← skip (.symbol .comma) then declaratorsFrom g fuel declarators
    else pure declarators

/-- A declaration of variables. -/
def varDeclaration (g : Grammar) (fuel : Nat) : Parser Stmt := do
  let _ ← take
  let declarators ← declaratorsFrom g fuel []
  let _ ← symbol .afterVariables
  pure (.vars declarators)

/-! ## Statements -/

/-- An expression whose value is dropped. -/
def expressionStatement (g : Grammar) (fuel : Nat) : Parser Stmt := do
  let e ← expression g fuel
  let _ ← symbol .afterExpressionStatement
  pure (.expression e)

/-- A statement that leaves a loop. -/
def breakStatement : Parser Stmt := do
  let keyword ← take
  let _ ← symbol .afterBreak
  pure (.breakLoop keyword.lexeme)

/-- An optional clause, which is missing where the symbol after it stands. -/
def clauseUpTo (g : Grammar) (s : Symbol) : Parser (Option Expr) := do
  if ← looksAt (.symbol s) then pure none else some <$> g .expression

/-- The first clause of a `for` statement, with its semicolon. -/
def forInitializer (g : Grammar) (fuel : Nat) : Parser (Option Stmt) := do
  if ← skip (.symbol .semicolon) then pure none
  else if ← looksAt (.keyword .var) then some <$> varDeclaration g fuel
  else some <$> expressionStatement g fuel

/-- A loop with clauses. -/
def forStatement (g : Grammar) (fuel : Nat) : Parser Stmt := do
  let _ ← take
  let _ ← symbol .afterFor
  let initializer ← forInitializer g fuel
  let condition ← clauseUpTo g .semicolon
  let _ ← symbol .afterLoopCondition
  let increment ← clauseUpTo g .rightParen
  let _ ← symbol .afterForClauses
  let body ← g .statement
  pure (.forLoop initializer condition increment body)

/-- A choice. An `else` belongs to the nearest `if` that has none yet. -/
def ifStatement (g : Grammar) : Parser Stmt := do
  let _ ← take
  let _ ← symbol .afterIf
  let condition ← g .expression
  let _ ← symbol .afterIfCondition
  let whenTrue ← g .statement
  let whenFalse ← if ← skip (.keyword .else) then some <$> g .statement else pure none
  pure (.ifElse condition whenTrue whenFalse)

/-- A statement that prints a value. -/
def printStatement (g : Grammar) : Parser Stmt := do
  let _ ← take
  let e ← g .expression
  let _ ← symbol .afterPrinted
  pure (.print e)

/-- A statement that ends a call. -/
def returnStatement (g : Grammar) : Parser Stmt := do
  let keyword ← take
  let value ← clauseUpTo g .semicolon
  let _ ← symbol .afterReturned
  pure (.returnFrom keyword.lexeme value)

/-- A loop with a condition. -/
def whileStatement (g : Grammar) : Parser Stmt := do
  let _ ← take
  let _ ← symbol .afterWhile
  let condition ← g .expression
  let _ ← symbol .afterCondition
  let body ← g .statement
  pure (.whileLoop condition body)

/-- Statements in braces. -/
def blockStatement (g : Grammar) (fuel : Nat) : Parser Stmt := do
  let _ ← take
  return .block (← block g fuel)

/-- A statement, told by its first token. -/
def statement (g : Grammar) (fuel : Nat) : Parser Stmt := fun c =>
  match c.kind with
  | .keyword .break => breakStatement c
  | .keyword .for => forStatement g fuel c
  | .keyword .if => ifStatement g c
  | .keyword .print => printStatement g c
  | .keyword .return => returnStatement g c
  | .keyword .while => whileStatement g c
  | .symbol .leftBrace => blockStatement g fuel c
  | _ => expressionStatement g fuel c

/-! ## Declarations of routines and classes -/

/-- A name, parameters and a body. -/
def namedRoutine (g : Grammar) (fuel : Nat) (kind : RoutineKind) : Parser Method := do
  let name ← identifier (.routine kind)
  let _ ← symbol (.afterRoutineName kind)
  return ⟨name, ← routine g fuel kind⟩

/-- The declaration of a function. -/
def functionDeclaration (g : Grammar) (fuel : Nat) : Parser Stmt := do
  let _ ← take
  let declared ← namedRoutine g fuel .function
  pure (.function declared.name declared.routine)

/-- Methods up to a closing brace or the end of the input. -/
def methodsFrom (g : Grammar) : Nat → List Method → Parser (List Method)
  | 0, _ => exhausted
  | fuel + 1, methods => do
    if (← looksAt (.symbol .rightBrace)) || (← looksAt .endOfInput) then
      pure methods.reverse
    else
      methodsFrom g fuel ((← namedRoutine g fuel .method) :: methods)

/-- The declaration of a class. -/
def classDeclaration (g : Grammar) (fuel : Nat) : Parser Stmt := do
  let _ ← take
  let name ← identifier .class
  let superclass ←
    if ← skip (.symbol .less) then pure (some (← fresh (← identifier .superclass)))
    else pure none
  let _ ← symbol .beforeClassBody
  let methods ← methodsFrom g fuel []
  let _ ← symbol .afterClassBody
  pure (.class name superclass methods)

/-! ## Declarations and recovery -/

/-- Whether a statement may start with a token of the given kind after a fault. The end of
the input counts as such a start. -/
def restarts : Kind → Bool
  | .keyword k =>
    match k with
    | .break | .class | .fun | .var | .for | .if | .while | .print | .return => true
    | _ => false
  | .endOfInput => true
  | _ => false

/-- What is left after the rest of a faulty declaration: all after the next semicolon or
end of input, or from the next token on that may start a statement. The token right at the
fault is never kept. -/
def resume : List Token → List Token
  | [] => []
  | token :: rest =>
    if token.kind = .endOfInput ∨ token.kind = .symbol .semicolon then rest
    else if restarts ((rest.head?.map (·.kind)).getD .endOfInput) then rest
    else resume rest

/-- A declaration or statement that stops for a fault, if it is faulty. -/
def strictDeclaration (g : Grammar) (fuel : Nat) : Parser Stmt := fun c =>
  match c.kind with
  | .keyword .class => classDeclaration g fuel c
  | .keyword .var => varDeclaration g fuel c
  | .keyword .fun =>
    if c.secondKind = .identifier then functionDeclaration g fuel c else statement g fuel c
  | _ => statement g fuel c

/-- A declaration or statement. A fault in it is reported and ends it. -/
def declaration (g : Grammar) (fuel : Nat) : Parser (Option Stmt) := fun c =>
  match strictDeclaration g fuel c with
  | .ok s c' => .ok (some s) c'
  | .error (.fault d) c' => .ok none { c'.report d with rest := resume c'.rest }
  | .error .exhausted c' => .error .exhausted c'

/-! ## The grammar -/

/-- The grammar, to a nesting depth of less than `fuel`. As every rule reads a token before
it goes through the grammar again, more fuel than there are tokens is never spent. -/
def grammar : Nat → (n : Nonterminal) → Cursor → EStateM.Result Stop Cursor n.Tree
  | 0, _, c => .error .exhausted c
  | fuel + 1, .expression, c => expression (grammar fuel) (fuel + 1) c
  | fuel + 1, .assignment, c => assignment (grammar fuel) (fuel + 1) c
  | fuel + 1, .conditional, c => conditional (grammar fuel) (fuel + 1) c
  | fuel + 1, .unary, c => unary (grammar fuel) (fuel + 1) c
  | fuel + 1, .statement, c => statement (grammar fuel) (fuel + 1) c
  | fuel + 1, .declaration, c => declaration (grammar fuel) (fuel + 1) c

end ScriptLang.Grammar
