import ScriptLang.Token

/-!
# Diagnostics

Everything that can be wrong with a program before it runs. A fault is a cause, not a
text: lexical faults arise while the source is cut into tokens, grammatical ones while the
tokens are parsed, scoping ones while names are bound. A `Diagnostic` adds the line and the
spot on it, and `Diagnostic.text` is the wording for all of them.
-/

namespace ScriptLang

/-! ## Lexical faults -/

/-- What can be wrong with a stretch of source text. -/
inductive LexicalFault
  | unexpectedCharacter (c : Char)
  | unterminatedString
  | unterminatedComment
  | invalidNumber (text : String)
  deriving DecidableEq

/-- The wording of a lexical fault. -/
def LexicalFault.message : LexicalFault → String
  | unexpectedCharacter c => "Unexpected character '" ++ c.toString ++ "'."
  | unterminatedString => "Unterminated string."
  | unterminatedComment => "Unterminated block comment."
  | invalidNumber text => "Invalid number literal '" ++ text ++ "'."

/-! ## Grammatical faults -/

/-- The two kinds of routine that are declared with a name. -/
inductive RoutineKind
  | function | method
  deriving DecidableEq

/-- How a kind of routine is called in messages. -/
def RoutineKind.text : RoutineKind → String
  | function => "function"
  | method => "method"

/-- The places of the grammar where only an identifier may stand. -/
inductive NamePlace
  | «class» | superclass | routine (kind : RoutineKind) | parameter | variable
  | property | superclassMethod
  deriving DecidableEq

/-- The name that a place asks for. -/
def NamePlace.text : NamePlace → String
  | «class» => "class name"
  | superclass => "superclass name"
  | routine kind => kind.text ++ " name"
  | parameter => "parameter name"
  | «variable» => "variable name"
  | property => "property name after '.'"
  | superclassMethod => "superclass method name"

/-- The places of the grammar where only one symbol may stand. -/
inductive SymbolPlace
  | beforeClassBody | afterClassBody
  | afterRoutineName (kind : RoutineKind) | beforeRoutineBody (kind : RoutineKind)
  | afterParameters | afterVariables | afterBreak | afterFor | afterLoopCondition
  | afterForClauses | afterIf | afterIfCondition | afterPrinted | afterReturned | afterWhile
  | afterCondition | afterBlock | afterExpressionStatement | afterThenBranch
  | afterArguments | afterSuper | afterFun | afterGrouping
  deriving DecidableEq

/-- The symbol that belongs in a place. -/
def SymbolPlace.symbol : SymbolPlace → Symbol
  | beforeClassBody | beforeRoutineBody _ => .leftBrace
  | afterClassBody | afterBlock => .rightBrace
  | afterRoutineName _ | afterFor | afterIf | afterWhile | afterFun => .leftParen
  | afterParameters | afterForClauses | afterIfCondition | afterCondition | afterArguments
  | afterGrouping => .rightParen
  | afterVariables | afterBreak | afterLoopCondition | afterPrinted | afterReturned
  | afterExpressionStatement => .semicolon
  | afterThenBranch => .colon
  | afterSuper => .dot

/-- How a place is called in messages. -/
def SymbolPlace.text : SymbolPlace → String
  | beforeClassBody => "before class body"
  | afterClassBody => "after class body"
  | afterRoutineName kind => "after " ++ kind.text ++ " name"
  | beforeRoutineBody kind => "before " ++ kind.text ++ " body"
  | afterParameters => "after parameters"
  | afterVariables => "after variable declaration"
  | afterBreak => "after 'break'"
  | afterFor => "after 'for'"
  | afterLoopCondition => "after loop condition"
  | afterForClauses => "after for clauses"
  | afterIf => "after 'if'"
  | afterIfCondition => "after if condition"
  | afterPrinted => "after value"
  | afterReturned => "after return value"
  | afterWhile => "after 'while'"
  | afterCondition => "after condition"
  | afterBlock => "after block"
  | afterExpressionStatement | afterGrouping => "after expression"
  | afterThenBranch => "after then branch of conditional expression"
  | afterArguments => "after arguments"
  | afterSuper => "after 'super'"
  | afterFun => "after 'fun'"

/-- What can be wrong with a list of tokens. -/
inductive GrammarFault
  | missingName (place : NamePlace)
  | missingSymbol (place : SymbolPlace)
  | missingExpression
  | tooManyArguments
  | tooManyParameters
  | invalidAssignmentTarget
  | repeatedVariable
  deriving DecidableEq

/-- The wording of a grammatical fault. -/
def GrammarFault.message : GrammarFault → String
  | missingName place => "Expect " ++ place.text ++ "."
  | missingSymbol place =>
    "Expect '" ++ String.ofList place.symbol.spelling ++ "' " ++ place.text ++ "."
  | missingExpression => "Expect expression."
  | tooManyArguments => "Can't have more than 255 arguments."
  | tooManyParameters => "Can't have more than 255 parameters."
  | invalidAssignmentTarget => "Invalid assignment target."
  | repeatedVariable => "Reuse of same variable in declaration."

/-! ## Scoping faults -/

/-- What can be wrong with the names and jumps of a parsed program. -/
inductive ScopeFault
  | alreadyDeclared (name : String)
  | ownInitializer (name : String)
  | unusedLocal (name : String)
  | returnAtTopLevel
  | returnFromInitializer
  | breakOutsideLoop
  | thisOutsideClass
  | superOutsideClass
  | superWithoutSuperclass
  | inheritsFromItself
  deriving DecidableEq

/-- The wording of a scoping fault. -/
def ScopeFault.message : ScopeFault → String
  | alreadyDeclared name => "Already a variable named '" ++ name ++ "' in this scope."
  | ownInitializer name =>
    "Can't read local variable '" ++ name ++ "' in its own initializer."
  | unusedLocal name => "Local variable '" ++ name ++ "' is never used."
  | returnAtTopLevel => "Can't return from top-level code."
  | returnFromInitializer => "Can't return a value from an initializer."
  | breakOutsideLoop => "Can't use 'break' outside of a loop."
  | thisOutsideClass => "Can't use 'this' outside of a class."
  | superOutsideClass => "Can't use 'super' outside of a class."
  | superWithoutSuperclass => "Can't use 'super' in a class with no superclass."
  | inheritsFromItself => "A class can't inherit from itself."

/-! ## Diagnostics -/

/-- A reason not to run a program. -/
inductive Fault
  | lexical (fault : LexicalFault)
  | grammar (fault : GrammarFault)
  | scope (fault : ScopeFault)
  deriving DecidableEq

/-- The wording of a fault. -/
def Fault.message : Fault → String
  | lexical fault => fault.message
  | grammar fault => fault.message
  | scope fault => fault.message

/-- Where on its line a diagnostic points: nowhere in particular, past the last token, or
at a token with the given spelling. -/
inductive Spot
  | line
  | atEnd
  | at (text : String)
  deriving DecidableEq

/-- A spot between the word "Error" and the colon. -/
def Spot.text : Spot → String
  | line => ""
  | atEnd => " at end"
  | «at» text => " at '" ++ text ++ "'"

/-- A fault and where it was found. -/
structure Diagnostic where
  line : Nat
  spot : Spot
  fault : Fault
  deriving DecidableEq

namespace Diagnostic

/-- A diagnostic as it is shown. -/
def text (d : Diagnostic) : String :=
  "[line " ++ toString d.line ++ "] Error" ++ d.spot.text ++ ": " ++ d.fault.message

/-- A lexical fault points at its line only. -/
def lexical (line : Nat) (fault : LexicalFault) : Diagnostic := ⟨line, .line, .lexical fault⟩

/-- A grammatical fault points at a token, or past the end of the input. -/
def grammar (token : Token) (fault : GrammarFault) : Diagnostic :=
  ⟨token.line, if token.kind = .endOfInput then .atEnd else .at token.lexeme.text,
    .grammar fault⟩

/-- A scoping fault points at a word of the program. -/
def scope (word : Lexeme) (fault : ScopeFault) : Diagnostic :=
  ⟨word.line, .at word.text, .scope fault⟩

end Diagnostic

end ScriptLang
