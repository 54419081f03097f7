import ScriptLang.Diagnostic
import ScriptLang.Program.Tree

/-!
# The parser's position

A parser reads tokens from the front of a list. Its position, the `Cursor`, also holds the
number of the next reference and the diagnostics found so far. A parser can stop for a
fault, which a declaration catches, or because its fuel is spent, which nothing catches.
The position survives a stop.

Past the end of the list a parser sees the mark of the end of the input, as often as it
looks.
-/

namespace ScriptLang.Grammar

/-! ## Positions -/

/-- Where a parser stands. -/
structure Cursor where
  /-- The tokens that are still to be read. -/
  rest : List Token
  /-- The line on which a list without a mark of its end ends. -/
  lastLine : Nat
  /-- The number of the next reference. -/
  nextRef : Nat
  /-- The diagnostics found so far. -/
  found : List Diagnostic

namespace Cursor

/-- The start of a list of tokens. -/
def start (tokens : List Token) (nextRef : Nat) : Cursor :=
  ⟨tokens, (tokens.getLast?.map Token.line).getD 0, nextRef, []⟩

/-- The next token. -/
def next (c : Cursor) : Token := c.rest.headD (.endOfInput c.lastLine)

/-- The kind of the next token. -/
def kind (c : Cursor) : Kind := c.next.kind

/-- The kind of the token after the next. -/
def secondKind (c : Cursor) : Kind := (c.rest[1]?.map (·.kind)).getD .endOfInput

/-- Whether the input ends here. -/
def atEnd (c : Cursor) : Bool := c.kind = .endOfInput

/-- The position after the next token. -/
def advance (c : Cursor) : Cursor := { c with rest := c.rest.tail }

/-- The same position with one more diagnostic. -/
def report (c : Cursor) (d : Diagnostic) : Cursor := { c with found := c.found ++ [d] }

end Cursor

/-! ## Parsers -/

/-- Why a parser stops without a result. -/
inductive Stop
  | fault (d : Diagnostic)
  | exhausted

/-- Parsers with results in `α`. -/
abbrev Parser (α : Type) := EStateM Stop Cursor α

/-- Stop for want of fuel. -/
def exhausted {α : Type} : Parser α := throw .exhausted

/-- Stop for a fault at the next token. -/
def failHere {α : Type} (fault : GrammarFault) : Parser α := fun c =>
  .error (.fault (.grammar c.next fault)) c

/-- Report a fault at a token and go on. -/
def reportAt (token : Token) (fault : GrammarFault) : Parser Unit := fun c =>
  .ok () (c.report (.grammar token fault))

/-- Report a fault at the next token and go on. -/
def reportHere (fault : GrammarFault) : Parser Unit := fun c =>
  .ok () (c.report (.grammar c.next fault))

/-- The next token, which is read. -/
def take : Parser Token := fun c => .ok c.next c.advance

/-- The next token, which is not read. -/
def peek : Parser Token := fun c => .ok c.next c

/-- Whether the next token is of the given kind. It is not read. -/
def looksAt (kind : Kind) : Parser Bool := fun c => .ok (c.kind = kind) c

/-- Read the next token if it is of the given kind. -/
def skip (kind : Kind) : Parser Bool := fun c =>
  if c.kind = kind then .ok true c.advance else .ok false c

/-- Read the symbol that belongs in a place. -/
def symbol (place : SymbolPlace) : Parser Token := fun c =>
  if c.kind = .symbol place.symbol then .ok c.next c.advance
  else failHere (.missingSymbol place) c

/-- Read the identifier that belongs in a place. -/
def identifier (place : NamePlace) : Parser Lexeme := fun c =>
  if c.kind = .identifier then .ok c.next.lexeme c.advance
  else failHere (.missingName place) c

/-- A reference with a number of its own. -/
def fresh (word : Lexeme) : Parser Ref := fun c =>
  .ok ⟨c.nextRef, word⟩ { c with nextRef := c.nextRef + 1 }

/-! ## Lists -/

/-- Operands joined from the left: as long as the next token joins two operands, it and
the operand after it are added to what was read before. -/
def chainFrom (join : Kind → Option (Lexeme → Expr → Expr → Expr)) (operand : Parser Expr) :
    Nat → Expr → Parser Expr
  | 0, _ => exhausted
  | fuel + 1, left => fun c =>
    match join c.kind with
    | none => .ok left c
    | some node =>
      match operand c.advance with
      | .ok right c' => chainFrom join operand fuel (node c.next.lexeme left right) c'
      | .error stop c' => .error stop c'

/-- An operand, and those joined to it. -/
def chain (join : Kind → Option (Lexeme → Expr → Expr → Expr)) (operand : Parser Expr)
    (fuel : Nat) : Parser Expr := do
  chainFrom join operand fuel (← operand)

/-- The most arguments or parameters that a call or routine may have. -/
def maxListed : Nat := 255

/-- At least one item, with commas between them. Every item beyond the greatest number
allowed is reported and read all the same. -/
def itemsFrom {α : Type} (tooMany : GrammarFault) (item : Parser α) :
    Nat → List α → Parser (List α)
  | 0, _ => exhausted
  | fuel + 1, items => do
    if maxListed ≤ items.length then reportHere tooMany
    let next ← item
    if ← skip (.symbol .comma) then itemsFrom tooMany item fuel (items ++ [next])
    else pure (items ++ [next])

/-- Items between parentheses, after the opening one: the items and the closing token. -/
def items {α : Type} (tooMany : GrammarFault) (closing : SymbolPlace) (item : Parser α)
    (fuel : Nat) : Parser (List α × Token) := do
  let listed ←
    if ← looksAt (.symbol .rightParen) then pure []
    else itemsFrom tooMany item fuel []
  let close ← symbol closing
  pure (listed, close)

end ScriptLang.Grammar
