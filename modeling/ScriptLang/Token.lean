/-!
# Tokens

The words a program is written in: punctuation and operators (`Symbol`), reserved words
(`Keyword`), identifiers, string and number literals, and the mark of the end of the
input. A `Token` is such a word with its spelling, the constant it stands for, and the
line it ends on.

Both closed vocabularies are given by their spellings, and both can be read back from
them: `Symbol.ofSpelling_spelling` and `Keyword.ofSpelling_spelling`.
-/

namespace ScriptLang

/-! ## Symbols -/

/-- Punctuation and operators. -/
inductive Symbol
  | leftParen | rightParen | leftBrace | rightBrace
  | comma | dot | minus | plus | semicolon | slash | star | question | colon
  | bang | bangEqual | equal | equalEqual
  | greater | greaterEqual | less | lessEqual
  deriving DecidableEq

namespace Symbol

/-- How a symbol is written: one or two characters. -/
def spelling : Symbol → List Char
  | leftParen => ['('] | rightParen => [')'] | leftBrace => ['\x7b'] | rightBrace => ['\x7d']
  | comma => [','] | dot => ['.'] | minus => ['-'] | plus => ['+'] | semicolon => [';']
  | slash => ['/'] | star => ['*'] | question => ['?'] | colon => [':']
  | bang => ['!'] | bangEqual => ['!', '='] | equal => ['='] | equalEqual => ['=', '=']
  | greater => ['>'] | greaterEqual => ['>', '='] | less => ['<'] | lessEqual => ['<', '=']

/-- Every symbol, once. -/
def all : List Symbol :=
  [leftParen, rightParen, leftBrace, rightBrace, comma, dot, minus, plus, semicolon, slash,
    star, question, colon, bang, bangEqual, equal, equalEqual, greater, greaterEqual, less,
    lessEqual]

/-- The symbol written as `cs`. -/
def ofSpelling (cs : List Char) : Option Symbol := all.find? (·.spelling == cs)

theorem ofSpelling_spelling (s : Symbol) : ofSpelling s.spelling = some s := by
  cases s <;> decide

end Symbol

/-! ## Keywords -/

/-- The reserved words. -/
inductive Keyword
  | «and» | «break» | «class» | «else» | «false» | «fun» | «for» | «if» | «nil» | «or»
  | «print» | «return» | «super» | «this» | «true» | «var» | «while»
  deriving DecidableEq

namespace Keyword

/-- How a keyword is written. -/
def spelling : Keyword → List Char
  | .and => ['a', 'n', 'd'] | .break => ['b', 'r', 'e', 'a', 'k']
  | .class => ['c', 'l', 'a', 's', 's'] | .else => ['e', 'l', 's', 'e']
  | .false => ['f', 'a', 'l', 's', 'e'] | .fun => ['f', 'u', 'n'] | .for => ['f', 'o', 'r']
  | .if => ['i', 'f'] | .nil => ['n', 'i', 'l'] | .or => ['o', 'r']
  | .print => ['p', 'r', 'i', 'n', 't'] | .return => ['r', 'e', 't', 'u', 'r', 'n']
  | .super => ['s', 'u', 'p', 'e', 'r'] | .this => ['t', 'h', 'i', 's']
  | .true => ['t', 'r', 'u', 'e'] | .var => ['v', 'a', 'r']
  | .while => ['w', 'h', 'i', 'l', 'e']

/-- Every keyword, once. -/
def all : List Keyword :=
  [.and, .break, .class, .else, .false, .fun, .for, .if, .nil, .or, .print, .return, .super,
    .this, .true, .var, .while]

/-- The keyword written as `cs`. -/
def ofSpelling (cs : List Char) : Option Keyword := all.find? (·.spelling == cs)

theorem ofSpelling_spelling (k : Keyword) : ofSpelling k.spelling = some k := by
  cases k <;> decide

end Keyword

/-! ## Tokens -/

/-- The constants that can be written in a program. -/
inductive Literal
  | nil
  | bool (b : Bool)
  | number (x : Float)
  | string (s : String)
  deriving DecidableEq

/-- The kinds of token. -/
inductive Kind
  | symbol (s : Symbol)
  | keyword (k : Keyword)
  | identifier
  | string
  | number
  | endOfInput
  deriving DecidableEq

/-- A word as it was written, and the line it ends on. -/
structure Lexeme where
  text : String
  line : Nat
  deriving DecidableEq

/-- A token: its kind, its spelling and line, and the constant it stands for, which is
`nil` unless it is a string or a number. -/
structure Token where
  kind : Kind
  lexeme : Lexeme
  literal : Literal := .nil
  deriving DecidableEq

namespace Token

/-- The line a token ends on. -/
def line (t : Token) : Nat := t.lexeme.line

/-- The mark of the end of the input, which has no spelling of its own. -/
def endOfInput (line : Nat) : Token := ⟨.endOfInput, ⟨"", line⟩, .nil⟩

end Token

end ScriptLang
