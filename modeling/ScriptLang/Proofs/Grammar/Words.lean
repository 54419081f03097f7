import ScriptLang.Program.Tree

/-!
# Trees as words

The words of a source are its tokens without their lines: of a number or a string the constant
it stands for, of everything else the kind and the spelling (`Token.word`). A tree is written
back into words by the rule of the grammar for each of its nodes (`Program.words`). A word that
the tree keeps is written as it was, every other one as it is spelled.

A loop with clauses has no node of its own, so the words of its tree are those of the blocks and
the `while` loop that it stands for.
-/

namespace ScriptLang

/-! ## Words -/

/-- What a token says, wherever it stands. -/
inductive Word
  | symbol (s : Symbol) (text : String)
  | keyword (k : Keyword) (text : String)
  | identifier (text : String)
  | number (value : Literal)
  | string (value : Literal)
  | endOfInput
  deriving DecidableEq

namespace Word

/-- The kind of token that a word is. -/
def kind : Word → Kind
  | symbol s _ => .symbol s
  | keyword k _ => .keyword k
  | identifier _ => .identifier
  | number _ => .number
  | string _ => .string
  | endOfInput => .endOfInput

/-- A token with the given word, on a line that does not matter. -/
def token : Word → Token
  | symbol s text => ⟨.symbol s, ⟨text, 0⟩, .nil⟩
  | keyword k text => ⟨.keyword k, ⟨text, 0⟩, .nil⟩
  | identifier text => ⟨.identifier, ⟨text, 0⟩, .nil⟩
  | number value => ⟨.number, ⟨"", 0⟩, value⟩
  | string value => ⟨.string, ⟨"", 0⟩, value⟩
  | endOfInput => .endOfInput 0

end Word

/-- The word of a token. -/
def Token.word (t : Token) : Word :=
  match t.kind with
  | .symbol s => .symbol s t.lexeme.text
  | .keyword k => .keyword k t.lexeme.text
  | .identifier => .identifier t.lexeme.text
  | .number => .number t.literal
  | .string => .string t.literal
  | .endOfInput => .endOfInput

@[simp]
theorem Word.word_token (w : Word) : w.token.word = w := by
  cases w <;> rfl

@[simp]
theorem Token.kind_word (t : Token) : t.word.kind = t.kind := by
  unfold Token.word
  split <;> simp_all [Word.kind]

theorem Token.of_word_symbol {t : Token} {s : Symbol} {text : String}
    (h : t.word = .symbol s text) : t.kind = .symbol s ∧ t.lexeme.text = text := by
  unfold Token.word at h
  split at h <;> cases h
  exact ⟨by assumption, rfl⟩

theorem Token.of_word_keyword {t : Token} {k : Keyword} {text : String}
    (h : t.word = .keyword k text) : t.kind = .keyword k ∧ t.lexeme.text = text := by
  unfold Token.word at h
  split at h <;> cases h
  exact ⟨by assumption, rfl⟩

theorem Token.of_word_identifier {t : Token} {text : String}
    (h : t.word = .identifier text) : t.kind = .identifier ∧ t.lexeme.text = text := by
  unfold Token.word at h
  split at h <;> cases h
  exact ⟨by assumption, rfl⟩

/-- The word of a symbol. -/
def Symbol.word (s : Symbol) : Word := .symbol s (String.ofList s.spelling)

/-- The word of a keyword. -/
def Keyword.word (k : Keyword) : Word := .keyword k (String.ofList k.spelling)

@[simp]
theorem Symbol.kind_word (s : Symbol) : s.word.kind = .symbol s := rfl

@[simp]
theorem Keyword.kind_word (k : Keyword) : k.word.kind = .keyword k := rfl

/-! ## Operators and constants -/

/-- The symbol of an operator with one operand. -/
def UnaryOp.symbol : UnaryOp → Symbol
  | not => .bang
  | negate => .minus

/-- The symbol of an operator with two operands. -/
def BinaryOp.symbol : BinaryOp → Symbol
  | add => .plus
  | subtract => .minus
  | multiply => .star
  | divide => .slash
  | greater => .greater
  | greaterEqual => .greaterEqual
  | less => .less
  | lessEqual => .lessEqual
  | equal => .equalEqual
  | notEqual => .bangEqual

/-- The keyword of a logical operator. -/
def LogicalOp.keyword : LogicalOp → Keyword
  | and => .and
  | or => .or

/-- The word of a constant. -/
def Literal.word : Literal → Word
  | nil => Keyword.nil.word
  | bool true => Keyword.true.word
  | bool false => Keyword.false.word
  | number x => .number (.number x)
  | string s => .string (.string s)

/-! ## Lists -/

/-- Phrases with commas between them. -/
def commaSeparated : List (List Word) → List Word
  | [] => []
  | [phrase] => phrase
  | phrase :: phrases => phrase ++ Symbol.comma.word :: commaSeparated phrases

/-- Names with commas between them. -/
def nameWords (names : List Lexeme) : List Word :=
  commaSeparated (names.map fun name => [.identifier name.text])

theorem commaSeparated_cons_cons (phrase second : List Word) (phrases : List (List Word)) :
    commaSeparated (phrase :: second :: phrases) =
      phrase ++ Symbol.comma.word :: commaSeparated (second :: phrases) := rfl

/-- Every phrase but the last has a comma behind it. -/
theorem commaSeparated_concat (phrases : List (List Word)) (phrase : List Word) :
    commaSeparated (phrases ++ [phrase]) =
      phrases.flatMap (· ++ [Symbol.comma.word]) ++ phrase := by
  induction phrases with
  | nil => rfl
  | cons first rest ih =>
    have hrest : commaSeparated (first :: (rest ++ [phrase])) =
        first ++ Symbol.comma.word :: commaSeparated (rest ++ [phrase]) := by
      cases rest <;> rfl
    rw [List.cons_append, hrest, ih]
    simp

/-! ## Trees -/

mutual

/-- The words of an expression. -/
@[simp]
def Expr.words : Expr → List Word
  | .literal value => [value.word]
  | .variable ref => [.identifier ref.word.text]
  | .assign ref value => .identifier ref.word.text :: Symbol.equal.word :: value.words
  | .unary op sign operand => .symbol op.symbol sign.text :: operand.words
  | .binary op sign left right => left.words ++ .symbol op.symbol sign.text :: right.words
  | .logical op sign left right => left.words ++ .keyword op.keyword sign.text :: right.words
  | .comma left right => left.words ++ Symbol.comma.word :: right.words
  | .conditional condition whenTrue whenFalse =>
    condition.words ++ Symbol.question.word :: whenTrue.words ++
      Symbol.colon.word :: whenFalse.words
  | .grouping inner => Symbol.leftParen.word :: inner.words ++ [Symbol.rightParen.word]
  | .call callee arguments closing =>
    callee.words ++ Symbol.leftParen.word :: commaSeparated (Expr.phrases arguments) ++
      [.symbol .rightParen closing.text]
  | .get object property => object.words ++ [Symbol.dot.word, .identifier property.text]
  | .set object property value =>
    object.words ++ Symbol.dot.word :: .identifier property.text :: Symbol.equal.word ::
      value.words
  | .this ref => [.keyword .this ref.word.text]
  | .super ref method =>
    [.keyword .super ref.word.text, Symbol.dot.word, .identifier method.text]
  | .function ⟨params, body⟩ =>
    Keyword.fun.word :: Symbol.leftParen.word :: nameWords params ++
      Symbol.rightParen.word :: Symbol.leftBrace.word :: Stmt.listWords body ++
      [Symbol.rightBrace.word]

/-- The words of each of several expressions. -/
@[simp]
def Expr.phrases : List Expr → List (List Word)
  | [] => []
  | e :: es => e.words :: Expr.phrases es

/-- The words of a statement. -/
@[simp]
def Stmt.words : Stmt → List Word
  | .expression e => e.words ++ [Symbol.semicolon.word]
  | .print e => Keyword.print.word :: e.words ++ [Symbol.semicolon.word]
  | .vars ds =>
    Keyword.var.word :: commaSeparated (Declarator.phrases ds) ++ [Symbol.semicolon.word]
  | .block body => Symbol.leftBrace.word :: Stmt.listWords body ++ [Symbol.rightBrace.word]
  | .ifElse condition whenTrue none =>
    Keyword.if.word :: Symbol.leftParen.word :: condition.words ++
      Symbol.rightParen.word :: whenTrue.words
  | .ifElse condition whenTrue (some whenFalse) =>
    Keyword.if.word :: Symbol.leftParen.word :: condition.words ++
      Symbol.rightParen.word :: whenTrue.words ++ Keyword.else.word :: whenFalse.words
  | .whileLoop condition body =>
    Keyword.while.word :: Symbol.leftParen.word :: condition.words ++
      Symbol.rightParen.word :: body.words
  | .breakLoop keyword => [.keyword .break keyword.text, Symbol.semicolon.word]
  | .returnFrom keyword none => [.keyword .return keyword.text, Symbol.semicolon.word]
  | .returnFrom keyword (some e) =>
    .keyword .return keyword.text :: e.words ++ [Symbol.semicolon.word]
  | .function name ⟨params, body⟩ =>
    Keyword.fun.word :: .identifier name.text :: Symbol.leftParen.word :: nameWords params ++
      Symbol.rightParen.word :: Symbol.leftBrace.word :: Stmt.listWords body ++
      [Symbol.rightBrace.word]
  | .class name none members =>
    Keyword.class.word :: .identifier name.text :: Symbol.leftBrace.word ::
      Method.listWords members ++ [Symbol.rightBrace.word]
  | .class name (some superclass) members =>
    Keyword.class.word :: .identifier name.text :: Symbol.less.word ::
      .identifier superclass.word.text :: Symbol.leftBrace.word ::
      Method.listWords members ++ [Symbol.rightBrace.word]

/-- The words of several statements. -/
@[simp]
def Stmt.listWords : List Stmt → List Word
  | [] => []
  | s :: rest => s.words ++ Stmt.listWords rest

/-- The words of each of several declared variables. -/
@[simp]
def Declarator.phrases : List Declarator → List (List Word)
  | [] => []
  | ⟨name, none⟩ :: rest => [.identifier name.text] :: Declarator.phrases rest
  | ⟨name, some e⟩ :: rest =>
    (.identifier name.text :: Symbol.equal.word :: e.words) :: Declarator.phrases rest

/-- The words of several methods. -/
@[simp]
def Method.listWords : List Method → List Word
  | [] => []
  | ⟨name, ⟨params, body⟩⟩ :: rest =>
    .identifier name.text :: Symbol.leftParen.word :: nameWords params ++
      Symbol.rightParen.word :: Symbol.leftBrace.word :: Stmt.listWords body ++
      Symbol.rightBrace.word :: Method.listWords rest

end

/-- The words of a program: its statements, and then its trailing expression. -/
def Program.words (p : Program) : List Word :=
  Stmt.listWords p.statements ++ (p.trailing.map Expr.words).getD []

/-- The words of the parameters and the body of a routine. -/
def Routine.words (r : Routine) : List Word :=
  Symbol.leftParen.word :: nameWords r.params ++
    Symbol.rightParen.word :: Symbol.leftBrace.word :: Stmt.listWords r.body ++
    [Symbol.rightBrace.word]

/-! ## Words of lists -/

theorem Expr.phrases_eq_map (es : List Expr) : Expr.phrases es = es.map Expr.words := by
  induction es with
  | nil => rfl
  | cons e es ih => rw [Expr.phrases, ih, List.map_cons]

/-- The words of a declared variable. -/
def Declarator.phrase : Declarator → List Word
  | ⟨name, none⟩ => [.identifier name.text]
  | ⟨name, some e⟩ => .identifier name.text :: Symbol.equal.word :: e.words

theorem Declarator.phrases_eq_map (ds : List Declarator) :
    Declarator.phrases ds = ds.map Declarator.phrase := by
  induction ds with
  | nil => rfl
  | cons d ds ih =>
    obtain ⟨name, initializer⟩ := d
    cases initializer <;> rw [Declarator.phrases, ih, List.map_cons, Declarator.phrase]

theorem Method.listWords_append (members members' : List Method) :
    Method.listWords (members ++ members') =
      Method.listWords members ++ Method.listWords members' := by
  induction members with
  | nil => rfl
  | cons first members ih =>
    obtain ⟨name, params, body⟩ := first
    simp only [List.cons_append, Method.listWords, ih, List.append_assoc]

theorem Stmt.listWords_append (body body' : List Stmt) :
    Stmt.listWords (body ++ body') = Stmt.listWords body ++ Stmt.listWords body' := by
  induction body with
  | nil => rfl
  | cons s body ih => rw [List.cons_append, Stmt.listWords, ih, Stmt.listWords, List.append_assoc]

end ScriptLang
