import ScriptLang.Grammar.Statement

/-!
# Parsing programs

A program is a list of declarations up to the end of the input. What is typed at a prompt
may end in an expression without a semicolon. Before each declaration of such input the
parser tries whether what is left is one expression and nothing more, and forgets the
attempt if it is not (`trailing`).

`Program.parse` reports every fault it comes across, in one pass.
-/

namespace ScriptLang

/-- How a piece of source text is meant: as a whole program, or as typed at a prompt. -/
inductive Mode
  | script | interactive
  deriving DecidableEq

namespace Grammar

/-- An expression that reaches to the end of the input without a fault. If there is none, the
position stays where it was, but for the numbers of references, which are not used twice. -/
def trailing (fuel : Nat) : Parser (Option Expr) := fun c =>
  match grammar fuel .expression c with
  | .ok e c' =>
    if c'.atEnd ∧ c'.found.length = c.found.length then .ok (some e) c'
    else .ok none { c with nextRef := c'.nextRef }
  | .error (.fault _) c' => .ok none { c with nextRef := c'.nextRef }
  | .error .exhausted c' => .error .exhausted c'

/-- The declarations up to the end of the input, added to those that stand in reverse in
`done`, and the trailing expression. At most `rounds` of them are read. -/
def programFrom (mode : Mode) (fuel : Nat) : Nat → List Stmt → Parser Program
  | 0, _ => exhausted
  | rounds + 1, done => fun c =>
    if c.atEnd then .ok ⟨done.reverse, none⟩ c
    else
      let speculation : EStateM.Result Stop Cursor (Option Expr) :=
        match mode with
        | .interactive => trailing fuel c
        | .script => .ok none c
      match speculation with
      | .error stop c' => .error stop c'
      | .ok (some e) c' => .ok ⟨done.reverse, some e⟩ c'
      | .ok none c' =>
        match grammar fuel .declaration c' with
        | .ok s c'' => programFrom mode fuel rounds (s.toList ++ done) c''
        | .error stop c'' => .error stop c''

/-- A program, with as much fuel as can be needed for its tokens. -/
def program (mode : Mode) : Parser Program := fun c =>
  programFrom mode (c.rest.length + 1) (c.rest.length + 1) [] c

end Grammar

/-- What parsing leads to: a program, or the diagnostics of what stands in its way; and the
number of the next reference in either case. -/
structure Parsed where
  result : Except (List Diagnostic) Program
  nextRef : Nat

/-- Parse a list of tokens. The references of the program are numbered from `nextRef` on. -/
def Program.parse (tokens : List Token) (mode : Mode) (nextRef : Nat := 0) : Parsed :=
  match Grammar.program mode (.start tokens nextRef) with
  | .ok p c => ⟨if c.found = [] then .ok p else .error c.found, c.nextRef⟩
  | .error _ c => ⟨.error c.found, c.nextRef⟩

end ScriptLang
