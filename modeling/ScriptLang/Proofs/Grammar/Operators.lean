import ScriptLang.Proofs.Grammar.Vocabulary
import ScriptLang.Proofs.Program.Operators

/-!
# Operators are tokens

Whatever the tokens are, an operator with one or two operands in a tree that a rule of the grammar
builds is a symbol among them (`Written`). For an operator is a word of its expression, and these
words are tokens of the kinds that their places ask for (`Grammar.worded_grammar`).
-/

namespace ScriptLang

/-- One of the tokens is the symbol, written with the word. -/
def Written (ts : List Token) (s : Symbol) (word : Lexeme) : Prop :=
  ∃ t ∈ ts, t.kind = .symbol s ∧ t.lexeme = word

namespace Grammar

/-- The operators of a tree of a nonterminal are symbols among the tokens. -/
def Nonterminal.Signed (P : Symbol → Lexeme → Prop) : (n : Nonterminal) → n.Tree → Prop
  | .expression, e => e.Signed P
  | .assignment, e => e.Signed P
  | .conditional, e => e.Signed P
  | .unary, e => e.Signed P
  | .statement, s => s.Signed P
  | .declaration, s => ∀ s' ∈ s, s'.Signed P

theorem Nonterminal.Worded.signed {Q : Kind → Lexeme → Prop} {n : Nonterminal} {tree : n.Tree}
    (h : n.Worded Q tree) : n.Signed (fun s => Q (.symbol s)) tree := by
  cases n with
  | expression => exact tree.signed_of_worded h
  | assignment => exact tree.signed_of_worded h
  | conditional => exact tree.signed_of_worded h
  | unary => exact tree.signed_of_worded h
  | statement => exact tree.signed_of_worded h
  | declaration => exact fun s hs => s.signed_of_worded (h s hs)

variable {ts : List Token}

/-- One of the tokens is of the kind, written with the word. -/
def Offered (ts : List Token) (kind : Kind) (word : Lexeme) : Prop :=
  ∃ t ∈ ts, t.kind = kind ∧ t.lexeme = word

theorem offered_of_mem : ∀ t ∈ ts, t.kind ≠ .endOfInput → Offered ts t.kind t.lexeme :=
  fun t ht _ => ⟨t, ht, rfl, rfl⟩

theorem builds_grammar (fuel : Nat) (n : Nonterminal) (c : Cursor) :
    Builds ts (grammar fuel n) c (n.Signed (Written ts)) := by
  intro hc tree c' htree
  have hworded : n.Worded (Offered ts) tree :=
    worded_grammar offered_of_mem fuel n c hc tree c' htree
  exact hworded.signed

end Grammar

/-- The operators of a parsed program are symbols among its tokens. -/
theorem Program.signed_of_parse {ts : List Token} {mode : Mode} {nextRef : Nat} {p : Program}
    (h : (Program.parse ts mode nextRef).result = .ok p) : p.Signed (Written ts) := by
  have hworded : p.Worded (Grammar.Offered ts) := Program.worded_of_parse Grammar.offered_of_mem h
  exact hworded.signed

end ScriptLang
