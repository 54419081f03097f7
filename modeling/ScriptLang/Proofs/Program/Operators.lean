import ScriptLang.Proofs.Program.Vocabulary

/-!
# Operators in trees

Every operator of a tree is a symbol that was written with a word. `Signed P` says that `P` holds of
the symbols and words of all operators with one or two operands in a tree, those in the bodies of
its functions and methods included. It holds of all parts of the tree, too
(`Phrase.Contains.signed`).
-/

namespace ScriptLang

section Trees

variable (P : Symbol → Lexeme → Prop)

mutual

/-- `P` holds of the operators in the expression. -/
def Expr.Signed : Expr → Prop
  | .literal _ => True
  | .variable _ => True
  | .assign _ value => value.Signed
  | .unary op sign operand => P op.symbol sign ∧ operand.Signed
  | .binary op sign left right => P op.symbol sign ∧ left.Signed ∧ right.Signed
  | .logical _ _ left right => left.Signed ∧ right.Signed
  | .comma left right => left.Signed ∧ right.Signed
  | .conditional condition whenTrue whenFalse =>
    condition.Signed ∧ whenTrue.Signed ∧ whenFalse.Signed
  | .grouping inner => inner.Signed
  | .call callee arguments _ => callee.Signed ∧ Expr.AllSigned arguments
  | .get object _ => object.Signed
  | .set object _ value => object.Signed ∧ value.Signed
  | .this _ => True
  | .super _ _ => True
  | .function ⟨_, body⟩ => Stmt.AllSigned body

/-- `P` holds of the operators in the expressions. -/
def Expr.AllSigned : List Expr → Prop
  | [] => True
  | e :: es => e.Signed ∧ Expr.AllSigned es

/-- `P` holds of the operators in the statement. -/
def Stmt.Signed : Stmt → Prop
  | .expression e => e.Signed
  | .print e => e.Signed
  | .vars ds => Declarator.AllSigned ds
  | .block body => Stmt.AllSigned body
  | .ifElse condition whenTrue none => condition.Signed ∧ whenTrue.Signed
  | .ifElse condition whenTrue (some whenFalse) =>
    condition.Signed ∧ whenTrue.Signed ∧ whenFalse.Signed
  | .whileLoop condition body => condition.Signed ∧ body.Signed
  | .breakLoop _ => True
  | .returnFrom _ none => True
  | .returnFrom _ (some e) => e.Signed
  | .function _ ⟨_, body⟩ => Stmt.AllSigned body
  | .class _ _ members => Method.AllSigned members

/-- `P` holds of the operators in the statements. -/
def Stmt.AllSigned : List Stmt → Prop
  | [] => True
  | s :: rest => s.Signed ∧ Stmt.AllSigned rest

/-- `P` holds of the operators in the initial values. -/
def Declarator.AllSigned : List Declarator → Prop
  | [] => True
  | ⟨_, none⟩ :: rest => Declarator.AllSigned rest
  | ⟨_, some e⟩ :: rest => e.Signed ∧ Declarator.AllSigned rest

/-- `P` holds of the operators in the bodies of the methods. -/
def Method.AllSigned : List Method → Prop
  | [] => True
  | ⟨_, ⟨_, body⟩⟩ :: rest => Stmt.AllSigned body ∧ Method.AllSigned rest

end

/-- `P` holds of the operators in the body of the routine. -/
def Routine.Signed (r : Routine) : Prop := Stmt.AllSigned P r.body

/-- `P` holds of the operators in the program. -/
structure Program.Signed (p : Program) : Prop where
  statements : Stmt.AllSigned P p.statements
  trailing : ∀ e ∈ p.trailing, e.Signed P

/-- `P` holds of the operators in the phrase. -/
def Scoping.Phrase.Signed : Scoping.Phrase → Prop
  | expression e => e.Signed P
  | expressions es => Expr.AllSigned P es
  | statement s => s.Signed P
  | statements body => Stmt.AllSigned P body
  | declarators ds => Declarator.AllSigned P ds
  | methods members => Method.AllSigned P members
  | routine r => r.Signed P

end Trees

variable {P : Symbol → Lexeme → Prop}

/-! ## Lists -/

theorem Expr.allSigned_iff {es : List Expr} : Expr.AllSigned P es ↔ ∀ e ∈ es, e.Signed P := by
  induction es with
  | nil => simp [Expr.AllSigned]
  | cons e es ih => simp [Expr.AllSigned, ih]

/-! ## Parts -/

namespace Scoping

/-- What holds of the operators of a phrase holds of those inside it. -/
theorem Visits.signed {Q Q' : Place} (h : Visits Q Q') (hQ : Q.phrase.Signed P) :
    Q'.phrase.Signed P := by
  cases h with
  | @choice _ _ _ _ _ whenFalse =>
    cases whenFalse <;> simp_all [Phrase.Signed, Stmt.Signed]
  | @chosen _ _ _ _ _ whenFalse =>
    cases whenFalse <;> simp_all [Phrase.Signed, Stmt.Signed]
  | @function _ _ _ routine =>
    obtain ⟨params, body⟩ := routine
    exact hQ
  | @declaredFunction _ _ _ _ routine =>
    obtain ⟨params, body⟩ := routine
    exact hQ
  | @method _ _ _ _ routine =>
    obtain ⟨params, body⟩ := routine
    exact hQ.1
  | @otherMethods _ _ _ _ routine =>
    obtain ⟨params, body⟩ := routine
    exact hQ.2
  | _ =>
    simp_all [Phrase.Signed, Expr.Signed, Expr.AllSigned, Stmt.Signed, Stmt.AllSigned,
      Declarator.AllSigned, Routine.Signed]

theorem Phrase.Contains.signed {t t' : Phrase} (h : t.Contains t') (ht : t.Signed P) :
    t'.Signed P := by
  induction h with
  | refl => exact ht
  | tail _ hlast ih =>
    obtain ⟨a, S, r, a', S', r', hvisits⟩ := hlast
    exact hvisits.signed ih

end Scoping

/-! ## Operators are words -/

section Words

variable {Q : Kind → Lexeme → Prop}

mutual

/-- What holds of the words of an expression holds of its operators. -/
theorem Expr.signed_of_worded : ∀ e : Expr, e.Worded Q → e.Signed fun s => Q (.symbol s)
  | .literal _, _ => trivial
  | .variable _, _ => trivial
  | .assign _ value, h => value.signed_of_worded h.2
  | .unary _ _ operand, h => ⟨h.1, operand.signed_of_worded h.2⟩
  | .binary _ _ left right, h =>
    ⟨h.1, left.signed_of_worded h.2.1, right.signed_of_worded h.2.2⟩
  | .logical _ _ left right, h => ⟨left.signed_of_worded h.2.1, right.signed_of_worded h.2.2⟩
  | .comma left right, h => ⟨left.signed_of_worded h.1, right.signed_of_worded h.2⟩
  | .conditional condition whenTrue whenFalse, h =>
    ⟨condition.signed_of_worded h.1, whenTrue.signed_of_worded h.2.1,
      whenFalse.signed_of_worded h.2.2⟩
  | .grouping inner, h => inner.signed_of_worded h
  | .call callee arguments _, h =>
    ⟨callee.signed_of_worded h.1, Expr.allSigned_of_allWorded arguments h.2.1⟩
  | .get object _, h => object.signed_of_worded h.1
  | .set object _ value, h => ⟨object.signed_of_worded h.1, value.signed_of_worded h.2.2⟩
  | .this _, _ => trivial
  | .super _ _, _ => trivial
  | .function ⟨_, body⟩, h => Stmt.allSigned_of_allWorded body h

theorem Expr.allSigned_of_allWorded : ∀ es : List Expr, Expr.AllWorded Q es →
    Expr.AllSigned (fun s => Q (.symbol s)) es
  | [], _ => trivial
  | e :: es, h => ⟨e.signed_of_worded h.1, Expr.allSigned_of_allWorded es h.2⟩

theorem Stmt.signed_of_worded : ∀ s : Stmt, s.Worded Q → s.Signed fun s => Q (.symbol s)
  | .expression e, h => e.signed_of_worded h
  | .print e, h => e.signed_of_worded h
  | .vars ds, h => Declarator.allSigned_of_allWorded ds h
  | .block body, h => Stmt.allSigned_of_allWorded body h
  | .ifElse condition whenTrue none, h =>
    ⟨condition.signed_of_worded h.1, whenTrue.signed_of_worded h.2⟩
  | .ifElse condition whenTrue (some whenFalse), h =>
    ⟨condition.signed_of_worded h.1, whenTrue.signed_of_worded h.2.1,
      whenFalse.signed_of_worded h.2.2⟩
  | .whileLoop condition body, h => ⟨condition.signed_of_worded h.1, body.signed_of_worded h.2⟩
  | .breakLoop _, _ => trivial
  | .returnFrom _ none, _ => trivial
  | .returnFrom _ (some e), h => e.signed_of_worded h
  | .function _ ⟨_, body⟩, h => Stmt.allSigned_of_allWorded body h
  | .class _ _ members, h => Method.allSigned_of_allWorded members h.2

theorem Stmt.allSigned_of_allWorded : ∀ body : List Stmt, Stmt.AllWorded Q body →
    Stmt.AllSigned (fun s => Q (.symbol s)) body
  | [], _ => trivial
  | s :: rest, h => ⟨s.signed_of_worded h.1, Stmt.allSigned_of_allWorded rest h.2⟩

theorem Declarator.allSigned_of_allWorded : ∀ ds : List Declarator, Declarator.AllWorded Q ds →
    Declarator.AllSigned (fun s => Q (.symbol s)) ds
  | [], _ => trivial
  | ⟨_, none⟩ :: rest, h => Declarator.allSigned_of_allWorded rest h
  | ⟨_, some e⟩ :: rest, h =>
    ⟨e.signed_of_worded h.1, Declarator.allSigned_of_allWorded rest h.2⟩

theorem Method.allSigned_of_allWorded : ∀ members : List Method, Method.AllWorded Q members →
    Method.AllSigned (fun s => Q (.symbol s)) members
  | [], _ => trivial
  | ⟨_, ⟨_, body⟩⟩ :: rest, h =>
    ⟨Stmt.allSigned_of_allWorded body h.1, Method.allSigned_of_allWorded rest h.2⟩

end

theorem Program.Worded.signed {p : Program} (h : p.Worded Q) : p.Signed fun s => Q (.symbol s) :=
  ⟨Stmt.allSigned_of_allWorded p.statements h.statements,
    fun e he => e.signed_of_worded (h.trailing e he)⟩

end Words

end ScriptLang
