import ScriptLang.Program.Tree

/-!
# Trees without their history

The numbers of the references and the lines of the words in a tree tell where it was parsed.
Two trees that differ only in these are the same tree once they are erased.
-/

namespace ScriptLang

/-- The word without its line. -/
def Lexeme.erase (l : Lexeme) : Lexeme := ⟨l.text, 0⟩

/-- The reference without its number. -/
def Ref.erase (ref : Ref) : Ref := ⟨0, ref.word.erase⟩

theorem Lexeme.erase_eq_iff {l l' : Lexeme} : l.erase = l'.erase ↔ l.text = l'.text := by
  simp [erase]

theorem Ref.erase_eq_iff {ref ref' : Ref} :
    ref.erase = ref'.erase ↔ ref.word.text = ref'.word.text := by
  simp [erase, Lexeme.erase]

mutual

/-- The expression without lines and numbers. -/
@[simp]
def Expr.erase : Expr → Expr
  | .literal value => .literal value
  | .variable ref => .variable ref.erase
  | .assign ref value => .assign ref.erase value.erase
  | .unary op sign operand => .unary op sign.erase operand.erase
  | .binary op sign left right => .binary op sign.erase left.erase right.erase
  | .logical op sign left right => .logical op sign.erase left.erase right.erase
  | .comma left right => .comma left.erase right.erase
  | .conditional condition whenTrue whenFalse =>
    .conditional condition.erase whenTrue.erase whenFalse.erase
  | .grouping inner => .grouping inner.erase
  | .call callee arguments closing =>
    .call callee.erase (Expr.eraseAll arguments) closing.erase
  | .get object property => .get object.erase property.erase
  | .set object property value => .set object.erase property.erase value.erase
  | .this ref => .this ref.erase
  | .super ref method => .super ref.erase method.erase
  | .function ⟨params, body⟩ => .function ⟨params.map Lexeme.erase, Stmt.eraseAll body⟩

/-- The expressions without lines and numbers. -/
@[simp]
def Expr.eraseAll : List Expr → List Expr
  | [] => []
  | e :: es => e.erase :: Expr.eraseAll es

/-- The statement without lines and numbers. -/
@[simp]
def Stmt.erase : Stmt → Stmt
  | .expression e => .expression e.erase
  | .print e => .print e.erase
  | .vars ds => .vars (Declarator.eraseAll ds)
  | .block body => .block (Stmt.eraseAll body)
  | .ifElse condition whenTrue none => .ifElse condition.erase whenTrue.erase none
  | .ifElse condition whenTrue (some whenFalse) =>
    .ifElse condition.erase whenTrue.erase (some whenFalse.erase)
  | .whileLoop condition body => .whileLoop condition.erase body.erase
  | .breakLoop keyword => .breakLoop keyword.erase
  | .returnFrom keyword none => .returnFrom keyword.erase none
  | .returnFrom keyword (some e) => .returnFrom keyword.erase (some e.erase)
  | .function name ⟨params, body⟩ =>
    .function name.erase ⟨params.map Lexeme.erase, Stmt.eraseAll body⟩
  | .class name superclass members =>
    .class name.erase (superclass.map Ref.erase) (Method.eraseAll members)

/-- The statements without lines and numbers. -/
@[simp]
def Stmt.eraseAll : List Stmt → List Stmt
  | [] => []
  | s :: rest => s.erase :: Stmt.eraseAll rest

/-- The declared variables without lines and numbers. -/
@[simp]
def Declarator.eraseAll : List Declarator → List Declarator
  | [] => []
  | ⟨name, none⟩ :: rest => ⟨name.erase, none⟩ :: Declarator.eraseAll rest
  | ⟨name, some e⟩ :: rest => ⟨name.erase, some e.erase⟩ :: Declarator.eraseAll rest

/-- The methods without lines and numbers. -/
@[simp]
def Method.eraseAll : List Method → List Method
  | [] => []
  | ⟨name, ⟨params, body⟩⟩ :: rest =>
    ⟨name.erase, ⟨params.map Lexeme.erase, Stmt.eraseAll body⟩⟩ :: Method.eraseAll rest

end

/-- The routine without lines and numbers. -/
def Routine.erase (r : Routine) : Routine := ⟨r.params.map Lexeme.erase, Stmt.eraseAll r.body⟩

/-- The declared variable without lines and numbers. -/
def Declarator.erase (d : Declarator) : Declarator :=
  ⟨d.name.erase, d.initializer.map Expr.erase⟩

/-- The method without lines and numbers. -/
def Method.erase (m : Method) : Method := ⟨m.name.erase, m.routine.erase⟩

/-- The program without lines and numbers. -/
def Program.erase (p : Program) : Program :=
  ⟨Stmt.eraseAll p.statements, p.trailing.map Expr.erase⟩

/-! ## Lists -/

theorem Expr.eraseAll_eq_map (es : List Expr) : Expr.eraseAll es = es.map Expr.erase := by
  induction es with
  | nil => rfl
  | cons e es ih => rw [Expr.eraseAll, ih, List.map_cons]

theorem Stmt.eraseAll_eq_map (body : List Stmt) : Stmt.eraseAll body = body.map Stmt.erase := by
  induction body with
  | nil => rfl
  | cons s body ih => rw [Stmt.eraseAll, ih, List.map_cons]

theorem Declarator.eraseAll_eq_map (ds : List Declarator) :
    Declarator.eraseAll ds = ds.map Declarator.erase := by
  induction ds with
  | nil => rfl
  | cons d ds ih =>
    obtain ⟨name, initializer⟩ := d
    cases initializer <;> rw [Declarator.eraseAll, ih, List.map_cons] <;> rfl

theorem Method.eraseAll_eq_map (members : List Method) :
    Method.eraseAll members = members.map Method.erase := by
  induction members with
  | nil => rfl
  | cons first members ih =>
    obtain ⟨name, params, body⟩ := first
    rw [Method.eraseAll, ih, List.map_cons]
    rfl

end ScriptLang
