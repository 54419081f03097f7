import ScriptLang.Proofs.Grammar.Grammatical
import ScriptLang.Proofs.Grammar.Rules
import ScriptLang.Proofs.Program.Lines

/-!
# Lines of what is parsed

A parser makes no lines of its own. If `P` holds of the lines of all tokens that are left, and of
the line on which they end, then it holds of the lines of all words in the trees that are built and of
all diagnostics (`Keeps`). The input may have faults: a diagnostic is at a token that was read or is
next, also where a declaration was given up and the rest of it passed over.

A result of a parser may be a tree, a word, several of them, or nothing of the kind. `Lined` says
for each type what is on the lines, and `On P a` that it is where `P` holds. Both are classes, so
that a rule that is a sequence of parsers needs no proof but the way it is put together.
-/

namespace ScriptLang

namespace Grammar

variable {α β : Type}

/-! ## What is on lines -/

/-- A type whose elements may have words in them. -/
class Lined (α : Type) where
  /-- All words are on lines of which the predicate holds. -/
  on : (Nat → Prop) → α → Prop

/-- `P` holds of the lines of the words in `a`. -/
class On (P : Nat → Prop) [Lined α] (a : α) : Prop where
  on : Lined.on P a

instance : Lined Unit := ⟨fun _ _ => True⟩
instance : Lined Bool := ⟨fun _ _ => True⟩
instance : Lined Lexeme := ⟨fun P word => P word.line⟩
instance : Lined Token := ⟨fun P t => P t.line⟩
instance : Lined Ref := ⟨fun P ref => P ref.word.line⟩
instance : Lined Expr := ⟨Expr.On⟩
instance : Lined Stmt := ⟨Stmt.On⟩
instance : Lined Routine := ⟨Routine.On⟩
instance : Lined Method := ⟨fun P m => P m.name.line ∧ m.routine.On P⟩
instance : Lined Declarator := ⟨fun P d => P d.name.line ∧ ∀ e ∈ d.initializer, e.On P⟩
instance [Lined α] : Lined (Option α) := ⟨fun P x => ∀ a ∈ x, Lined.on P a⟩
instance [Lined α] : Lined (List α) := ⟨fun P xs => ∀ a ∈ xs, Lined.on P a⟩
instance [Lined α] [Lined β] : Lined (α × β) := ⟨fun P x => Lined.on P x.1 ∧ Lined.on P x.2⟩
instance : Lined Program := ⟨Program.On⟩

namespace On

variable {P : Nat → Prop}

instance {u : Unit} : On P u := ⟨trivial⟩

instance {flag : Bool} : On P flag := ⟨trivial⟩

instance [Lined α] (a : {a : α // On P a}) : On P (a : α) := a.property

instance (t : Token) [h : On P t] : On P t.lexeme := ⟨h.on⟩

section Containers

variable [Lined α] [Lined β] {a : α} {x : Option α} {xs ys : List α} {p : α × β}

instance : On P (none : Option α) := ⟨nofun⟩

instance [h : On P a] : On P (some a) :=
  ⟨fun _ hb => Option.some.inj hb ▸ h.on⟩

instance [h : On P x] : On P x.toList := ⟨fun a ha => h.on a (Option.mem_toList.mp ha)⟩

instance : On P ([] : List α) := ⟨nofun⟩

instance [h : On P a] [hs : On P xs] : On P (a :: xs) :=
  ⟨List.forall_mem_cons.mpr ⟨h.on, hs.on⟩⟩

instance [h : On P xs] [h' : On P ys] : On P (xs ++ ys) :=
  ⟨fun a ha => (List.mem_append.mp ha).elim (h.on a) (h'.on a)⟩

instance [h : On P xs] : On P xs.reverse := ⟨fun a ha => h.on a (List.mem_reverse.mp ha)⟩

instance [h : On P p] : On P p.1 := ⟨h.on.1⟩

instance [h : On P p] : On P p.2 := ⟨h.on.2⟩

instance {b : β} [h : On P a] [h' : On P b] : On P (a, b) := ⟨h.on, h'.on⟩

end Containers

section Expressions

variable {op : UnaryOp} {bop : BinaryOp} {lop : LogicalOp} {ref : Ref} {sign name : Lexeme}
  {e left right condition whenTrue whenFalse : Expr} {es : List Expr} {r : Routine}

instance {value : Literal} : On P (Expr.literal value) := ⟨trivial⟩

instance [h : On P ref] : On P (Expr.variable ref) := ⟨h.on⟩

instance [h : On P sign] [he : On P e] : On P (Expr.unary op sign e) := ⟨h.on, he.on⟩

instance [h : On P sign] [hl : On P left] [hr : On P right] :
    On P (Expr.binary bop sign left right) := ⟨h.on, hl.on, hr.on⟩

instance [h : On P sign] [hl : On P left] [hr : On P right] :
    On P (Expr.logical lop sign left right) := ⟨h.on, hl.on, hr.on⟩

instance [hl : On P left] [hr : On P right] : On P (Expr.comma left right) := ⟨hl.on, hr.on⟩

instance [hc : On P condition] [ht : On P whenTrue] [hf : On P whenFalse] :
    On P (Expr.conditional condition whenTrue whenFalse) := ⟨hc.on, ht.on, hf.on⟩

instance [h : On P e] : On P (Expr.grouping e) := ⟨h.on⟩

instance [h : On P e] [hs : On P es] [hc : On P sign] : On P (Expr.call e es sign) :=
  ⟨h.on, Expr.allOn_iff.mpr hs.on, hc.on⟩

instance [h : On P e] [hn : On P name] : On P (Expr.get e name) := ⟨h.on, hn.on⟩

instance [h : On P ref] : On P (Expr.this ref) := ⟨h.on⟩

instance [h : On P ref] [hn : On P name] : On P (Expr.super ref name) := ⟨h.on, hn.on⟩

instance [h : On P r] : On P (Expr.function r) := by
  obtain ⟨params, body⟩ := r
  exact ⟨h.on⟩

/-- The words of an assignment are those of its target and of its value. -/
instance [h : On P left] [hr : On P right] : On P (assignTo? left right) := by
  refine ⟨fun e he => ?_⟩
  unfold assignTo? at he
  split at he
  · cases he
    exact ⟨h.on, hr.on⟩
  · cases he
    exact ⟨h.on.1, h.on.2, hr.on⟩
  · cases he

end Expressions

section Statements

variable {ref : Option Ref} {word name : Lexeme} {e : Expr} {x y : Option Expr} {s t : Stmt}
  {o : Option Stmt} {body : List Stmt} {ds : List Declarator} {members : List Method} {m : Method}
  {params : List Lexeme} {r : Routine}

instance [h : On P e] : On P (Stmt.expression e) := ⟨h.on⟩

instance [h : On P e] : On P (Stmt.print e) := ⟨h.on⟩

instance [h : On P ds] : On P (Stmt.vars ds) := ⟨Declarator.allOn_iff.mpr h.on⟩

instance [h : On P body] : On P (Stmt.block body) := ⟨Stmt.allOn_iff.mpr h.on⟩

instance [he : On P e] [hs : On P s] [ho : On P o] : On P (Stmt.ifElse e s o) := by
  cases o with
  | none => exact ⟨he.on, hs.on⟩
  | some t => exact ⟨he.on, hs.on, ho.on t rfl⟩

instance [he : On P e] [hs : On P s] : On P (Stmt.whileLoop e s) := ⟨he.on, hs.on⟩

instance [ho : On P o] [hx : On P x] [hy : On P y] [hs : On P s] : On P (Stmt.forLoop o x y s) :=
  ⟨Stmt.on_forLoop ho.on hx.on hy.on hs.on⟩

instance [h : On P word] : On P (Stmt.breakLoop word) := ⟨h.on⟩

instance [h : On P word] [hx : On P x] : On P (Stmt.returnFrom word x) := by
  cases x with
  | none => exact ⟨h.on⟩
  | some e => exact ⟨h.on, hx.on e rfl⟩

instance [h : On P name] [hr : On P r] : On P (Stmt.function name r) := by
  obtain ⟨params, body⟩ := r
  exact ⟨h.on, hr.on⟩

instance [h : On P name] [hr : On P ref] [hm : On P members] : On P (Stmt.class name ref members) :=
  ⟨h.on, hr.on, Method.allOn_iff.mpr hm.on⟩

instance [hp : On P params] [hb : On P body] : On P (Routine.mk params body) :=
  ⟨hp.on, Stmt.allOn_iff.mpr hb.on⟩

instance [h : On P name] [hr : On P r] : On P (Method.mk name r) := ⟨h.on, hr.on⟩

instance [h : On P m] : On P m.name := ⟨h.on.1⟩

instance [h : On P m] : On P m.routine := ⟨h.on.2⟩

instance [h : On P name] [hx : On P x] : On P (Declarator.mk name x) := ⟨h.on, hx.on⟩

instance [hb : On P body] [hx : On P x] : On P (Program.mk body x) :=
  ⟨Stmt.allOn_iff.mpr hb.on, hx.on⟩

end Statements

end On

/-! ## Keeping to the lines -/

/-- `P` holds of the lines of what is left and of what was found. -/
structure Cursor.On (P : Nat → Prop) (c : Cursor) : Prop where
  rest : ∀ t ∈ c.rest, P t.line
  lastLine : P c.lastLine
  found : ∀ d ∈ c.found, P d.line

/-- `P` holds of the lines of the result or of the fault, and where the parser stands. -/
def OnEnd (P : Nat → Prop) [Lined α] : EStateM.Result Stop Cursor α → Prop
  | .ok a c => On P a ∧ c.On P
  | .error (.fault d) c => P d.line ∧ c.On P
  | .error .exhausted c => c.On P

/-- The parser makes no lines of its own. -/
class Keeps (P : Nat → Prop) [Lined α] (act : Parser α) : Prop where
  ends : ∀ c : Cursor, c.On P → OnEnd P (act c)

variable {P : Nat → Prop}

namespace Cursor.On

variable {c : Cursor}

theorem next (h : c.On P) : Grammar.On P c.next := by
  refine ⟨?_⟩
  unfold Cursor.next
  cases hrest : c.rest with
  | nil => exact h.lastLine
  | cons t rest => exact h.rest t (by simp [hrest])

theorem advance (h : c.On P) : c.advance.On P :=
  ⟨fun t ht => h.rest t (List.mem_of_mem_tail ht), h.lastLine, h.found⟩

theorem report (h : c.On P) {d : Diagnostic} (hd : P d.line) : (c.report d).On P := by
  refine ⟨h.rest, h.lastLine, fun d' hd' => ?_⟩
  rcases List.mem_append.mp hd' with hd' | hd'
  · exact h.found d' hd'
  · rwa [List.mem_singleton.mp hd']

end Cursor.On

namespace Keeps

variable [Lined α] [Lined β] {act : Parser α} {next : α → Parser β}

theorem of_eq {act' : Parser α} [h : Keeps P act'] {c : Cursor} (hc : c.On P)
    (heq : act c = act' c) : OnEnd P (act c) := heq ▸ h.ends c hc

instance pure (a : α) [h : On P a] : Keeps P (pure a : Parser α) := ⟨fun _ hc => ⟨h, hc⟩⟩

instance bind [h : Keeps P act] [hnext : ∀ a : {a // On P a}, Keeps P (next a.val)] :
    Keeps P (act >>= next) := by
  refine ⟨fun c hc => ?_⟩
  have hact := h.ends c hc
  rw [bind_eq_match]
  cases hend : act c with
  | ok a c' =>
    rw [hend] at hact
    obtain ⟨ha, hc'⟩ := hact
    exact (hnext ⟨a, ha⟩).ends c' hc'
  | error stop c' =>
    rw [hend] at hact
    cases stop with
    | fault d => exact hact
    | exhausted => exact hact

instance map [Keeps P act] (f : α → β) [∀ a : {a // On P a}, On P (f a.val)] : Keeps P (f <$> act) :=
  inferInstanceAs (Keeps P (act >>= fun a => Pure.pure (f a)))

instance ite {p : Prop} [Decidable p] {act' : Parser α} [Keeps P act] [Keeps P act'] :
    Keeps P (if p then act else act') := by
  by_cases h : p
  · rwa [if_pos h]
  · rwa [if_neg h]

end Keeps

/-! ## Single tokens -/

instance [Lined α] : Keeps P (exhausted : Parser α) := ⟨fun _ hc => hc⟩

instance [Lined α] (fault : GrammarFault) : Keeps P (failHere fault : Parser α) :=
  ⟨fun _ hc => ⟨hc.next.on, hc⟩⟩

instance (token : Token) [h : On P token] (fault : GrammarFault) : Keeps P (reportAt token fault) :=
  ⟨fun _ hc => ⟨inferInstance, hc.report h.on⟩⟩

instance (fault : GrammarFault) : Keeps P (reportHere fault) :=
  ⟨fun _ hc => ⟨inferInstance, hc.report hc.next.on⟩⟩

instance : Keeps P take := ⟨fun _ hc => ⟨hc.next, hc.advance⟩⟩

instance : Keeps P peek := ⟨fun _ hc => ⟨hc.next, hc⟩⟩

instance (kind : Kind) : Keeps P (looksAt kind) := ⟨fun _ hc => ⟨inferInstance, hc⟩⟩

instance (kind : Kind) : Keeps P (skip kind) := by
  refine ⟨fun c hc => ?_⟩
  unfold skip
  split
  · exact ⟨inferInstance, hc.advance⟩
  · exact ⟨inferInstance, hc⟩

instance (place : SymbolPlace) : Keeps P (symbol place) := by
  refine ⟨fun c hc => ?_⟩
  unfold symbol
  split
  · exact ⟨hc.next, hc.advance⟩
  · exact ⟨hc.next.on, hc⟩

instance (place : NamePlace) : Keeps P (identifier place) := by
  refine ⟨fun c hc => ?_⟩
  unfold identifier
  split
  · exact ⟨⟨hc.next.on⟩, hc.advance⟩
  · exact ⟨hc.next.on, hc⟩

instance (word : Lexeme) [h : On P word] : Keeps P (fresh word) :=
  ⟨fun _ hc => ⟨⟨h.on⟩, hc.rest, hc.lastLine, hc.found⟩⟩

/-! ## Lists -/

instance {kind : Kind} [Lined α] {act : Parser α} [Keeps P act] : Keeps P (following kind act) := by
  unfold following
  infer_instance

section Lists

variable {join : Kind → Option (Lexeme → Expr → Expr → Expr)} {operand : Parser Expr}
  {fuel : Nat}

/-- What joins two expressions adds no words to theirs but the one between them. -/
class Adds (P : Nat → Prop) (join : Kind → Option (Lexeme → Expr → Expr → Expr)) : Prop where
  on : ∀ kind node, join kind = some node → ∀ word left right, On P word → On P left → On P right →
    On P (node word left right)

instance (rank : Rank) : Adds P rank.join := by
  refine ⟨fun kind node hnode word left right hword hleft hright => ?_⟩
  obtain ⟨op, -, -, rfl⟩ | ⟨op, -, -, rfl⟩ := Rank.join_eq_some hnode <;> infer_instance

instance : Adds P commaJoin := by
  refine ⟨fun kind node hnode word left right hword hleft hright => ?_⟩
  unfold commaJoin at hnode
  split at hnode <;> cases hnode
  infer_instance

instance [hjoin : Adds P join] [Keeps P operand] {left : Expr} [On P left] :
    Keeps P (chainFrom join operand fuel left) := by
  induction fuel generalizing left with
  | zero => exact inferInstanceAs (Keeps P exhausted)
  | succ fuel ih =>
    refine ⟨fun c hc => ?_⟩
    cases hnode : join c.kind with
    | none =>
      rw [chainFrom_none hnode]
      exact ⟨inferInstance, hc⟩
    | some node =>
      have hon (word : Lexeme) [hword : On P word] (right : Expr) [hright : On P right] :
          On P (node word left right) := hjoin.on _ _ hnode _ _ _ hword inferInstance hright
      exact Keeps.of_eq hc (chainFrom_some hnode)

instance [Adds P join] [Keeps P operand] : Keeps P (chain join operand fuel) := by
  unfold chain
  infer_instance

variable [Lined α] {item : Parser α} {tooMany : GrammarFault} {closing : SymbolPlace}

instance [Keeps P item] (listed : List α) [On P listed] :
    Keeps P (itemsFrom tooMany item fuel listed) := by
  induction fuel generalizing listed with
  | zero => exact inferInstanceAs (Keeps P exhausted)
  | succ fuel ih =>
    rw [itemsFrom_succ]
    infer_instance

instance [Keeps P item] : Keeps P (listedBy tooMany item fuel) := by
  unfold listedBy
  infer_instance

instance [Keeps P item] : Keeps P (items tooMany closing item fuel) := by
  rw [items_eq]
  infer_instance

end Lists

/-! ## The rules -/

instance (n : Nonterminal) : Lined n.Tree :=
  match n with
  | .expression | .assignment | .conditional | .unary => inferInstanceAs (Lined Expr)
  | .statement => inferInstanceAs (Lined Stmt)
  | .declaration => inferInstanceAs (Lined (Option Stmt))

section Rules

variable {g : Grammar} {fuel : Nat} [∀ n, Keeps P (g n)]

instance (done : List Stmt) [On P done] : Keeps P (declarationsFrom g fuel done) := by
  induction fuel generalizing done with
  | zero => exact inferInstanceAs (Keeps P exhausted)
  | succ fuel ih =>
    refine ⟨fun c hc => ?_⟩
    by_cases hclosed : c.kind = .symbol .rightBrace ∨ c.atEnd
    · rw [declarationsFrom_closed hclosed]
      exact ⟨inferInstance, hc⟩
    · exact Keeps.of_eq hc (declarationsFrom_open hclosed)

instance : Keeps P (block g fuel) := by
  unfold block
  infer_instance

instance (kind : RoutineKind) : Keeps P (routine g fuel kind) := by
  rw [routine_eq]
  infer_instance

instance : Keeps P (primary g fuel) := by
  refine ⟨fun c hc => ?_⟩
  have hliteral (value : Literal) : On P (Expr.literal value) := inferInstance
  unfold primary
  split
  · exact ⟨hliteral _, hc.advance⟩
  · exact ⟨hliteral _, hc.advance⟩
  · exact ⟨hliteral _, hc.advance⟩
  · exact ⟨hliteral _, hc.advance⟩
  · exact ⟨hliteral _, hc.advance⟩
  all_goals exact Keeps.ends c hc

instance (e : Expr) [On P e] : Keeps P (suffixesFrom g fuel e) := by
  induction fuel generalizing e with
  | zero => exact inferInstanceAs (Keeps P exhausted)
  | succ fuel ih =>
    rw [suffixesFrom_succ]
    infer_instance

instance : Keeps P (call g fuel) := by
  unfold call
  infer_instance

instance keeps_unary : Keeps P (unary g fuel) := by
  refine ⟨fun c hc => ?_⟩
  cases hop : unaryOp c.kind with
  | none => exact Keeps.of_eq hc (unary_none hop)
  | some op => exact Keeps.of_eq hc (unary_some hop)

instance : Keeps P (product g fuel) := by
  unfold product
  infer_instance

instance : Keeps P (sum g fuel) := by
  unfold sum
  infer_instance

instance : Keeps P (comparison g fuel) := by
  unfold comparison
  infer_instance

instance : Keeps P (equality g fuel) := by
  unfold equality
  infer_instance

instance : Keeps P (conjunction g fuel) := by
  unfold conjunction
  infer_instance

instance : Keeps P (disjunction g fuel) := by
  unfold disjunction
  infer_instance

instance keeps_conditional : Keeps P (conditional g fuel) := by
  unfold conditional
  infer_instance

/-- What is left of an assignment once it is known whether its target is one. -/
theorem keeps_assigned (e : Option Expr) (target : Expr) (equals : Token) [h : On P e]
    [On P target] [On P equals] : Keeps P (match e with
      | some e => pure e
      | none => reportAt equals .invalidAssignmentTarget >>= fun _ => pure target) := by
  cases e with
  | none => infer_instance
  | some e =>
    have he : On P e := ⟨h.on e rfl⟩
    infer_instance

instance keeps_assignment : Keeps P (assignment g fuel) := by
  have hassigned := @keeps_assigned P
  unfold assignment
  infer_instance

instance keeps_expression : Keeps P (expression g fuel) := by
  unfold expression
  infer_instance

instance : Keeps P (declarator g) := by
  unfold declarator
  infer_instance

instance (ds : List Declarator) [On P ds] : Keeps P (declaratorsFrom g fuel ds) := by
  induction fuel generalizing ds with
  | zero => exact inferInstanceAs (Keeps P exhausted)
  | succ fuel ih =>
    rw [declaratorsFrom_succ]
    infer_instance

instance : Keeps P (varDeclaration g fuel) := by
  unfold varDeclaration
  infer_instance

instance (s : Symbol) : Keeps P (clauseUpTo g s) := by
  unfold clauseUpTo
  infer_instance

instance : Keeps P (expressionStatement g fuel) := by
  unfold expressionStatement
  infer_instance

instance : Keeps P (forInitializer g fuel) := by
  unfold forInitializer
  infer_instance

set_option synthInstance.maxSize 512 in
instance : Keeps P (forStatement g fuel) := by
  unfold forStatement
  infer_instance

set_option synthInstance.maxSize 256 in
instance : Keeps P (ifStatement g) := by
  rw [ifStatement_eq]
  infer_instance

instance keeps_statement : Keeps P (statement g fuel) := by
  refine ⟨fun c hc => ?_⟩
  unfold statement breakStatement printStatement returnStatement whileStatement blockStatement
  split <;> exact Keeps.ends c hc

instance (kind : RoutineKind) : Keeps P (namedRoutine g fuel kind) := by
  unfold namedRoutine
  infer_instance

instance (done : List Method) [On P done] : Keeps P (methodsFrom g fuel done) := by
  induction fuel generalizing done with
  | zero => exact inferInstanceAs (Keeps P exhausted)
  | succ fuel ih =>
    rw [methodsFrom]
    infer_instance

set_option synthInstance.maxSize 256 in
instance : Keeps P (strictDeclaration g fuel) := by
  refine ⟨fun c hc => ?_⟩
  unfold strictDeclaration functionDeclaration
  rw [classDeclaration_eq]
  split
  · exact Keeps.ends c hc
  · exact Keeps.ends c hc
  · split <;> exact Keeps.ends c hc
  · exact Keeps.ends c hc

/-- A fault that ends a declaration is found among the others, and what is passed over is
forgotten. -/
instance keeps_declaration : Keeps P (declaration g fuel) := by
  refine ⟨fun c hc => ?_⟩
  have hstrict : OnEnd P (strictDeclaration g fuel c) := Keeps.ends c hc
  unfold declaration
  cases hend : strictDeclaration g fuel c with
  | ok s c' =>
    rw [hend] at hstrict
    obtain ⟨hs, hc'⟩ := hstrict
    exact ⟨inferInstance, hc'⟩
  | error stop c' =>
    rw [hend] at hstrict
    cases stop with
    | exhausted => exact hstrict
    | fault d =>
      obtain ⟨hd, hc'⟩ := hstrict
      refine ⟨inferInstance, fun t ht => hc'.rest t ?_, hc'.lastLine, (hc'.report hd).found⟩
      exact List.mem_of_mem_tail ((resume_suffix c'.rest).subset ht)

end Rules

/-! ## The grammar -/

instance keeps_grammar (fuel : Nat) (n : Nonterminal) : Keeps P (grammar fuel n) := by
  induction fuel generalizing n with
  | zero => exact ⟨fun c hc => by cases n <;> exact hc⟩
  | succ fuel ih =>
    cases n with
    | expression => exact keeps_expression (g := grammar fuel)
    | assignment => exact keeps_assignment (g := grammar fuel)
    | conditional => exact keeps_conditional (g := grammar fuel)
    | unary => exact keeps_unary (g := grammar fuel)
    | statement => exact keeps_statement (g := grammar fuel)
    | declaration => exact keeps_declaration (g := grammar fuel)

/-! ## Programs -/

instance (fuel : Nat) : Keeps P (trailing fuel) := by
  refine ⟨fun c hc => ?_⟩
  have hread : OnEnd P (grammar fuel .expression c) := (keeps_grammar fuel .expression).ends c hc
  obtain ⟨e, c', hact, hend, -⟩ | ⟨n, hn, hact⟩ | ⟨c', hact, hend⟩ := trailing_cases fuel c
  · rw [hact]
    rw [hend] at hread
    obtain ⟨he, hc'⟩ := hread
    exact ⟨⟨fun e' he' => Option.some.inj he' ▸ he.on⟩, hc'⟩
  · rw [hact]
    exact ⟨inferInstance, hc.rest, hc.lastLine, hc.found⟩
  · rw [hact]
    rwa [hend] at hread

instance (mode : Mode) (fuel : Nat) : Keeps P (speculation mode fuel) := by
  cases mode with
  | script => exact inferInstanceAs (Keeps P (pure none))
  | interactive => exact inferInstanceAs (Keeps P (trailing fuel))

instance keeps_remainder {mode : Mode} {fuel rounds : Nat}
    [h : ∀ done : {done : List Stmt // On P done}, Keeps P (programFrom mode fuel rounds done.val)]
    (done : List Stmt) [On P done] (e : Option Expr) [On P e] :
    Keeps P (remainder mode fuel rounds done e) := by
  have hlater (done : List Stmt) [hdone : On P done] : Keeps P (programFrom mode fuel rounds done) :=
    h ⟨done, hdone⟩
  cases e with
  | some e => exact Keeps.pure (α := Program) ⟨done.reverse, some e⟩
  | none =>
    have hkeeps : Keeps P (grammar fuel .declaration : Parser (Option Stmt)) :=
      keeps_grammar fuel .declaration
    exact @Keeps.bind _ _ _ _ _ (grammar fuel .declaration : Parser (Option Stmt)) _ hkeeps
      fun s => inferInstance

instance (mode : Mode) (fuel rounds : Nat) (done : List Stmt) [On P done] :
    Keeps P (programFrom mode fuel rounds done) := by
  induction rounds generalizing done with
  | zero => exact inferInstanceAs (Keeps P exhausted)
  | succ rounds ih =>
    refine ⟨fun c hc => ?_⟩
    by_cases hend : c.atEnd
    · rw [programFrom_atEnd mode rounds done hend]
      exact ⟨inferInstance, hc⟩
    · exact Keeps.of_eq hc (programFrom_succ mode rounds done hend)

end Grammar

/-- The words of a parsed program, and the diagnostics if there are any, are on lines of its
tokens. -/
theorem Program.on_of_parse {P : Nat → Prop} {ts : List Token} {mode : Mode} {nextRef : Nat}
    (hts : ts ≠ []) (h : ∀ t ∈ ts, P t.line) :
    (∀ p, (Program.parse ts mode nextRef).result = .ok p → p.On P) ∧
      ∀ ds, (Program.parse ts mode nextRef).result = .error ds → ∀ d ∈ ds, P d.line := by
  have hstart : (Grammar.Cursor.start ts nextRef).On P := by
    refine ⟨h, ?_, nofun⟩
    change P ((ts.getLast?.map Token.line).getD 0)
    rw [List.getLast?_eq_some_getLast hts]
    exact h _ (List.getLast_mem hts)
  have hprogram : Grammar.Keeps P (Grammar.programFrom mode (ts.length + 1) (ts.length + 1) []) :=
    inferInstance
  have hkeeps : Grammar.OnEnd P (Grammar.program mode (.start ts nextRef)) :=
    hprogram.ends _ hstart
  unfold Program.parse
  cases hend : Grammar.program mode (.start ts nextRef) with
  | ok p c =>
    rw [hend] at hkeeps
    obtain ⟨hp, hc⟩ := hkeeps
    dsimp only
    split
    · exact ⟨fun _ hp' => Except.ok.inj hp' ▸ hp.on, nofun⟩
    · exact ⟨nofun, fun _ hds => Except.error.inj hds ▸ hc.found⟩
  | error stop c =>
    rw [hend] at hkeeps
    have hc : c.On P := by
      cases stop with
      | fault d => exact hkeeps.2
      | exhausted => exact hkeeps
    exact ⟨nofun, fun _ hds => Except.error.inj hds ▸ hc.found⟩

end ScriptLang
