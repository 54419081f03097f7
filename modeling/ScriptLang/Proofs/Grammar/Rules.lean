import ScriptLang.Grammar.Program
import ScriptLang.Proofs.Grammar.Trees

/-!
# The rules as sequences

What is proved about the grammar is proved rule by rule. Here every rule is written as a plain
sequence of smaller parsers: an optional part is a parser of its own (`following`), and a rule
that looks at the next token has one equation for each of its branches.

The first thing proved in this way is that a parser only moves forward (`Steady`). Wherever and
however it stops, what is left is the end of what was there, no diagnostic has been taken back,
and no number is handed out twice. The line on which the tokens end stays as it is. So a run that
ends with as few diagnostics as it began with reported nothing on the way (`found_eq_of_bind`).
-/

namespace ScriptLang.Grammar

variable {α β : Type}

theorem bind_of_ok {act : Parser α} {next : α → Parser β} {c c' : Cursor} {a : α}
    (h : act c = .ok a c') : (act >>= next) c = next a c' := by
  rw [bind_eq_match, h]

theorem bind_eq_ok {act : Parser α} {next : α → Parser β} {c c' : Cursor} {b : β}
    (h : (act >>= next) c = .ok b c') : ∃ a c₁, act c = .ok a c₁ ∧ next a c₁ = .ok b c' := by
  rw [bind_eq_match] at h
  cases hact : act c with
  | ok a c₁ =>
    rw [hact] at h
    exact ⟨a, c₁, rfl, h⟩
  | error stop c₁ =>
    rw [hact] at h
    cases h

/-! ## Moving forward -/

/-- Where a parser stands when it stops. -/
def position : EStateM.Result Stop Cursor α → Cursor
  | .ok _ c => c
  | .error _ c => c

/-- A position that parsing may come to from another. -/
structure Cursor.Leads (c c' : Cursor) : Prop where
  rest : c'.rest <:+ c.rest
  lastLine : c'.lastLine = c.lastLine
  found : c.found <+: c'.found
  nextRef : c.nextRef ≤ c'.nextRef

theorem Cursor.Leads.refl (c : Cursor) : c.Leads c :=
  ⟨List.suffix_refl _, rfl, List.prefix_refl _, Nat.le_refl _⟩

theorem Cursor.Leads.trans {c c' c'' : Cursor} (h : c.Leads c') (h' : c'.Leads c'') :
    c.Leads c'' :=
  ⟨h'.rest.trans h.rest, h'.lastLine.trans h.lastLine, h.found.trans h'.found,
    Nat.le_trans h.nextRef h'.nextRef⟩

theorem Cursor.leads_advance (c : Cursor) : c.Leads c.advance :=
  ⟨List.tail_suffix _, rfl, List.prefix_refl _, Nat.le_refl _⟩

theorem Cursor.leads_report (c : Cursor) (d : Diagnostic) : c.Leads (c.report d) :=
  ⟨List.suffix_refl _, rfl, List.prefix_append _ _, Nat.le_refl _⟩

/-- The parser only moves forward. -/
class Steady (act : Parser α) : Prop where
  leads : ∀ c : Cursor, c.Leads (position (act c))

namespace Steady

variable {act : Parser α} {next : α → Parser β} {c c' : Cursor}

theorem of_ok [Steady act] {a : α} (h : act c = .ok a c') : c.Leads c' := by
  have hleads := ‹Steady act›.leads c
  rwa [h] at hleads

theorem of_error [Steady act] {stop : Stop} (h : act c = .error stop c') : c.Leads c' := by
  have hleads := ‹Steady act›.leads c
  rwa [h] at hleads

instance pure (a : α) : Steady (pure a : Parser α) := ⟨Cursor.Leads.refl⟩

instance bind [Steady act] [∀ a, Steady (next a)] : Steady (act >>= next) := by
  refine ⟨fun c => ?_⟩
  rw [bind_eq_match]
  cases hact : act c with
  | ok a c' => exact (of_ok hact).trans ((inferInstance : Steady (next a)).leads c')
  | error stop c' => exact of_error hact

instance map [Steady act] (f : α → β) : Steady (f <$> act) :=
  inferInstanceAs (Steady (act >>= fun a => Pure.pure (f a)))

instance ite {p : Prop} [Decidable p] {act' : Parser α} [Steady act] [Steady act'] :
    Steady (if p then act else act') := by
  by_cases h : p
  · rwa [if_pos h]
  · rwa [if_neg h]

end Steady

/-- Two parsers in a row report nothing together only if neither does. -/
theorem found_eq_of_bind {act : Parser α} {next : α → Parser β} [Steady act]
    [∀ a, Steady (next a)] {c c' : Cursor} {b : β} (h : (act >>= next) c = .ok b c')
    (hfound : c'.found = c.found) :
    ∃ a c₁, act c = .ok a c₁ ∧ c₁.found = c.found ∧ next a c₁ = .ok b c' := by
  obtain ⟨a, c₁, hact, hnext⟩ := bind_eq_ok h
  have h₁ := (Steady.of_ok hact).found
  have h₂ := (Steady.of_ok hnext).found
  rw [hfound] at h₂
  exact ⟨a, c₁, hact, h₂.eq_of_length_le h₁.length_le, hnext⟩

/-! ## Single tokens -/

instance : Steady (exhausted : Parser α) := ⟨Cursor.Leads.refl⟩

instance (fault : GrammarFault) : Steady (failHere fault : Parser α) := ⟨Cursor.Leads.refl⟩

instance (token : Token) (fault : GrammarFault) : Steady (reportAt token fault) :=
  ⟨fun c => c.leads_report _⟩

instance (fault : GrammarFault) : Steady (reportHere fault) := ⟨fun c => c.leads_report _⟩

instance : Steady take := ⟨Cursor.leads_advance⟩

instance : Steady peek := ⟨Cursor.Leads.refl⟩

instance (kind : Kind) : Steady (looksAt kind) := ⟨Cursor.Leads.refl⟩

instance (kind : Kind) : Steady (skip kind) := by
  refine ⟨fun c => ?_⟩
  unfold skip
  split
  · exact c.leads_advance
  · exact .refl c

instance (place : SymbolPlace) : Steady (symbol place) := by
  refine ⟨fun c => ?_⟩
  unfold symbol
  split
  · exact c.leads_advance
  · exact .refl c

instance (place : NamePlace) : Steady (identifier place) := by
  refine ⟨fun c => ?_⟩
  unfold identifier
  split
  · exact c.leads_advance
  · exact .refl c

instance (word : Lexeme) : Steady (fresh word) :=
  ⟨fun _ => ⟨List.suffix_refl _, rfl, List.prefix_refl _, Nat.le_succ _⟩⟩

/-! ## Lists -/

/-- What stands behind a token of the given kind, if there is such a token. -/
def following (kind : Kind) (act : Parser α) : Parser (Option α) := do
  if ← skip kind then some <$> act else pure none

instance {kind : Kind} {act : Parser α} [Steady act] : Steady (following kind act) := by
  unfold following
  infer_instance

section Lists

variable {join : Kind → Option (Lexeme → Expr → Expr → Expr)} {operand : Parser Expr}
  {fuel : Nat} {left : Expr} {c : Cursor}

theorem chainFrom_none (h : join c.kind = none) :
    chainFrom join operand (fuel + 1) left c = .ok left c := by
  unfold chainFrom
  simp only [h]

theorem chainFrom_succ : chainFrom join operand (fuel + 1) left c = match join c.kind with
    | none => EStateM.Result.ok left c
    | some node => match operand c.advance with
      | .ok right c' => chainFrom join operand fuel (node c.next.lexeme left right) c'
      | .error stop c' => .error stop c' := rfl

theorem chainFrom_some {node : Lexeme → Expr → Expr → Expr} (h : join c.kind = some node) :
    chainFrom join operand (fuel + 1) left c = (take >>= fun word => operand >>= fun right =>
      chainFrom join operand fuel (node word.lexeme left right)) c := by
  rw [chainFrom_succ, h]
  refine Eq.trans ?_ (bind_eq_match operand _ c.advance).symm
  cases operand c.advance <;> rfl

instance [Steady operand] : Steady (chainFrom join operand fuel left) := by
  refine ⟨fun c => ?_⟩
  induction fuel generalizing left c with
  | zero => exact .refl c
  | succ fuel ih =>
    cases hnode : join c.kind with
    | none =>
      rw [chainFrom_none hnode]
      exact .refl c
    | some node =>
      have hlater (e : Expr) : Steady (chainFrom join operand fuel e) := ⟨fun c => ih c⟩
      rw [chainFrom_some hnode]
      exact Steady.leads c

instance [Steady operand] : Steady (chain join operand fuel) := by
  unfold chain
  infer_instance

variable {item : Parser α} {tooMany : GrammarFault} {closing : SymbolPlace}

theorem itemsFrom_succ (listed : List α) :
    itemsFrom tooMany item (fuel + 1) listed =
      ((if maxListed ≤ listed.length then reportHere tooMany else pure ()) >>= fun _ =>
        item >>= fun x => skip (.symbol .comma) >>= fun more =>
          if more then itemsFrom tooMany item fuel (listed ++ [x]) else pure (listed ++ [x])) := by
  rw [itemsFrom]
  split <;> rfl

/-- The items before the closing parenthesis. -/
def listedBy (tooMany : GrammarFault) (item : Parser α) (fuel : Nat) : Parser (List α) := do
  if ← looksAt (.symbol .rightParen) then pure [] else itemsFrom tooMany item fuel []

theorem items_eq : items tooMany closing item fuel =
    (listedBy tooMany item fuel >>= fun listed => symbol closing >>= fun close =>
      pure (listed, close)) := by
  unfold items listedBy
  rw [bind_assoc]
  refine congrArg _ (funext fun closed => ?_)
  cases closed <;> rfl

instance [Steady item] (listed : List α) : Steady (itemsFrom tooMany item fuel listed) := by
  induction fuel generalizing listed with
  | zero => exact inferInstanceAs (Steady exhausted)
  | succ fuel ih =>
    rw [itemsFrom_succ]
    infer_instance

instance [Steady item] : Steady (listedBy tooMany item fuel) := by
  unfold listedBy
  infer_instance

instance [Steady item] : Steady (items tooMany closing item fuel) := by
  rw [items_eq]
  infer_instance

end Lists

/-! ## The rules -/

section Rules

variable {g : Grammar} {fuel : Nat} {c : Cursor}

theorem routine_eq (kind : RoutineKind) : routine g fuel kind =
    (items .tooManyParameters .afterParameters (identifier .parameter) fuel >>= fun listed =>
      symbol (.beforeRoutineBody kind) >>= fun _ => block g fuel >>= fun body =>
        pure ⟨listed.1, body⟩) := rfl

theorem primary_identifier (h : c.kind = .identifier) : primary g fuel c =
    (take >>= fun word => fresh word.lexeme >>= fun ref => pure (.variable ref)) c := by
  unfold primary
  rw [h]

theorem primary_this (h : c.kind = .keyword .this) : primary g fuel c =
    (take >>= fun word => fresh word.lexeme >>= fun ref => pure (.this ref)) c := by
  unfold primary
  rw [h]

theorem primary_super (h : c.kind = .keyword .super) : primary g fuel c =
    (take >>= fun word => symbol .afterSuper >>= fun _ =>
      identifier .superclassMethod >>= fun method => fresh word.lexeme >>= fun ref =>
        pure (.super ref method)) c := by
  unfold primary
  rw [h]

theorem primary_fun (h : c.kind = .keyword .fun) : primary g fuel c =
    (take >>= fun _ => symbol .afterFun >>= fun _ => routine g fuel .function >>= fun r =>
      pure (.function r)) c := by
  unfold primary
  rw [h]

theorem primary_leftParen (h : c.kind = .symbol .leftParen) : primary g fuel c =
    (take >>= fun _ => g .expression >>= fun inner => symbol .afterGrouping >>= fun _ =>
      pure (.grouping inner)) c := by
  unfold primary
  rw [h]

theorem suffixesFrom_succ (e : Expr) : suffixesFrom g (fuel + 1) e =
    (skip (.symbol .leftParen) >>= fun called =>
      if called then
        items .tooManyArguments .afterArguments (g .assignment) fuel >>= fun listed =>
          suffixesFrom g fuel (.call e listed.1 listed.2.lexeme)
      else skip (.symbol .dot) >>= fun dotted =>
        if dotted then identifier .property >>= fun property =>
          suffixesFrom g fuel (.get e property)
        else pure e) := rfl

theorem unary_none (h : unaryOp c.kind = none) : unary g fuel c = call g fuel c := by
  rw [unary, h]

theorem unary_some {op : UnaryOp} (h : unaryOp c.kind = some op) :
    unary g fuel c = (take >>= fun word => g .unary >>= fun operand =>
      pure (.unary op word.lexeme operand)) c := by
  rw [unary, h]
  refine Eq.trans ?_ (bind_eq_match (g .unary) _ c.advance).symm
  dsimp only
  cases g .unary c.advance <;> rfl

/-- One variable of a declaration, and its initial value if it has one. -/
def declarator (g : Grammar) : Parser Declarator := do
  let name ← identifier .variable
  let initializer ← following (.symbol .equal) (g .assignment)
  pure ⟨name, initializer⟩

theorem declaratorsFrom_succ (ds : List Declarator) : declaratorsFrom g (fuel + 1) ds =
    (peek >>= fun token => declarator g >>= fun d =>
      (if ds.any (·.name.text = d.name.text) then
        reportAt token .repeatedVariable >>= fun _ => pure ds
      else pure (ds ++ [d])) >>= fun ds =>
        skip (.symbol .comma) >>= fun more =>
          if more then declaratorsFrom g fuel ds else pure ds) := by
  rw [declaratorsFrom]
  unfold declarator following
  simp only [bind_assoc]
  refine congrArg _ (funext fun token => congrArg _ (funext fun name => ?_))
  refine congrArg _ (funext fun initialized => ?_)
  by_cases hrepeated : ds.any (·.name.text = name.text)
  · cases initialized <;>
      simp only [hrepeated, Bool.false_eq_true, if_true, if_false, bind_assoc, pure_bind,
        map_eq_pure_bind]
  · cases initialized <;>
      simp only [hrepeated, Bool.false_eq_true, if_true, if_false, bind_assoc, pure_bind,
        map_eq_pure_bind]

theorem ifStatement_eq : ifStatement g =
    (take >>= fun _ => symbol .afterIf >>= fun _ => g .expression >>= fun condition =>
      symbol .afterIfCondition >>= fun _ => g .statement >>= fun whenTrue =>
        following (.keyword .else) (g .statement) >>= fun whenFalse =>
          pure (.ifElse condition whenTrue whenFalse)) := by
  unfold ifStatement following
  simp only [bind_assoc]
  refine congrArg _ (funext fun _ => congrArg _ (funext fun _ => congrArg _ (funext fun _ => ?_)))
  refine congrArg _ (funext fun _ => congrArg _ (funext fun _ => congrArg _ (funext fun more => ?_)))
  cases more <;> rfl

theorem classDeclaration_eq : classDeclaration g fuel =
    (take >>= fun _ => identifier .class >>= fun name =>
      following (.symbol .less) (identifier .superclass >>= fresh) >>= fun superclass =>
        symbol .beforeClassBody >>= fun _ => methodsFrom g fuel [] >>= fun members =>
          symbol .afterClassBody >>= fun _ => pure (.class name superclass members)) := by
  unfold classDeclaration following
  simp only [bind_assoc]
  refine congrArg _ (funext fun _ => congrArg _ (funext fun _ => congrArg _ (funext fun more => ?_)))
  cases more
  · rfl
  · simp

variable [∀ n, Steady (g n)]

instance (done : List Stmt) : Steady (declarationsFrom g fuel done) := by
  refine ⟨fun c => ?_⟩
  induction fuel generalizing done c with
  | zero => exact .refl c
  | succ fuel ih =>
    by_cases hclosed : c.kind = .symbol .rightBrace ∨ c.atEnd
    · rw [declarationsFrom_closed hclosed]
      exact .refl c
    · have hlater (done : List Stmt) : Steady (declarationsFrom g fuel done) := ⟨ih done⟩
      rw [declarationsFrom_open hclosed]
      exact Steady.leads c

instance : Steady (block g fuel) := by
  unfold block
  infer_instance

instance (kind : RoutineKind) : Steady (routine g fuel kind) := by
  rw [routine_eq]
  infer_instance

instance : Steady (primary g fuel) := by
  refine ⟨fun c => ?_⟩
  unfold primary
  split
  · exact c.leads_advance
  · exact c.leads_advance
  · exact c.leads_advance
  · exact c.leads_advance
  · exact c.leads_advance
  all_goals exact Steady.leads c

instance (e : Expr) : Steady (suffixesFrom g fuel e) := by
  induction fuel generalizing e with
  | zero => exact inferInstanceAs (Steady exhausted)
  | succ fuel ih =>
    rw [suffixesFrom_succ]
    infer_instance

instance : Steady (call g fuel) := by
  unfold call
  infer_instance

instance steady_unary : Steady (unary g fuel) := by
  refine ⟨fun c => ?_⟩
  cases hop : unaryOp c.kind with
  | none =>
    rw [unary_none hop]
    exact Steady.leads c
  | some op =>
    rw [unary_some hop]
    exact Steady.leads c

instance : Steady (product g fuel) := by
  unfold product
  infer_instance

instance : Steady (sum g fuel) := by
  unfold sum
  infer_instance

instance : Steady (comparison g fuel) := by
  unfold comparison
  infer_instance

instance : Steady (equality g fuel) := by
  unfold equality
  infer_instance

instance : Steady (conjunction g fuel) := by
  unfold conjunction
  infer_instance

instance : Steady (disjunction g fuel) := by
  unfold disjunction
  infer_instance

instance steady_conditional : Steady (conditional g fuel) := by
  unfold conditional
  infer_instance

/-- What is left of an assignment once it is known whether its target is one. -/
theorem steady_assigned (e : Option Expr) (target : Expr) (equals : Token) :
    Steady (match e with
      | some e => pure e
      | none => reportAt equals .invalidAssignmentTarget >>= fun _ => pure target) := by
  cases e <;> infer_instance

instance steady_assignment : Steady (assignment g fuel) := by
  have hassigned := steady_assigned
  unfold assignment
  infer_instance

instance steady_expression : Steady (expression g fuel) := by
  unfold expression
  infer_instance

instance : Steady (declarator g) := by
  unfold declarator
  infer_instance

instance (ds : List Declarator) : Steady (declaratorsFrom g fuel ds) := by
  induction fuel generalizing ds with
  | zero => exact inferInstanceAs (Steady exhausted)
  | succ fuel ih =>
    rw [declaratorsFrom_succ]
    infer_instance

instance : Steady (varDeclaration g fuel) := by
  unfold varDeclaration
  infer_instance

instance (s : Symbol) : Steady (clauseUpTo g s) := by
  unfold clauseUpTo
  infer_instance

instance : Steady (expressionStatement g fuel) := by
  unfold expressionStatement
  infer_instance

instance : Steady (forInitializer g fuel) := by
  unfold forInitializer
  infer_instance

set_option synthInstance.maxSize 256 in
instance : Steady (forStatement g fuel) := by
  unfold forStatement
  infer_instance

instance : Steady (ifStatement g) := by
  rw [ifStatement_eq]
  infer_instance

instance steady_statement : Steady (statement g fuel) := by
  refine ⟨fun c => ?_⟩
  unfold statement breakStatement printStatement returnStatement whileStatement blockStatement
  split <;> exact Steady.leads c

instance (kind : RoutineKind) : Steady (namedRoutine g fuel kind) := by
  unfold namedRoutine
  infer_instance

instance (done : List Method) : Steady (methodsFrom g fuel done) := by
  induction fuel generalizing done with
  | zero => exact inferInstanceAs (Steady exhausted)
  | succ fuel ih =>
    rw [methodsFrom]
    infer_instance

instance : Steady (strictDeclaration g fuel) := by
  refine ⟨fun c => ?_⟩
  unfold strictDeclaration functionDeclaration
  rw [classDeclaration_eq]
  split
  · exact Steady.leads c
  · exact Steady.leads c
  · split <;> exact Steady.leads c
  · exact Steady.leads c

theorem resume_suffix (tokens : List Token) : resume tokens <:+ tokens.tail := by
  induction tokens with
  | nil => exact List.suffix_refl _
  | cons first rest ih =>
    unfold resume
    split
    · exact List.suffix_refl _
    · split
      · exact List.suffix_refl _
      · exact ih.trans (List.tail_suffix _)

instance steady_declaration : Steady (declaration g fuel) := by
  refine ⟨fun c => ?_⟩
  unfold declaration
  cases hend : strictDeclaration g fuel c with
  | ok s c' => exact Steady.of_ok hend
  | error stop c' =>
    have hleads : c.Leads c' := Steady.of_error hend
    cases stop with
    | exhausted => exact hleads
    | fault d =>
      refine hleads.trans ⟨?_, rfl, List.prefix_append _ _, Nat.le_refl _⟩
      exact (resume_suffix c'.rest).trans (List.tail_suffix _)

end Rules

/-! ## The grammar -/

instance steady_grammar (fuel : Nat) (n : Nonterminal) : Steady (grammar fuel n) := by
  induction fuel generalizing n with
  | zero => exact ⟨fun c => by cases n <;> exact .refl c⟩
  | succ fuel ih =>
    cases n with
    | expression => exact steady_expression (g := grammar fuel)
    | assignment => exact steady_assignment (g := grammar fuel)
    | conditional => exact steady_conditional (g := grammar fuel)
    | unary => exact steady_unary (g := grammar fuel)
    | statement => exact steady_statement (g := grammar fuel)
    | declaration => exact steady_declaration (g := grammar fuel)

/-! ## Programs -/

/-- An attempt that fails leaves the position where it was. -/
theorem trailing_cases (fuel : Nat) (c : Cursor) :
    (∃ e c', trailing fuel c = .ok (some e) c' ∧ grammar fuel .expression c = .ok e c' ∧
        c'.atEnd ∧ c'.found = c.found) ∨
      (∃ n, c.nextRef ≤ n ∧ trailing fuel c = .ok none { c with nextRef := n }) ∨
      ∃ c', trailing fuel c = .error .exhausted c' ∧
        grammar fuel .expression c = .error .exhausted c' := by
  have hsteady : Steady (grammar fuel .expression) := steady_grammar fuel .expression
  unfold trailing
  cases hend : grammar fuel .expression c with
  | ok e c' =>
    have hleads : c.Leads c' := hsteady.of_ok hend
    by_cases hif : c'.atEnd ∧ c'.found.length = c.found.length
    · refine .inl ⟨e, c', by simp only [hif, if_true, and_self], rfl, hif.1, ?_⟩
      exact (hleads.found.eq_of_length hif.2.symm).symm
    · exact .inr (.inl ⟨c'.nextRef, hleads.nextRef, by simp only [hif, if_false]⟩)
  | error stop c' =>
    have hleads : c.Leads c' := hsteady.of_error hend
    cases stop with
    | fault d => exact .inr (.inl ⟨c'.nextRef, hleads.nextRef, rfl⟩)
    | exhausted => exact .inr (.inr ⟨c', rfl, rfl⟩)

instance (fuel : Nat) : Steady (trailing fuel) := by
  refine ⟨fun c => ?_⟩
  have hsteady : Steady (grammar fuel .expression) := steady_grammar fuel .expression
  obtain ⟨e, c', hact, hend, -⟩ | ⟨n, hn, hact⟩ | ⟨c', hact, hend⟩ := trailing_cases fuel c
  · rw [hact]
    exact hsteady.of_ok hend
  · rw [hact]
    exact ⟨List.suffix_refl _, rfl, List.prefix_refl _, hn⟩
  · rw [hact]
    exact hsteady.of_error hend

instance (mode : Mode) (fuel : Nat) : Steady (speculation mode fuel) := by
  cases mode with
  | script => exact ⟨Cursor.Leads.refl⟩
  | interactive => exact inferInstanceAs (Steady (trailing fuel))

instance steady_remainder {mode : Mode} {fuel rounds : Nat}
    [∀ done, Steady (programFrom mode fuel rounds done)] (done : List Stmt) (e : Option Expr) :
    Steady (remainder mode fuel rounds done e) := by
  cases e with
  | some e => exact Steady.pure _
  | none =>
    have hsteady : Steady (grammar fuel .declaration : Parser (Option Stmt)) :=
      steady_grammar fuel .declaration
    exact @Steady.bind _ _ (grammar fuel .declaration : Parser (Option Stmt)) _ hsteady
      fun s => inferInstance

instance (mode : Mode) (fuel rounds : Nat) (done : List Stmt) :
    Steady (programFrom mode fuel rounds done) := by
  refine ⟨fun c => ?_⟩
  induction rounds generalizing done c with
  | zero => exact .refl c
  | succ rounds ih =>
    by_cases hend : c.atEnd
    · rw [programFrom_atEnd mode rounds done hend]
      exact .refl c
    · have hlater (done : List Stmt) : Steady (programFrom mode fuel rounds done) := ⟨ih done⟩
      rw [programFrom_succ mode rounds done hend]
      exact Steady.leads c

end ScriptLang.Grammar
