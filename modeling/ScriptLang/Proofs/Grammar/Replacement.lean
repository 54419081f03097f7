import ScriptLang.Proofs.Grammar.ForLoops
import ScriptLang.Proofs.Grammar.Wants

/-!
# One grammar in place of another

A rule does the same over another grammar, and with more fuel for its loops, as long as the parts of
its run do. So what is known of the parts of a run, because the whole run ends in a certain way, is
enough to replace the grammar by another one (`Replaces`). Such an end is passed on to the parts if
it is one that no fault on the way could have come to (`Hereditary`).

There are two kinds of ends for which this is done. A run that does not spend its fuel is the same
with more fuel (`grammar_of_lasts`). A run that reports nothing is the same in the grammar that does
not recover from faults (`strictGrammar`), where no declaration is ever given up
(`strictGrammar_of_clean`).
-/

namespace ScriptLang.Grammar

variable {α β : Type}

/-! ## Ends of runs -/

/-- A condition on where a run of a parser starts and how it ends. -/
abbrev Ending := (α : Type) → Cursor → EStateM.Result Stop Cursor α → Prop

/-- If a run ends in such a way, so do its parts, and it does not end for want of fuel. -/
class Hereditary (K : Ending) : Prop where
  first : ∀ {α β : Type} {act : Parser α} {next : α → Parser β} [Steady act]
    [∀ a, Steady (next a)] {c : Cursor}, K β c ((act >>= next) c) → K α c (act c)
  second : ∀ {α β : Type} {act : Parser α} {next : α → Parser β} [Steady act]
    [∀ a, Steady (next a)] {c c' : Cursor} {a : α}, act c = .ok a c' →
      K β c ((act >>= next) c) → K β c' (next a c')
  lasts : ∀ {α : Type} {c c' : Cursor}, ¬ K α c (.error .exhausted c')
  strict : ∀ {g : Grammar} [∀ n, Steady (g n)] {fuel : Nat} {c : Cursor},
    K (Option Stmt) c (declaration g fuel c) → K Stmt c (strictDeclaration g fuel c)

/-- The run does not spend its fuel. -/
def Finished : Ending := fun _ _ end? => ∀ c', end? ≠ .error .exhausted c'

/-- The run has a result and reports nothing. -/
def Clean : Ending := fun _ c end? => ∃ a c', end? = .ok a c' ∧ c'.found = c.found

instance : Hereditary Finished where
  first := by
    intro α β act next _ _ c h c' hact
    refine h c' ?_
    rw [bind_eq_match, hact]
  second := by
    intro α β act next _ _ c c' a hact h
    rwa [bind_of_ok hact] at h
  lasts := fun h => h _ rfl
  strict := by
    intro g _ fuel c h c' hstrict
    refine h c' ?_
    unfold declaration
    rw [hstrict]

instance : Hereditary Clean where
  first := by
    rintro α β act next _ _ c ⟨b, c', hb, hfound⟩
    obtain ⟨a, c₁, hact, hfound₁, -⟩ := found_eq_of_bind hb hfound
    exact ⟨a, c₁, hact, hfound₁⟩
  second := by
    rintro α β act next _ _ c c' a hact ⟨b, c'', hb, hfound⟩
    obtain ⟨a', c₁, hact', hfound₁, hnext⟩ := found_eq_of_bind hb hfound
    cases hact.symm.trans hact'
    exact ⟨b, c'', hnext, hfound.trans hfound₁.symm⟩
  lasts := by
    rintro α c c' ⟨a, c'', h, -⟩
    cases h
  strict := by
    rintro g _ fuel c ⟨s, c', hs, hfound⟩
    cases s with
    | none => exact absurd hfound (found_ne_of_declaration_none hs)
    | some s => exact ⟨s, c', strictDeclaration_of_some hs, hfound⟩

/-! ## Parsers that may be replaced -/

/-- The parser moves forward, and where a run of it ends in such a way, the other one does the
same. -/
class Replaces (K : Ending) (act act' : Parser α) : Prop where
  steady : Steady act
  same : ∀ {c}, K α c (act c) → act' c = act c

variable {K : Ending} [Hereditary K]

namespace Replaces

variable {act act' act₁ act₁' : Parser α} {next next' : α → Parser β}

instance refl [Steady act] : Replaces K act act := ⟨inferInstance, fun _ => rfl⟩

instance exhausted : Replaces K (Grammar.exhausted : Parser α) act' :=
  ⟨inferInstance, fun h => absurd h Hereditary.lasts⟩

instance bind [hact : Replaces K act act'] [hnext : ∀ a, Replaces K (next a) (next' a)] :
    Replaces K (act >>= next) (act' >>= next') := by
  have := hact.steady
  have (a : α) : Steady (next a) := (hnext a).steady
  refine ⟨inferInstance, fun {c} h => ?_⟩
  have hact : act' c = act c := Replaces.same (Hereditary.first h)
  rw [bind_eq_match, bind_eq_match, hact]
  cases hend : act c with
  | ok a c' => exact Replaces.same (Hereditary.second hend h)
  | error stop c' => rfl

instance map [Replaces K act act'] (f : α → β) :
    Replaces K (f <$> act) (f <$> act') :=
  inferInstanceAs (Replaces K (act >>= fun a => pure (f a)) (act' >>= fun a => pure (f a)))

omit [Hereditary K] in
instance ite {p : Prop} [Decidable p] [Replaces K act act'] [Replaces K act₁ act₁'] :
    Replaces K (if p then act else act₁) (if p then act' else act₁') := by
  by_cases h : p
  · rwa [if_pos h, if_pos h]
  · rwa [if_neg h, if_neg h]

omit [Hereditary K] in
/-- At a place where both are written as parsers that may be replaced. -/
theorem at_eq {c : Cursor} [Replaces K act₁ act₁'] (heq : act c = act₁ c)
    (heq' : act' c = act₁' c) (h : K α c (act c)) : act' c = act c := by
  rw [heq] at h ⊢
  rw [heq']
  exact Replaces.same h

end Replaces

instance {kind : Kind} {act act' : Parser α} [Replaces K act act'] :
    Replaces K (following kind act) (following kind act') := by
  unfold following
  infer_instance

section Lists

variable {join : Kind → Option (Lexeme → Expr → Expr → Expr)} {operand operand' : Parser Expr}
  [hoperand : Replaces K operand operand'] {fuel k : Nat}

instance (left : Expr) : Replaces K (chainFrom join operand fuel left)
    (chainFrom join operand' (k + fuel) left) := by
  have := hoperand.steady
  induction fuel generalizing left with
  | zero => exact Replaces.exhausted
  | succ fuel ih =>
    refine ⟨inferInstance, fun {c} h => ?_⟩
    cases hnode : join c.kind with
    | none => exact (chainFrom_none hnode).trans (chainFrom_none hnode).symm
    | some node => exact Replaces.at_eq (chainFrom_some hnode) (chainFrom_some hnode) h

instance : Replaces K (chain join operand fuel) (chain join operand' (k + fuel)) := by
  unfold chain
  infer_instance

variable {item item' : Parser α} [Replaces K item item'] {tooMany : GrammarFault}
  {closing : SymbolPlace}

instance (listed : List α) : Replaces K (itemsFrom tooMany item fuel listed)
    (itemsFrom tooMany item' (k + fuel) listed) := by
  induction fuel generalizing listed with
  | zero => exact Replaces.exhausted
  | succ fuel ih =>
    rw [itemsFrom_succ, ← Nat.add_assoc, itemsFrom_succ]
    infer_instance

instance : Replaces K (listedBy tooMany item fuel) (listedBy tooMany item' (k + fuel)) := by
  unfold listedBy
  infer_instance

instance : Replaces K (items tooMany closing item fuel)
    (items tooMany closing item' (k + fuel)) := by
  rw [items_eq, items_eq]
  infer_instance

end Lists

/-! ## The rules -/

section Rules

variable {g r : Grammar} {fuel k : Nat} [∀ n, Steady (g n)] [∀ n, Replaces K (g n) (r n)]

instance (done : List Stmt) :
    Replaces K (declarationsFrom g fuel done) (declarationsFrom r (k + fuel) done) := by
  induction fuel generalizing done with
  | zero => exact Replaces.exhausted
  | succ fuel ih =>
    refine ⟨inferInstance, fun {c} h => ?_⟩
    by_cases hclosed : c.kind = .symbol .rightBrace ∨ c.atEnd
    · exact (declarationsFrom_closed hclosed).trans (declarationsFrom_closed hclosed).symm
    · exact Replaces.at_eq (declarationsFrom_open hclosed) (declarationsFrom_open hclosed) h

instance : Replaces K (block g fuel) (block r (k + fuel)) := by
  unfold block
  infer_instance

instance (kind : RoutineKind) : Replaces K (routine g fuel kind) (routine r (k + fuel) kind) := by
  rw [routine_eq, routine_eq]
  infer_instance

instance : Replaces K (primary g fuel) (primary r (k + fuel)) := by
  refine ⟨inferInstance, fun {c} h => ?_⟩
  unfold primary at h ⊢
  revert h
  split <;> intro h <;> first
    | rfl
    | exact Replaces.same h

instance (e : Expr) : Replaces K (suffixesFrom g fuel e) (suffixesFrom r (k + fuel) e) := by
  induction fuel generalizing e with
  | zero => exact Replaces.exhausted
  | succ fuel ih =>
    rw [suffixesFrom_succ, ← Nat.add_assoc, suffixesFrom_succ]
    infer_instance

instance : Replaces K (call g fuel) (call r (k + fuel)) := by
  unfold call
  infer_instance

instance replaces_unary : Replaces K (unary g fuel) (unary r (k + fuel)) := by
  refine ⟨inferInstance, fun {c} h => ?_⟩
  cases hop : unaryOp c.kind with
  | none => exact Replaces.at_eq (unary_none hop) (unary_none hop) h
  | some op => exact Replaces.at_eq (unary_some hop) (unary_some hop) h

instance : Replaces K (disjunction g fuel) (disjunction r (k + fuel)) := by
  unfold disjunction conjunction equality comparison sum product
  infer_instance

instance replaces_conditional : Replaces K (conditional g fuel) (conditional r (k + fuel)) := by
  unfold conditional
  infer_instance

instance replaces_assignment : Replaces K (assignment g fuel) (assignment r (k + fuel)) := by
  have hassigned := steady_assigned
  unfold assignment
  infer_instance

instance replaces_expression : Replaces K (expression g fuel) (expression r (k + fuel)) := by
  unfold expression
  infer_instance

instance : Replaces K (declarator g) (declarator r) := by
  unfold declarator
  infer_instance

instance (ds : List Declarator) :
    Replaces K (declaratorsFrom g fuel ds) (declaratorsFrom r (k + fuel) ds) := by
  induction fuel generalizing ds with
  | zero => exact Replaces.exhausted
  | succ fuel ih =>
    rw [declaratorsFrom_succ, ← Nat.add_assoc, declaratorsFrom_succ]
    infer_instance

instance : Replaces K (varDeclaration g fuel) (varDeclaration r (k + fuel)) := by
  unfold varDeclaration
  infer_instance

instance (s : Symbol) : Replaces K (clauseUpTo g s) (clauseUpTo r s) := by
  unfold clauseUpTo
  infer_instance

instance : Replaces K (expressionStatement g fuel) (expressionStatement r (k + fuel)) := by
  unfold expressionStatement
  infer_instance

instance : Replaces K (forInitializer g fuel) (forInitializer r (k + fuel)) := by
  unfold forInitializer
  infer_instance

set_option synthInstance.maxSize 512 in
instance : Replaces K (forStatement g fuel) (forStatement r (k + fuel)) := by
  unfold forStatement
  infer_instance

set_option synthInstance.maxSize 256 in
instance : Replaces K (ifStatement g) (ifStatement r) := by
  rw [ifStatement_eq, ifStatement_eq]
  infer_instance

instance replaces_statement : Replaces K (statement g fuel) (statement r (k + fuel)) := by
  refine ⟨inferInstance, fun {c} h => ?_⟩
  unfold statement printStatement returnStatement whileStatement blockStatement at h ⊢
  revert h
  split <;> intro h <;> first
    | rfl
    | exact Replaces.same h

instance (kind : RoutineKind) :
    Replaces K (namedRoutine g fuel kind) (namedRoutine r (k + fuel) kind) := by
  unfold namedRoutine
  infer_instance

instance (done : List Method) :
    Replaces K (methodsFrom g fuel done) (methodsFrom r (k + fuel) done) := by
  induction fuel generalizing done with
  | zero => exact Replaces.exhausted
  | succ fuel ih =>
    rw [methodsFrom, ← Nat.add_assoc, methodsFrom]
    infer_instance

set_option synthInstance.maxSize 256 in
instance : Replaces K (strictDeclaration g fuel) (strictDeclaration r (k + fuel)) := by
  refine ⟨inferInstance, fun {c} h => ?_⟩
  unfold strictDeclaration functionDeclaration at h ⊢
  rw [classDeclaration_eq] at h ⊢
  rw [classDeclaration_eq]
  revert h
  split <;> intro h
  · exact Replaces.same h
  · exact Replaces.same h
  · revert h
    split <;> intro h <;> exact Replaces.same h
  · exact Replaces.same h

instance replaces_declaration : Replaces K (declaration g fuel) (declaration r (k + fuel)) := by
  refine ⟨inferInstance, fun {c} h => ?_⟩
  have hstrict : strictDeclaration r (k + fuel) c = strictDeclaration g fuel c :=
    Replaces.same (Hereditary.strict h)
  unfold declaration
  rw [hstrict]

end Rules

/-! ## The grammar with more fuel -/

instance replaces_grammar (k fuel : Nat) (n : Nonterminal) :
    Replaces K (grammar fuel n) (grammar (k + fuel) n) := by
  induction fuel generalizing n with
  | zero => cases n <;> exact Replaces.exhausted
  | succ fuel ih =>
    cases n with
    | expression => exact replaces_expression (g := grammar fuel) (r := grammar (k + fuel))
    | assignment => exact replaces_assignment (g := grammar fuel) (r := grammar (k + fuel))
    | conditional => exact replaces_conditional (g := grammar fuel) (r := grammar (k + fuel))
    | unary => exact replaces_unary (g := grammar fuel) (r := grammar (k + fuel))
    | statement => exact replaces_statement (g := grammar fuel) (r := grammar (k + fuel))
    | declaration => exact replaces_declaration (g := grammar fuel) (r := grammar (k + fuel))

/-- A run that does not spend its fuel is the same with more of it. -/
theorem grammar_of_lasts {fuel fuel' : Nat} (hle : fuel ≤ fuel') {n : Nonterminal} {c : Cursor}
    (hlasts : ∀ c', grammar fuel n c ≠ .error .exhausted c') :
    grammar fuel' n c = grammar fuel n c := by
  obtain ⟨k, rfl⟩ := Nat.exists_eq_add_of_le' hle
  have hreplaces : Replaces Finished (grammar fuel n) (grammar (k + fuel) n) := inferInstance
  exact hreplaces.same hlasts

/-! ## The grammar without recovery -/

/-- The grammar in which a fault in a declaration ends the whole run. -/
def strictGrammar : Nat → (n : Nonterminal) → Cursor → EStateM.Result Stop Cursor n.Tree
  | 0, _, c => .error .exhausted c
  | fuel + 1, .expression, c => expression (strictGrammar fuel) (fuel + 1) c
  | fuel + 1, .assignment, c => assignment (strictGrammar fuel) (fuel + 1) c
  | fuel + 1, .conditional, c => conditional (strictGrammar fuel) (fuel + 1) c
  | fuel + 1, .unary, c => unary (strictGrammar fuel) (fuel + 1) c
  | fuel + 1, .statement, c => statement (strictGrammar fuel) (fuel + 1) c
  | fuel + 1, .declaration, c =>
    (some <$> strictDeclaration (strictGrammar fuel) (fuel + 1) : Parser (Option Stmt)) c

/-- A declaration is never given up. -/
theorem strictGrammar_ne_none {fuel : Nat} {c c' : Cursor} :
    strictGrammar fuel .declaration c ≠ .ok none c' := by
  cases fuel with
  | zero => exact nofun
  | succ fuel =>
    intro h
    change (some <$> strictDeclaration (strictGrammar fuel) (fuel + 1) : Parser (Option Stmt)) c = _
      at h
    rw [map_eq_match] at h
    cases hend : strictDeclaration (strictGrammar fuel) (fuel + 1) c <;> rw [hend] at h <;> cases h

/-- A declaration that reports nothing has not recovered from a fault. -/
theorem replaces_recovery {g r : Grammar} {fuel k : Nat} [∀ n, Steady (g n)]
    [∀ n, Replaces Clean (g n) (r n)] :
    Replaces Clean (declaration g fuel) (some <$> strictDeclaration r (k + fuel)) := by
  refine ⟨inferInstance, fun {c} h => ?_⟩
  have hstrict : strictDeclaration r (k + fuel) c = strictDeclaration g fuel c :=
    Replaces.same (Hereditary.strict h)
  obtain ⟨s, c', hs, hfound⟩ := h
  cases s with
  | none => exact absurd hfound (found_ne_of_declaration_none hs)
  | some s =>
    rw [strictDeclaration_of_some hs] at hstrict
    rw [hs, map_eq_match, hstrict]

instance replaces_strictGrammar (k fuel : Nat) (n : Nonterminal) :
    Replaces Clean (grammar fuel n) (strictGrammar (k + fuel) n) := by
  induction fuel generalizing n with
  | zero => cases n <;> exact Replaces.exhausted
  | succ fuel ih =>
    cases n with
    | expression => exact replaces_expression (g := grammar fuel) (r := strictGrammar (k + fuel))
    | assignment => exact replaces_assignment (g := grammar fuel) (r := strictGrammar (k + fuel))
    | conditional =>
      exact replaces_conditional (g := grammar fuel) (r := strictGrammar (k + fuel))
    | unary => exact replaces_unary (g := grammar fuel) (r := strictGrammar (k + fuel))
    | statement => exact replaces_statement (g := grammar fuel) (r := strictGrammar (k + fuel))
    | declaration => exact replaces_recovery (g := grammar fuel) (r := strictGrammar (k + fuel))

/-- Where nothing is reported, nothing is recovered from. -/
theorem strictGrammar_of_clean {fuel : Nat} {n : Nonterminal} {c c' : Cursor} {t : n.Tree}
    (h : grammar fuel n c = .ok t c') (hfound : c'.found = c.found) :
    strictGrammar fuel n c = .ok t c' := by
  have hreplaces : Replaces Clean (grammar fuel n) (strictGrammar (0 + fuel) n) := inferInstance
  rw [Nat.zero_add] at hreplaces
  exact (hreplaces.same ⟨t, c', h, hfound⟩).trans h

end ScriptLang.Grammar
