import ScriptLang.Proofs.Grammar.Grammatical
import ScriptLang.Proofs.Grammar.Rules
import ScriptLang.Proofs.Program.Vocabulary

/-!
# Words are tokens

If `P` holds of all tokens, it holds of the words of all expressions that a rule of the grammar
builds from them, each at the kind that its place asks for. The tokens need not come from a source,
and the input may have faults: what was built before a fault, or is built after it, has such words,
too.

A rule builds a tree from smaller ones, so the argument goes along the sequence that the rule is
(`Builds`), and by induction on the depth of nesting through the grammar (`worded_grammar`).
-/

namespace ScriptLang

namespace Grammar

variable {α β : Type} {ts : List Token} {P : Kind → Lexeme → Prop}

/-! ## Building -/

/-- If all that is left is among the tokens, a result is as `good` asks. -/
def Builds (ts : List Token) (act : Parser α) (c : Cursor) (good : α → Prop) : Prop :=
  (∀ t ∈ c.rest, t ∈ ts) → ∀ a c', act c = .ok a c' → good a

section Rules

variable {act act' : Parser α} {next : α → Parser β} {c : Cursor} {good : α → Prop}
  {after : β → Prop}

theorem builds_pure {a : α} (h : good a) : Builds ts (pure a) c good := by
  rintro - a' c' hact
  cases hact
  exact h

theorem builds_exhausted : Builds ts (exhausted : Parser α) c good := by
  rintro - a c' hact
  cases hact

theorem Builds.of_eq (h : Builds ts act' c good) (heq : act c = act' c) :
    Builds ts act c good := fun hc a c' hact => h hc a c' (heq ▸ hact)

theorem builds_bind [Steady act] (hact : Builds ts act c good)
    (hnext : ∀ a c', good a → Builds ts (next a) c' after) : Builds ts (act >>= next) c after := by
  intro hc b c' hb
  obtain ⟨a, c₁, hend, hb⟩ := bind_eq_ok hb
  have hrest : ∀ t ∈ c₁.rest, t ∈ c.rest := fun t ht => (Steady.of_ok hend).rest.subset ht
  exact hnext a c₁ (hact hc a c₁ hend) (fun t ht => hc t (hrest t ht)) b c' hb

/-- What is read first is not used for the tree. -/
theorem builds_after [Steady act] (hnext : ∀ a c', Builds ts (next a) c' after) :
    Builds ts (act >>= next) c after := by
  have hact : Builds ts act c fun _ => True := fun _ _ _ _ => trivial
  exact builds_bind hact fun a c' _ => hnext a c'

theorem builds_map_some [Steady act] (hact : Builds ts act c good) :
    Builds ts (some <$> act) c fun x => ∀ a ∈ x, good a := by
  change Builds ts (act >>= fun a => pure (some a)) c _
  refine builds_bind hact fun a c' ha => builds_pure fun a' ha' => ?_
  cases ha'
  exact ha

theorem builds_ite {p : Prop} [Decidable p] (htrue : p → Builds ts act c good)
    (hfalse : ¬ p → Builds ts act' c good) : Builds ts (if p then act else act') c good := by
  by_cases h : p
  · rw [if_pos h]
    exact htrue h
  · rw [if_neg h]
    exact hfalse h

theorem builds_following {kind : Kind} [Steady act] (hact : ∀ c, Builds ts act c good) :
    Builds ts (following kind act) c fun x => ∀ a ∈ x, good a := by
  unfold following
  refine builds_after fun more c₁ => builds_ite (fun _ => ?_) fun _ => builds_pure (by simp)
  exact builds_map_some (hact c₁)

end Rules

section Lists

variable {fuel : Nat} {c : Cursor} {item : Parser α} [Steady item] {tooMany : GrammarFault}
  {good : α → Prop}

theorem builds_itemsFrom (hitem : ∀ c, Builds ts item c good) {listed : List α}
    (hlisted : ∀ x ∈ listed, good x) :
    Builds ts (itemsFrom tooMany item fuel listed) c fun xs => ∀ x ∈ xs, good x := by
  induction fuel generalizing listed c with
  | zero => exact builds_exhausted
  | succ fuel ih =>
    rw [itemsFrom_succ]
    refine builds_after fun _ c₁ => builds_bind (hitem c₁) fun x c₂ hx => ?_
    have hmore : ∀ y ∈ listed ++ [x], good y := by
      intro y hy
      rcases List.mem_append.mp hy with hy | hy
      · exact hlisted y hy
      · rwa [List.mem_singleton.mp hy]
    exact builds_after fun more c₃ => builds_ite (fun _ => ih hmore) fun _ => builds_pure hmore

theorem builds_listedBy (hitem : ∀ c, Builds ts item c good) :
    Builds ts (listedBy tooMany item fuel) c fun xs => ∀ x ∈ xs, good x := by
  unfold listedBy
  refine builds_after fun empty c₁ => builds_ite (fun _ => builds_pure (by simp)) fun _ => ?_
  exact builds_itemsFrom hitem (by simp)

end Lists

/-! ## Single tokens -/

theorem Cursor.next_mem_rest {c : Cursor} (h : c.kind ≠ .endOfInput) : c.next ∈ c.rest := by
  unfold Cursor.kind Cursor.next at h
  unfold Cursor.next
  cases hrest : c.rest with
  | nil => simp [hrest, Token.endOfInput] at h
  | cons t rest => exact List.mem_cons_self

section Tokens

variable (hts : ∀ t ∈ ts, t.kind ≠ .endOfInput → P t.kind t.lexeme) {c : Cursor}
include hts

theorem worded_next (hc : ∀ t ∈ c.rest, t ∈ ts) {kind : Kind} (hkind : c.kind = kind)
    (hend : kind ≠ .endOfInput) : P kind c.next.lexeme := by
  subst hkind
  exact hts c.next (hc _ (Cursor.next_mem_rest hend)) hend

theorem worded_take {next : Token → Parser β} {after : β → Prop} {kind : Kind}
    (hkind : c.kind = kind) (hend : kind ≠ .endOfInput)
    (hnext : ∀ t c', P kind t.lexeme → Builds ts (next t) c' after) :
    Builds ts (take >>= next) c after := by
  intro hc b c' hb
  have hrest : ∀ t ∈ c.advance.rest, t ∈ ts := fun t ht => hc t (List.mem_of_mem_tail ht)
  exact hnext c.next c.advance (worded_next hts hc hkind hend) hrest b c' hb

theorem worded_identifier (place : NamePlace) : Builds ts (identifier place) c (P .identifier) := by
  intro hc word c' hword
  unfold identifier at hword
  split at hword
  · rename_i hkind
    cases hword
    exact worded_next hts hc hkind (by simp)
  · cases hword

theorem worded_symbol (place : SymbolPlace) :
    Builds ts (symbol place) c fun t => P (.symbol place.symbol) t.lexeme := by
  intro hc t c' ht
  unfold symbol at ht
  split at ht
  · rename_i hkind
    cases ht
    exact worded_next hts hc hkind (by simp)
  · cases ht

omit hts in
theorem worded_fresh {kind : Kind} {word : Lexeme} (h : P kind word) :
    Builds ts (fresh word) c fun ref => P kind ref.word := by
  rintro - ref c' href
  cases href
  exact h

/-! ## Lists -/

/-- Two expressions are joined by a word that `P` holds of. -/
def Links (P : Kind → Lexeme → Prop) (join : Kind → Option (Lexeme → Expr → Expr → Expr)) : Prop :=
  ∀ kind node, join kind = some node → kind ≠ .endOfInput ∧ ∀ word left right,
    P kind word → left.Worded P → right.Worded P → (node word left right).Worded P

omit hts in
theorem links_rank (rank : Rank) : Links P rank.join := by
  intro kind node hnode
  obtain ⟨op, -, rfl, rfl⟩ | ⟨op, -, rfl, rfl⟩ := Rank.join_eq_some hnode
  · exact ⟨by simp, fun word left right hword hleft hright => ⟨hword, hleft, hright⟩⟩
  · exact ⟨by simp, fun word left right hword hleft hright => ⟨hword, hleft, hright⟩⟩

omit hts in
theorem links_comma : Links P commaJoin := by
  intro kind node hnode
  unfold commaJoin at hnode
  split at hnode <;> cases hnode
  exact ⟨by simp, fun word left right _ hleft hright => ⟨hleft, hright⟩⟩

section Lists

variable {join : Kind → Option (Lexeme → Expr → Expr → Expr)} {operand : Parser Expr}
  [Steady operand] {fuel : Nat}

theorem worded_chainFrom (hjoin : Links P join)
    (hoperand : ∀ c, Builds ts operand c (Expr.Worded P)) {left : Expr} (hleft : left.Worded P) :
    Builds ts (chainFrom join operand fuel left) c (Expr.Worded P) := by
  induction fuel generalizing left c with
  | zero => exact builds_exhausted
  | succ fuel ih =>
    cases hnode : join c.kind with
    | none => exact (builds_pure hleft).of_eq (chainFrom_none hnode)
    | some node =>
      obtain ⟨hend, hworded⟩ := hjoin _ node hnode
      refine Builds.of_eq ?_ (chainFrom_some hnode)
      refine worded_take hts rfl hend fun word c₁ hword => ?_
      refine builds_bind (hoperand c₁) fun right c₂ hright => ?_
      exact ih (hworded _ _ _ hword hleft hright)

theorem worded_chain (hjoin : Links P join)
    (hoperand : ∀ c, Builds ts operand c (Expr.Worded P)) :
    Builds ts (chain join operand fuel) c (Expr.Worded P) := by
  unfold chain
  exact builds_bind (hoperand c) fun left c₁ hleft => worded_chainFrom hts hjoin hoperand hleft

variable {item : Parser α} [Steady item] {tooMany : GrammarFault} {closing : SymbolPlace}
  {good : α → Prop}

/-- The items are as good as each of them, and the closing token is a word, too. -/
theorem worded_items (hitem : ∀ c, Builds ts item c good) :
    Builds ts (items tooMany closing item fuel) c fun xs =>
      (∀ x ∈ xs.1, good x) ∧ P (.symbol closing.symbol) xs.2.lexeme := by
  rw [items_eq]
  refine builds_bind (builds_listedBy hitem) fun xs c₁ hxs => ?_
  exact builds_bind (worded_symbol hts closing) fun close c₂ hclose => builds_pure ⟨hxs, hclose⟩

end Lists

/-! ## The rules -/

/-- `P` holds of the words of the expressions in a tree of a nonterminal. -/
def Nonterminal.Worded (P : Kind → Lexeme → Prop) : (n : Nonterminal) → n.Tree → Prop
  | .expression, e => e.Worded P
  | .assignment, e => e.Worded P
  | .conditional, e => e.Worded P
  | .unary, e => e.Worded P
  | .statement, s => s.Worded P
  | .declaration, s => ∀ s' ∈ s, s'.Worded P

section Rules

variable {g : Grammar} {fuel : Nat} [∀ n, Steady (g n)]
  (hg : ∀ n c, Builds ts (g n) c (n.Worded P))

section Blocks

omit hts
include hg

theorem worded_declarationsFrom {done : List Stmt} (hdone : ∀ s ∈ done, s.Worded P) :
    Builds ts (declarationsFrom g fuel done) c (Stmt.AllWorded P) := by
  induction fuel generalizing done c with
  | zero => exact builds_exhausted
  | succ fuel ih =>
    by_cases hclosed : c.kind = .symbol .rightBrace ∨ c.atEnd
    · refine (builds_pure ?_).of_eq (declarationsFrom_closed hclosed)
      exact Stmt.allWorded_iff.mpr fun s hs => hdone s (List.mem_reverse.mp hs)
    · refine Builds.of_eq ?_ (declarationsFrom_open hclosed)
      refine builds_bind (hg .declaration c) fun s c₁ hs => ih fun s' hs' => ?_
      rcases List.mem_append.mp hs' with hs' | hs'
      · exact hs s' (Option.mem_toList.mp hs')
      · exact hdone s' hs'

theorem worded_block : Builds ts (block g fuel) c (Stmt.AllWorded P) := by
  unfold block
  refine builds_bind (worded_declarationsFrom hg (by simp)) fun body c₁ hbody => ?_
  exact builds_after fun _ c₂ => builds_pure hbody

theorem worded_routine (kind : RoutineKind) :
    Builds ts (routine g fuel kind) c (Routine.Worded P) := by
  rw [routine_eq]
  refine builds_after fun params c₁ => builds_after fun _ c₂ => ?_
  exact builds_bind (worded_block hg) fun body c₃ hbody => builds_pure hbody

end Blocks

include hg

/-! ### Expressions -/

theorem worded_primary : Builds ts (primary g fuel) c (Expr.Worded P) := by
  intro hc
  unfold primary
  split
  · rintro e c' ⟨⟩
    exact trivial
  · rintro e c' ⟨⟩
    exact trivial
  · rintro e c' ⟨⟩
    exact trivial
  · rintro e c' ⟨⟩
    exact trivial
  · rintro e c' ⟨⟩
    exact trivial
  · rename_i hkind
    refine worded_take hts hkind (by simp) (fun word c₁ hword => ?_) hc
    exact builds_bind (worded_fresh hword) fun ref c₂ href => builds_pure href
  · rename_i hkind
    refine worded_take hts hkind (by simp) (fun word c₁ hword => ?_) hc
    exact builds_bind (worded_fresh hword) fun ref c₂ href => builds_pure href
  · rename_i hkind
    refine worded_take hts hkind (by simp) (fun word c₁ hword => builds_after fun _ c₂ => ?_) hc
    refine builds_bind (worded_identifier hts _) fun method c₃ hmethod => ?_
    exact builds_bind (worded_fresh hword) fun ref c₄ href => builds_pure ⟨href, hmethod⟩
  · refine builds_after (fun word c₁ => builds_after fun _ c₂ => ?_) hc
    refine builds_bind (worded_routine hg .function) fun r c₃ hr => builds_pure ?_
    obtain ⟨params, body⟩ := r
    exact hr
  · refine builds_after (fun word c₁ => ?_) hc
    refine builds_bind (hg .expression c₁) fun inner c₂ hinner => ?_
    exact builds_after fun _ c₃ => builds_pure hinner
  · rintro a c' ⟨⟩

theorem worded_suffixesFrom {e : Expr} (he : e.Worded P) :
    Builds ts (suffixesFrom g fuel e) c (Expr.Worded P) := by
  induction fuel generalizing e c with
  | zero => exact builds_exhausted
  | succ fuel ih =>
    rw [suffixesFrom_succ]
    refine builds_after fun called c₁ => builds_ite (fun _ => ?_) fun _ => ?_
    · refine builds_bind (worded_items hts (hg .assignment)) fun listed c₂ hlisted => ih ?_
      exact ⟨he, Expr.allWorded_iff.mpr hlisted.1, hlisted.2⟩
    · refine builds_after fun dotted c₂ => builds_ite (fun _ => ?_) fun _ => builds_pure he
      exact builds_bind (worded_identifier hts _) fun property c₃ hproperty => ih ⟨he, hproperty⟩

theorem worded_call : Builds ts (call g fuel) c (Expr.Worded P) := by
  unfold call
  exact builds_bind (worded_primary hts hg) fun e c₁ he => worded_suffixesFrom hts hg he

omit hts [∀ n, Steady (g n)] hg in
theorem kind_of_unaryOp {kind : Kind} {op : UnaryOp} (h : unaryOp kind = some op) :
    kind = .symbol op.symbol := by
  unfold unaryOp at h
  split at h <;> cases h <;> rfl

theorem worded_unary : Builds ts (unary g fuel) c (Expr.Worded P) := by
  cases hop : unaryOp c.kind with
  | none => exact (worded_call hts hg).of_eq (unary_none hop)
  | some op =>
    refine Builds.of_eq ?_ (unary_some hop)
    refine worded_take hts (kind_of_unaryOp hop) (by simp) fun word c₁ hword => ?_
    exact builds_bind (hg .unary c₁) fun operand c₂ hoperand => builds_pure ⟨hword, hoperand⟩

theorem worded_disjunction : Builds ts (disjunction g fuel) c (Expr.Worded P) :=
  worded_chain hts (links_rank .disjunction) fun _ =>
    worded_chain hts (links_rank .conjunction) fun _ =>
      worded_chain hts (links_rank .equality) fun _ =>
        worded_chain hts (links_rank .comparison) fun _ =>
          worded_chain hts (links_rank .sum) fun _ =>
            worded_chain hts (links_rank .product) fun _ => worded_unary hts hg

theorem worded_conditional : Builds ts (conditional g fuel) c (Expr.Worded P) := by
  unfold conditional
  refine builds_bind (worded_disjunction hts hg) fun condition c₁ hcondition => ?_
  refine builds_after fun more c₂ => builds_ite (fun _ => ?_) fun _ => builds_pure hcondition
  refine builds_bind (hg .expression c₂) fun whenTrue c₃ hwhenTrue => builds_after fun _ c₄ => ?_
  exact builds_bind (hg .conditional c₄) fun whenFalse c₅ hwhenFalse =>
    builds_pure ⟨hcondition, hwhenTrue, hwhenFalse⟩

omit hts [∀ n, Steady (g n)] hg in
theorem worded_assignTo? {target value e : Expr} (htarget : target.Worded P)
    (hvalue : value.Worded P) (h : assignTo? target value = some e) : e.Worded P := by
  unfold assignTo? at h
  split at h
  · cases h
    exact ⟨htarget, hvalue⟩
  · cases h
    exact ⟨htarget.1, htarget.2, hvalue⟩
  · cases h

theorem worded_assignment : Builds ts (assignment g fuel) c (Expr.Worded P) := by
  unfold assignment
  refine builds_bind (worded_conditional hts hg) fun target c₁ htarget => ?_
  refine builds_after fun assigned c₂ => builds_ite (fun _ => ?_) fun _ => builds_pure htarget
  refine builds_after fun equals c₃ => builds_bind (hg .assignment c₃) fun value c₄ hvalue => ?_
  cases hassign : assignTo? target value with
  | some e => exact builds_pure (worded_assignTo? htarget hvalue hassign)
  | none => exact builds_after fun _ c₅ => builds_pure htarget

theorem worded_expression : Builds ts (expression g fuel) c (Expr.Worded P) :=
  worded_chain hts links_comma fun _ => worded_assignment hts hg

/-! ### Statements -/

omit hts in
theorem worded_declarator :
    Builds ts (declarator g) c fun d => ∀ e ∈ d.initializer, e.Worded P := by
  unfold declarator
  refine builds_after fun name c₁ => ?_
  exact builds_bind (builds_following (hg .assignment)) fun value c₂ hvalue => builds_pure hvalue

omit hts in
theorem worded_declaratorsFrom {ds : List Declarator} (hds : Declarator.AllWorded P ds) :
    Builds ts (declaratorsFrom g fuel ds) c (Declarator.AllWorded P) := by
  induction fuel generalizing ds c with
  | zero => exact builds_exhausted
  | succ fuel ih =>
    rw [declaratorsFrom_succ]
    refine builds_after fun token c₁ => builds_bind (worded_declarator hg) fun d c₂ hd => ?_
    refine builds_bind (?_ : Builds ts _ c₂ (Declarator.AllWorded P)) fun ds c₃ hds => ?_
    · refine builds_ite (fun _ => builds_after fun _ c₃ => builds_pure hds) fun _ => ?_
      refine builds_pure (Declarator.allWorded_iff.mpr fun d' hd' => ?_)
      rcases List.mem_append.mp hd' with hd' | hd'
      · exact Declarator.allWorded_iff.mp hds d' hd'
      · rwa [List.mem_singleton.mp hd']
    · exact builds_after fun more c₄ => builds_ite (fun _ => ih hds) fun _ => builds_pure hds

omit hts in
theorem worded_varDeclaration : Builds ts (varDeclaration g fuel) c (Stmt.Worded P) := by
  unfold varDeclaration
  refine builds_after fun _ c₁ => ?_
  refine builds_bind (worded_declaratorsFrom hg trivial) fun ds c₂ hds => ?_
  exact builds_after fun _ c₃ => builds_pure hds

theorem worded_expressionStatement : Builds ts (expressionStatement g fuel) c (Stmt.Worded P) := by
  unfold expressionStatement
  refine builds_bind (worded_expression hts hg) fun e c₁ he => ?_
  exact builds_after fun _ c₂ => builds_pure he

omit hts in
theorem worded_clauseUpTo (s : Symbol) :
    Builds ts (clauseUpTo g s) c fun x => ∀ e ∈ x, e.Worded P := by
  unfold clauseUpTo
  refine builds_after fun missing c₁ => builds_ite (fun _ => builds_pure (by simp)) fun _ => ?_
  exact builds_map_some (hg .expression c₁)

theorem worded_forInitializer :
    Builds ts (forInitializer g fuel) c fun x => ∀ s ∈ x, s.Worded P := by
  unfold forInitializer
  refine builds_after fun missing c₁ => builds_ite (fun _ => builds_pure (by simp)) fun _ => ?_
  refine builds_after fun declares c₂ => builds_ite (fun _ => ?_) fun _ => ?_
  · exact builds_map_some (worded_varDeclaration hg)
  · exact builds_map_some (worded_expressionStatement hts hg)

theorem worded_forStatement : Builds ts (forStatement g fuel) c (Stmt.Worded P) := by
  unfold forStatement
  refine builds_after fun _ c₁ => builds_after fun _ c₂ => ?_
  refine builds_bind (worded_forInitializer hts hg) fun initializer c₃ hinitializer => ?_
  refine builds_bind (worded_clauseUpTo hg _) fun condition c₄ hcondition => ?_
  refine builds_after fun _ c₅ => ?_
  refine builds_bind (worded_clauseUpTo hg _) fun increment c₆ hincrement => ?_
  refine builds_after fun _ c₇ => builds_bind (hg .statement c₇) fun body c₈ hbody => ?_
  exact builds_pure (Stmt.worded_forLoop hinitializer hcondition hincrement hbody)

omit hts in
theorem worded_ifStatement : Builds ts (ifStatement g) c (Stmt.Worded P) := by
  rw [ifStatement_eq]
  refine builds_after fun _ c₁ => builds_after fun _ c₂ => ?_
  refine builds_bind (hg .expression c₂) fun condition c₃ hcondition => builds_after fun _ c₄ => ?_
  refine builds_bind (hg .statement c₄) fun whenTrue c₅ hwhenTrue => ?_
  refine builds_bind (builds_following (hg .statement)) fun whenFalse c₆ hwhenFalse => ?_
  refine builds_pure ?_
  cases whenFalse with
  | none => exact ⟨hcondition, hwhenTrue⟩
  | some s => exact ⟨hcondition, hwhenTrue, hwhenFalse s rfl⟩

omit hts in
theorem worded_printStatement : Builds ts (printStatement g) c (Stmt.Worded P) := by
  unfold printStatement
  refine builds_after fun _ c₁ => builds_bind (hg .expression c₁) fun e c₂ he => ?_
  exact builds_after fun _ c₃ => builds_pure he

omit hts in
theorem worded_returnStatement : Builds ts (returnStatement g) c (Stmt.Worded P) := by
  unfold returnStatement
  refine builds_after fun keyword c₁ => ?_
  refine builds_bind (worded_clauseUpTo hg _) fun value c₂ hvalue => ?_
  refine builds_after fun _ c₃ => builds_pure ?_
  cases value with
  | none => exact trivial
  | some e => exact hvalue e rfl

omit hts in
theorem worded_whileStatement : Builds ts (whileStatement g) c (Stmt.Worded P) := by
  unfold whileStatement
  refine builds_after fun _ c₁ => builds_after fun _ c₂ => ?_
  refine builds_bind (hg .expression c₂) fun condition c₃ hcondition => builds_after fun _ c₄ => ?_
  exact builds_bind (hg .statement c₄) fun body c₅ hbody => builds_pure ⟨hcondition, hbody⟩

omit hts in
theorem worded_blockStatement : Builds ts (blockStatement g fuel) c (Stmt.Worded P) := by
  unfold blockStatement
  refine builds_after fun _ c₁ => ?_
  exact builds_bind (worded_block hg) fun body c₂ hbody => builds_pure hbody

theorem worded_statement : Builds ts (statement g fuel) c (Stmt.Worded P) := by
  intro hc
  unfold statement
  split
  · unfold breakStatement
    exact builds_after (fun keyword c₁ => builds_after fun _ c₂ => builds_pure trivial) hc
  · exact worded_forStatement hts hg hc
  · exact worded_ifStatement hg hc
  · exact worded_printStatement hg hc
  · exact worded_returnStatement hg hc
  · exact worded_whileStatement hg hc
  · exact worded_blockStatement hg hc
  · exact worded_expressionStatement hts hg hc

/-! ### Declarations -/

omit hts in
theorem worded_namedRoutine (kind : RoutineKind) :
    Builds ts (namedRoutine g fuel kind) c fun m => m.routine.Worded P := by
  unfold namedRoutine
  refine builds_after fun name c₁ => builds_after fun _ c₂ => ?_
  exact builds_bind (worded_routine hg kind) fun r c₃ hr => builds_pure hr

omit hts in
theorem worded_functionDeclaration : Builds ts (functionDeclaration g fuel) c (Stmt.Worded P) := by
  unfold functionDeclaration
  refine builds_after fun _ c₁ => ?_
  refine builds_bind (worded_namedRoutine hg .function) fun m c₂ hm => builds_pure ?_
  obtain ⟨name, params, body⟩ := m
  exact hm

omit hts in
theorem worded_methodsFrom {done : List Method} (hdone : ∀ m ∈ done, m.routine.Worded P) :
    Builds ts (methodsFrom g fuel done) c (Method.AllWorded P) := by
  induction fuel generalizing done c with
  | zero => exact builds_exhausted
  | succ fuel ih =>
    rw [methodsFrom]
    refine builds_after fun closed c₁ => builds_after fun ended c₂ => ?_
    refine builds_ite (fun _ => builds_pure ?_) fun _ => ?_
    · exact Method.allWorded_iff.mpr fun m hm => hdone m (List.mem_reverse.mp hm)
    · refine builds_bind (worded_namedRoutine hg .method) fun m c₃ hm => ih ?_
      exact List.forall_mem_cons.mpr ⟨hm, hdone⟩

theorem worded_classDeclaration : Builds ts (classDeclaration g fuel) c (Stmt.Worded P) := by
  have hname (c : Cursor) : Builds ts (identifier .superclass >>= fresh) c fun ref =>
      P .identifier ref.word :=
    builds_bind (worded_identifier hts _) fun name c₁ hname => worded_fresh hname
  rw [classDeclaration_eq]
  refine builds_after fun _ c₁ => builds_after fun name c₂ => ?_
  refine builds_bind (builds_following hname) fun superclass c₃ hsuperclass => ?_
  refine builds_after fun _ c₄ => ?_
  refine builds_bind (worded_methodsFrom hg (by simp)) fun members c₅ hmembers => ?_
  exact builds_after fun _ c₆ => builds_pure ⟨hsuperclass, hmembers⟩

theorem worded_strictDeclaration : Builds ts (strictDeclaration g fuel) c (Stmt.Worded P) := by
  intro hc
  unfold strictDeclaration
  split
  · exact worded_classDeclaration hts hg hc
  · exact worded_varDeclaration hg hc
  · split
    · exact worded_functionDeclaration hg hc
    · exact worded_statement hts hg hc
  · exact worded_statement hts hg hc

theorem worded_declaration :
    Builds ts (declaration g fuel) c fun s => ∀ s' ∈ s, s'.Worded P := by
  intro hc s c' hs
  unfold declaration at hs
  cases hend : strictDeclaration g fuel c with
  | ok s' c₁ =>
    rw [hend] at hs
    cases hs
    intro s'' hs''
    cases hs''
    exact worded_strictDeclaration hts hg hc _ _ hend
  | error stop c₁ =>
    rw [hend] at hs
    cases stop with
    | fault d =>
      cases hs
      simp
    | exhausted => cases hs

end Rules

/-! ## The grammar -/

theorem worded_grammar (fuel : Nat) (n : Nonterminal) (c : Cursor) :
    Builds ts (grammar fuel n) c (n.Worded P) := by
  induction fuel generalizing n c with
  | zero => rintro - a c' hact; cases n <;> cases hact
  | succ fuel ih =>
    cases n with
    | expression => exact worded_expression hts ih
    | assignment => exact worded_assignment hts ih
    | conditional => exact worded_conditional hts ih
    | unary => exact worded_unary hts ih
    | statement => exact worded_statement hts ih
    | declaration => exact worded_declaration hts ih

/-! ## Programs -/

variable {fuel rounds : Nat} {mode : Mode}

theorem worded_speculation :
    Builds ts (speculation mode fuel) c fun x => ∀ e ∈ x, e.Worded P := by
  cases mode with
  | script => exact builds_pure (by simp)
  | interactive =>
    intro hc x c' hx
    obtain ⟨e, c₁, htrailing, hread, -, -⟩ | ⟨n, -, htrailing⟩ | ⟨c₁, htrailing, -⟩ :=
      trailing_cases fuel c
    · cases htrailing.symm.trans hx
      intro e' he'
      cases he'
      exact worded_grammar hts fuel .expression c hc e _ hread
    · cases htrailing.symm.trans hx
      simp
    · cases htrailing.symm.trans hx

theorem worded_programFrom {done : List Stmt} (hdone : ∀ s ∈ done, s.Worded P) :
    Builds ts (programFrom mode fuel rounds done) c (Program.Worded P) := by
  have hreverse : Stmt.AllWorded P done.reverse :=
    Stmt.allWorded_iff.mpr fun s hs => hdone s (List.mem_reverse.mp hs)
  induction rounds generalizing done c with
  | zero => exact builds_exhausted
  | succ rounds ih =>
    by_cases hend : c.atEnd
    · exact (builds_pure ⟨hreverse, by simp⟩).of_eq (programFrom_atEnd mode rounds done hend)
    · refine Builds.of_eq ?_ (programFrom_succ mode rounds done hend)
      refine builds_bind (worded_speculation hts) fun e c₁ he => ?_
      cases e with
      | some e => exact builds_pure ⟨hreverse, he⟩
      | none =>
        have hsteady : Steady (grammar fuel .declaration : Parser (Option Stmt)) :=
          steady_grammar fuel .declaration
        refine builds_bind (worded_grammar hts fuel .declaration c₁) fun s c₂ hs => ?_
        have hmore : ∀ s' ∈ s.toList ++ done, s'.Worded P := by
          intro s' hs'
          rcases List.mem_append.mp hs' with hs' | hs'
          · exact hs s' (Option.mem_toList.mp hs')
          · exact hdone s' hs'
        exact ih hmore (Stmt.allWorded_iff.mpr fun s hs => hmore s (List.mem_reverse.mp hs))

end Tokens

end Grammar

/-- What holds of the tokens holds of the words of the expressions in a parsed program. -/
theorem Program.worded_of_parse {P : Kind → Lexeme → Prop} {ts : List Token} {mode : Mode}
    {nextRef : Nat} {p : Program} (hts : ∀ t ∈ ts, t.kind ≠ .endOfInput → P t.kind t.lexeme)
    (h : (Program.parse ts mode nextRef).result = .ok p) : p.Worded P := by
  unfold Program.parse at h
  cases hend : Grammar.program mode (.start ts nextRef) with
  | error stop c =>
    rw [hend] at h
    cases h
  | ok p' c =>
    rw [hend] at h
    dsimp only at h
    split at h
    · cases h
      exact Grammar.worded_programFrom hts (by simp) (fun _ ht => ht) _ _ hend
    · cases h

end ScriptLang
