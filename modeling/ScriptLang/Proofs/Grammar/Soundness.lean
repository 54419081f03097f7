import ScriptLang.Proofs.Grammar.Acceptance

/-!
# Soundness of the grammar

What is accepted without a diagnostic is grammatical, and its tree has exactly the words that
were read, in their order. Every rule of the grammar accepts what it should if the nonterminals
in it do (`Sound`), so by induction on the depth of nesting the grammar does (`sound_grammar`),
and a program that is parsed from a source is written back as the tokens of that source
(`Program.words_of_parse`).
-/

namespace ScriptLang.Grammar

variable {g : Grammar} {fuel : Nat} {c : Cursor}
variable [∀ n, Steady (g n)]

/-! ## Blocks and routines -/

theorem accepts_declarationsFrom (hg : Sound g) {done : List Stmt} (hc : c.Plain)
    (hdone : Stmt.AllGrammatical done.reverse) :
    Accepts (declarationsFrom g fuel done) c fun body ws _ =>
      Stmt.listWords body = Stmt.listWords done.reverse ++ ws ∧ Stmt.AllGrammatical body := by
  induction fuel generalizing done c with
  | zero => exact accepts_of_error rfl
  | succ fuel ih =>
    by_cases hclosed : c.kind = .symbol .rightBrace ∨ c.atEnd
    · exact accepts_none (declarationsFrom_closed hclosed) ⟨by rw [List.append_nil], hdone⟩
    · refine Accepts.of_eq ?_ (declarationsFrom_open hclosed)
      refine accepts_bind hc (hg .declaration c hc) fun s ws c₁ hc₁ hs => ?_
      obtain ⟨s, rfl, rfl, hs⟩ := hs
      have hall : Stmt.AllGrammatical (s :: done).reverse := by
        rw [List.reverse_cons, Stmt.allGrammatical_append]
        exact ⟨hdone, hs, trivial⟩
      refine (ih hc₁ hall).mono fun body ws _ hbody => ⟨?_, hbody.2⟩
      rw [hbody.1, List.reverse_cons, Stmt.listWords_append]
      simp [Stmt.listWords]

theorem accepts_block (hg : Sound g) (hc : c.Plain) :
    Accepts (block g fuel) c fun body ws _ =>
      ws = Stmt.listWords body ++ [Symbol.rightBrace.word] ∧ Stmt.AllGrammatical body := by
  unfold block
  refine accepts_bind hc (accepts_declarationsFrom hg hc trivial) fun body ws c₁ hc₁ hbody => ?_
  refine accepts_bind hc₁ (accepts_symbol hc₁) fun _ ws' c₂ _ hclose => ?_
  refine accepts_pure ⟨?_, hbody.2⟩
  rw [hclose.1, hbody.1]
  simp [Stmt.listWords, SymbolPlace.symbol]

theorem accepts_parameters {tooMany : GrammarFault} {closing : SymbolPlace} {place : NamePlace}
    (hc : c.Plain) :
    Accepts (items tooMany closing (identifier place) fuel) c fun xs ws _ =>
      Parameters xs.1 ∧ ws = nameWords xs.1 ++ [closing.symbol.word] := by
  have hitem (c : Cursor) (hc : c.Plain) : Accepts (identifier place) c fun name ws _ =>
      [Word.identifier name.text] = ws ∧ IsFree name.text :=
    (accepts_identifier hc).mono fun name ws _ h => ⟨h.2.symm, h.1⟩
  exact (accepts_items hitem hc).mono fun xs ws _ hxs => ⟨hxs.1, hxs.2.2⟩

theorem accepts_routine (hg : Sound g) {kind : RoutineKind} (hc : c.Plain) :
    Accepts (routine g fuel kind) c fun r ws _ =>
      r.Grammatical ∧ Symbol.leftParen.word :: ws = r.words := by
  rw [routine_eq]
  refine accepts_bind hc (accepts_parameters hc) fun xs ws c₁ hc₁ hxs => ?_
  refine accepts_bind hc₁ (accepts_symbol hc₁) fun _ ws₂ c₂ hc₂ hopen => ?_
  refine accepts_bind hc₂ (accepts_block hg hc₂) fun body ws₃ c₃ _ hbody => ?_
  refine accepts_pure ⟨⟨hxs.1, hbody.2⟩, ?_⟩
  rw [hxs.2, hopen.1, hbody.1]
  simp [Routine.words, SymbolPlace.symbol]

/-! ## Expressions -/

theorem accepts_primary (hg : Sound g) (hc : c.Plain) :
    Accepts (primary g fuel) c fun e ws _ => Operand .primary e ws := by
  have hconstant (value : Literal) (hend : c.kind ≠ .endOfInput)
      (hword : value.word = c.next.word) :
      Accepts (fun c => .ok (.literal value) c.advance) c fun e ws _ => Operand .primary e ws := by
    refine accepts_one rfl hend ⟨?_, le_rfl, trivial⟩
    rw [Expr.words, hword]
  have hkeyword (k : Keyword) (hkind : c.kind = .keyword k) : c.next.word = k.word :=
    (hc.next (by rw [hkind]; rintro ⟨⟩)).1.word_keyword hkind
  have hbranch : ∃ act : Parser Expr, primary g fuel c = act c ∧
      Accepts act c fun e ws _ => Operand .primary e ws := by
    unfold primary
    split
    · rename_i hkind
      exact ⟨_, rfl, hconstant (.bool false) (by rw [hkind]; rintro ⟨⟩) (hkeyword _ hkind).symm⟩
    · rename_i hkind
      exact ⟨_, rfl, hconstant (.bool true) (by rw [hkind]; rintro ⟨⟩) (hkeyword _ hkind).symm⟩
    · rename_i hkind
      exact ⟨_, rfl, hconstant .nil (by rw [hkind]; rintro ⟨⟩) (hkeyword _ hkind).symm⟩
    · rename_i hkind
      have hend : c.kind ≠ .endOfInput := by rw [hkind]; rintro ⟨⟩
      obtain ⟨x, hx⟩ := (hc.next hend).1.number hkind
      have hnumber : c.next.kind = .number := hkind
      refine ⟨_, rfl, hconstant _ hend ?_⟩
      rw [hx, Literal.word, Token.word, hnumber, hx]
    · rename_i hkind
      have hend : c.kind ≠ .endOfInput := by rw [hkind]; rintro ⟨⟩
      obtain ⟨x, hx⟩ := (hc.next hend).1.string hkind
      have hstring : c.next.kind = .string := hkind
      refine ⟨_, rfl, hconstant _ hend ?_⟩
      rw [hx, Literal.word, Token.word, hstring, hx]
    · rename_i hkind
      have hend : c.kind ≠ .endOfInput := by rw [hkind]; rintro ⟨⟩
      refine ⟨_, rfl, accepts_bind_take hc hend fun c₁ hc₁ => ?_⟩
      refine accepts_bind hc₁ accepts_fresh fun ref ws c₂ _ href => ?_
      obtain ⟨hword, rfl⟩ := href
      have hidentifier : c.next.kind = .identifier := hkind
      refine accepts_pure ⟨?_, le_rfl, ?_⟩
      · rw [Expr.words, hword, Token.word, hidentifier]
        rfl
      · change IsFree ref.word.text
        rw [hword]
        exact (hc.next hend).1.identifier hkind
    · rename_i hkind
      have hend : c.kind ≠ .endOfInput := by rw [hkind]; rintro ⟨⟩
      refine ⟨_, rfl, accepts_bind_take hc hend fun c₁ hc₁ => ?_⟩
      refine accepts_bind hc₁ accepts_fresh fun ref ws c₂ _ href => ?_
      obtain ⟨hword, rfl⟩ := href
      have hthis : c.next.kind = .keyword .this := hkind
      refine accepts_pure ⟨?_, le_rfl, trivial⟩
      rw [Expr.words, hword, Token.word, hthis]
      rfl
    · rename_i hkind
      have hend : c.kind ≠ .endOfInput := by rw [hkind]; rintro ⟨⟩
      refine ⟨_, rfl, accepts_bind_take hc hend fun c₁ hc₁ => ?_⟩
      refine accepts_bind hc₁ (accepts_symbol hc₁) fun _ ws c₂ hc₂ hdot => ?_
      refine accepts_bind hc₂ (accepts_identifier hc₂) fun method ws' c₃ hc₃ hmethod => ?_
      refine accepts_bind hc₃ accepts_fresh fun ref ws c₄ _ href => ?_
      obtain ⟨hword, rfl⟩ := href
      have hsuper : c.next.kind = .keyword .super := hkind
      refine accepts_pure ⟨?_, le_rfl, hmethod.1⟩
      rw [Expr.words, hword, Token.word, hsuper, hdot.1, hmethod.2]
      rfl
    · rename_i hkind
      have hend : c.kind ≠ .endOfInput := by rw [hkind]; rintro ⟨⟩
      refine ⟨_, rfl, accepts_bind_take hc hend fun c₁ hc₁ => ?_⟩
      refine accepts_bind hc₁ (accepts_symbol hc₁) fun _ ws c₂ hc₂ hopen => ?_
      refine accepts_bind hc₂ (accepts_routine hg hc₂) fun r ws c₃ _ hr => ?_
      obtain ⟨params, body⟩ := r
      refine accepts_pure ⟨?_, le_rfl, hr.1⟩
      rw [hkeyword _ hkind, hopen.1, List.append_nil]
      change Keyword.fun.word :: Routine.words ⟨params, body⟩ =
        Keyword.fun.word :: Symbol.leftParen.word :: ws
      rw [← hr.2]
    · rename_i hkind
      have hend : c.kind ≠ .endOfInput := by rw [hkind]; rintro ⟨⟩
      refine ⟨_, rfl, accepts_bind_take hc hend fun c₁ hc₁ => ?_⟩
      refine accepts_bind hc₁ (hg .expression c₁ hc₁) fun inner ws c₂ hc₂ hinner => ?_
      refine accepts_bind hc₂ (accepts_symbol hc₂) fun _ ws c₃ _ hclose => ?_
      refine accepts_pure ⟨?_, le_rfl, hinner.2.2⟩
      rw [(hc.next hend).1.word_symbol hkind, hclose.1, ← hinner.1, Expr.words]
      rfl
    · exact ⟨_, rfl, accepts_of_error rfl⟩
  obtain ⟨act, heq, h⟩ := hbranch
  exact h.of_eq heq

theorem accepts_arguments (hg : Sound g) {tooMany : GrammarFault} {closing : SymbolPlace}
    (hc : c.Plain) :
    Accepts (items tooMany closing (g .assignment) fuel) c fun xs ws _ =>
      (xs.1.length ≤ maxListed ∧ Expr.AllGrammatical xs.1) ∧
        xs.2.lexeme.text = String.ofList closing.symbol.spelling ∧
        ws = commaSeparated (Expr.phrases xs.1) ++ [closing.symbol.word] := by
  have hitem (c : Cursor) (hc : c.Plain) : Accepts (g .assignment) c fun e ws _ =>
      e.words = ws ∧ Level.assignment ≤ e.level ∧ e.Grammatical := hg .assignment c hc
  refine (accepts_items hitem hc).mono fun xs ws _ hxs => ?_
  rw [Expr.phrases_eq_map, Expr.allGrammatical_iff]
  exact hxs

theorem accepts_suffixesFrom (hg : Sound g) {e : Expr} (hc : c.Plain)
    (hlevel : Level.call ≤ e.level) (he : e.Grammatical) :
    Accepts (suffixesFrom g fuel e) c fun e' ws _ => Operand .call e' (e.words ++ ws) := by
  induction fuel generalizing e c with
  | zero => exact accepts_of_error rfl
  | succ fuel ih =>
    rw [suffixesFrom_succ]
    refine accepts_bind hc (accepts_skip hc nofun) fun called ws₁ c₁ hc₁ hcalled => ?_
    cases called with
    | true =>
      obtain ⟨ht, hkind, rfl⟩ := hcalled
      refine accepts_bind hc₁ (accepts_arguments hg hc₁) fun xs ws₂ c₂ hc₂ hxs => ?_
      obtain ⟨hgood, htext, rfl⟩ := hxs
      have hcall : (Expr.call e xs.1 xs.2.lexeme).Grammatical := ⟨⟨hlevel, he⟩, hgood⟩
      refine (ih hc₂ le_rfl hcall).mono fun e' ws₃ _ he' => ?_
      rw [ht.word_symbol hkind]
      rw [Expr.words, htext] at he'
      simpa [Symbol.word, SymbolPlace.symbol] using he'
    | false =>
      obtain ⟨rfl, -⟩ := hcalled
      refine accepts_bind hc₁ (accepts_skip hc₁ nofun) fun dotted ws₂ c₂ hc₂ hdotted => ?_
      cases dotted with
      | true =>
        obtain ⟨ht, hkind, rfl⟩ := hdotted
        refine accepts_bind hc₂ (accepts_identifier hc₂) fun property ws₃ c₃ hc₃ hproperty => ?_
        obtain ⟨hfree, rfl⟩ := hproperty
        have hget : (Expr.get e property).Grammatical := ⟨⟨hlevel, he⟩, hfree⟩
        refine (ih hc₃ le_rfl hget).mono fun e' ws₄ _ he' => ?_
        rw [ht.word_symbol hkind]
        rw [Expr.words] at he'
        simpa using he'
      | false =>
        obtain ⟨rfl, -⟩ := hdotted
        exact accepts_pure ⟨by simp, hlevel, he⟩

theorem accepts_call (hg : Sound g) (hc : c.Plain) :
    Accepts (call g fuel) c fun e ws _ => Operand .call e ws := by
  unfold call
  refine accepts_bind hc (accepts_primary hg hc) fun e ws c₁ hc₁ he => ?_
  obtain ⟨rfl, hlevel, he⟩ := he
  exact accepts_suffixesFrom hg hc₁ (le_trans (by decide) hlevel) he

theorem accepts_unary (hg : Sound g) (hc : c.Plain) :
    Accepts (unary g fuel) c fun e ws _ => Operand .unary e ws := by
  cases hop : unaryOp c.kind with
  | none =>
    refine Accepts.of_eq ?_ (unary_none hop)
    exact (accepts_call hg hc).mono fun e ws _ he => he.mono (by decide)
  | some op =>
    have hkind : c.kind = .symbol op.symbol := by
      unfold unaryOp at hop
      split at hop <;> cases hop <;> assumption
    have hend : c.kind ≠ .endOfInput := by rw [hkind]; rintro ⟨⟩
    have hsymbol : c.next.kind = .symbol op.symbol := hkind
    refine Accepts.of_eq ?_ (unary_some hop)
    refine accepts_bind_take hc hend fun c₁ hc₁ => ?_
    refine accepts_bind hc₁ (hg .unary c₁ hc₁) fun operand ws c₂ _ hoperand => ?_
    refine accepts_pure ⟨?_, le_rfl, hoperand.2⟩
    rw [Expr.words, hoperand.1, Token.word, hsymbol]
    simp

/-! ## Operators with two operands -/

/-- No operator is the mark of the end. -/
theorem ne_end_of_join {rank : Rank} {kind : Kind} {node : Lexeme → Expr → Expr → Expr}
    (h : rank.join kind = some node) : kind ≠ .endOfInput := by
  intro hkind
  subst hkind
  cases rank <;> cases h

theorem ne_end_of_commaJoin {kind : Kind} {node : Lexeme → Expr → Expr → Expr}
    (h : commaJoin kind = some node) : kind ≠ .endOfInput := by
  intro hkind
  subst hkind
  cases h

/-- The operators of a rank join operands that are tighter than they are. -/
theorem accepts_rank {operand : Parser Expr} [Steady operand] {rank : Rank} {l : Level}
    (hoperand : ∀ c : Cursor, c.Plain → Accepts operand c fun e ws _ => Operand l e ws)
    (hl : rank.level < l) (hc : c.Plain) :
    Accepts (chain rank.join operand fuel) c fun e ws _ => Operand rank.level e ws := by
  refine accepts_chain (composes_rank rank) (fun _ _ => ne_end_of_join) (fun c hc => ?_) hc
  exact (hoperand c hc).mono fun e ws _ he => ⟨he.1, hl.trans_le he.2.1, he.2.2⟩

theorem accepts_disjunction (hg : Sound g) (hc : c.Plain) :
    Accepts (disjunction g fuel) c fun e ws _ => Operand .disjunction e ws := by
  unfold disjunction conjunction equality comparison sum product
  refine accepts_rank (fun c hc => ?_) (show Rank.disjunction.level < .conjunction by decide) hc
  refine accepts_rank (fun c hc => ?_) (show Rank.conjunction.level < .equality by decide) hc
  refine accepts_rank (fun c hc => ?_) (show Rank.equality.level < .comparison by decide) hc
  refine accepts_rank (fun c hc => ?_) (show Rank.comparison.level < .sum by decide) hc
  refine accepts_rank (fun c hc => ?_) (show Rank.sum.level < .product by decide) hc
  refine accepts_rank (fun c hc => ?_) (show Rank.product.level < .unary by decide) hc
  exact accepts_unary hg hc

theorem accepts_conditional (hg : Sound g) (hc : c.Plain) :
    Accepts (conditional g fuel) c fun e ws _ => Operand .conditional e ws := by
  unfold conditional
  refine accepts_bind hc (accepts_disjunction hg hc) fun condition ws₁ c₁ hc₁ hcondition => ?_
  refine accepts_bind hc₁ (accepts_skip hc₁ nofun) fun asked ws₂ c₂ hc₂ hasked => ?_
  cases asked with
  | false =>
    obtain ⟨rfl, -⟩ := hasked
    refine accepts_pure ?_
    rw [List.append_nil, List.append_nil]
    exact hcondition.mono (by decide)
  | true =>
    obtain ⟨ht, hkind, rfl⟩ := hasked
    refine accepts_bind hc₂ (hg .expression c₂ hc₂) fun whenTrue ws₃ c₃ hc₃ hwhenTrue => ?_
    refine accepts_bind hc₃ (accepts_symbol hc₃) fun _ ws₄ c₄ hc₄ hcolon => ?_
    refine accepts_bind hc₄ (hg .conditional c₄ hc₄) fun whenFalse ws₅ c₅ _ hwhenFalse => ?_
    have htight : Level.conditional < condition.level := lt_of_lt_of_le (by decide) hcondition.2.1
    refine accepts_pure ⟨?_, le_rfl, ⟨htight, hcondition.2.2⟩, hwhenTrue.2.2, hwhenFalse.2⟩
    rw [Expr.words, hcondition.1, hwhenTrue.1, hwhenFalse.1, hcolon.1, ht.word_symbol hkind]
    simp [SymbolPlace.symbol]

/-- An assignment has the words of its target and its value, with an equals sign between. -/
theorem operand_assignTo? {target value e : Expr} {ws ws' : List Word}
    (h : assignTo? target value = some e) (htarget : Operand .conditional target ws)
    (hvalue : Operand .assignment value ws') :
    Operand .assignment e (ws ++ Symbol.equal.word :: ws') := by
  obtain ⟨rfl, -, htarget⟩ := htarget
  obtain ⟨rfl, hvalue⟩ := hvalue
  unfold assignTo? at h
  split at h <;> cases h
  · refine ⟨?_, le_rfl, htarget, hvalue⟩
    rw [Expr.words, Expr.words]
    rfl
  · refine ⟨?_, le_rfl, htarget.1, htarget.2, hvalue⟩
    rw [Expr.words, Expr.words]
    simp

theorem accepts_assignment (hg : Sound g) (hc : c.Plain) :
    Accepts (assignment g fuel) c fun e ws _ => Operand .assignment e ws := by
  have hassigned := steady_assigned
  unfold assignment
  refine accepts_bind hc (accepts_conditional hg hc) fun target ws₁ c₁ hc₁ htarget => ?_
  refine accepts_bind hc₁ accepts_looksAt fun assigned ws₂ c₂ hc₂ hassigned => ?_
  obtain ⟨rfl, hkind⟩ := hassigned
  cases assigned with
  | false =>
    refine accepts_pure ?_
    rw [List.append_nil, List.append_nil]
    exact htarget.mono (by decide)
  | true =>
    have hequal := hkind rfl
    have hend : c₂.kind ≠ .endOfInput := by rw [hequal]; rintro ⟨⟩
    refine accepts_bind_take hc₂ hend fun c₃ hc₃ => ?_
    refine accepts_bind hc₃ (hg .assignment c₃ hc₃) fun value ws₄ c₄ hc₄ hvalue => ?_
    cases he : assignTo? target value with
    | some e =>
      refine accepts_pure ?_
      have hall := operand_assignTo? he htarget hvalue
      rw [(hc₂.next hend).1.word_symbol hequal]
      simpa using hall
    | none =>
      -- the target is reported
      have hreport : Accepts (reportAt c₂.next .invalidAssignmentTarget) c₄ fun _ _ _ => False :=
        accepts_of_report rfl
      exact accepts_bind hc₄ hreport fun _ _ _ _ h => h.elim

theorem accepts_expression (hg : Sound g) (hc : c.Plain) :
    Accepts (expression g fuel) c fun e ws _ => Operand .comma e ws := by
  refine accepts_chain composes_comma (fun _ _ => ne_end_of_commaJoin) (fun c hc => ?_) hc
  exact (accepts_assignment hg hc).mono fun e ws _ he =>
    ⟨he.1, lt_of_lt_of_le (by decide) he.2.1, he.2.2⟩

/-! ## Statements -/

/-- Declared variables that may stand in one declaration. -/
def Declarators (ds : List Declarator) : Prop :=
  (ds.map (·.name.text)).Nodup ∧ Declarator.AllGrammatical ds

theorem Declarators.concat {ds : List Declarator} {d : Declarator} (h : Declarators ds)
    (hname : ¬ ds.any (·.name.text = d.name.text)) (hd : Declarator.AllGrammatical [d]) :
    Declarators (ds ++ [d]) := by
  refine ⟨?_, Declarator.allGrammatical_append.mpr ⟨h.2, hd⟩⟩
  rw [List.map_append, List.map_singleton, List.nodup_append]
  refine ⟨h.1, List.nodup_singleton _, fun x hx y hy hxy => ?_⟩
  rw [List.mem_singleton] at hy
  obtain ⟨d', hd', rfl⟩ := List.mem_map.mp hx
  exact hname (List.any_eq_true.mpr ⟨d', hd', by simp [hxy, hy]⟩)

theorem accepts_declarator (hg : Sound g) (hc : c.Plain) :
    Accepts (declarator g) c fun d ws _ => d.phrase = ws ∧ Declarator.AllGrammatical [d] := by
  unfold declarator
  refine accepts_bind hc (accepts_identifier hc) fun name ws₁ c₁ hc₁ hname => ?_
  obtain ⟨hfree, rfl⟩ := hname
  refine accepts_bind hc₁ (accepts_following hc₁ nofun (hg .assignment)) fun e ws₂ c₂ _ he => ?_
  cases e with
  | none =>
    obtain ⟨rfl, -⟩ := he
    exact accepts_pure ⟨rfl, hfree, trivial⟩
  | some e =>
    obtain ⟨ht, hkind, ws, rfl, rfl, he⟩ := he
    refine accepts_pure ⟨?_, hfree, he, trivial⟩
    rw [Declarator.phrase, ht.word_symbol hkind]
    simp

/-- Variables that were declared already are followed by a comma each. -/
theorem accepts_declaratorsFrom (hg : Sound g) {ds : List Declarator} (hc : c.Plain)
    (hds : Declarators ds) :
    Accepts (declaratorsFrom g fuel ds) c fun ds' ws _ =>
      ds' ≠ [] ∧ Declarators ds' ∧ commaSeparated (ds'.map Declarator.phrase) =
        (ds.map Declarator.phrase).flatMap (· ++ [Symbol.comma.word]) ++ ws := by
  induction fuel generalizing ds c with
  | zero => exact accepts_of_error rfl
  | succ fuel ih =>
    rw [declaratorsFrom_succ]
    refine accepts_bind hc accepts_peek fun token ws₁ c₁ hc₁ hpeek => ?_
    obtain ⟨rfl, -⟩ := hpeek
    refine accepts_bind hc₁ (accepts_declarator hg hc₁) fun d ws₂ c₂ hc₂ hd => ?_
    obtain ⟨rfl, hd⟩ := hd
    by_cases hrepeated : ds.any (·.name.text = d.name.text)
    · -- a repeated name is reported
      have hreport : Accepts (reportAt token .repeatedVariable >>= fun _ => pure ds) c₂
          fun _ _ _ => False := accepts_of_report rfl
      rw [if_pos hrepeated]
      exact accepts_bind hc₂ hreport fun _ _ _ _ h => h.elim
    · have hall := hds.concat hrepeated hd
      have hadd : Accepts (pure (ds ++ [d])) c₂ fun ds' ws _ => ds' = ds ++ [d] ∧ ws = [] :=
        accepts_pure ⟨rfl, rfl⟩
      rw [if_neg hrepeated]
      refine accepts_bind hc₂ hadd fun ds' ws₃ c₃ hc₃ h => ?_
      obtain ⟨rfl, rfl⟩ := h
      refine accepts_bind hc₃ (accepts_skip hc₃ nofun) fun more ws₄ c₄ hc₄ hmore => ?_
      cases more with
      | true =>
        obtain ⟨ht, hkind, rfl⟩ := hmore
        rw [ht.word_symbol hkind]
        refine (ih hc₄ hall).mono fun ds' ws _ hds' => ⟨hds'.1, hds'.2.1, ?_⟩
        rw [hds'.2.2]
        simp
      | false =>
        obtain ⟨rfl, -⟩ := hmore
        refine accepts_pure ⟨by simp, hall, ?_⟩
        rw [List.map_append, List.map_singleton, commaSeparated_concat]
        simp

theorem accepts_varDeclaration (hg : Sound g) (hc : c.Plain) (hkind : c.kind = .keyword .var) :
    Accepts (varDeclaration g fuel) c fun s ws _ => Spoken s ws := by
  have hend : c.kind ≠ .endOfInput := by rw [hkind]; rintro ⟨⟩
  have hnone : Declarators [] := ⟨List.nodup_nil, trivial⟩
  unfold varDeclaration
  refine accepts_bind_take hc hend fun c₁ hc₁ => ?_
  refine accepts_bind hc₁ (accepts_declaratorsFrom hg hc₁ hnone) fun ds ws₂ c₂ hc₂ hds => ?_
  refine accepts_bind hc₂ (accepts_symbol hc₂) fun _ ws₃ c₃ _ hclose => ?_
  refine accepts_pure ⟨?_, hds.1, hds.2.1⟩
  rw [Stmt.words, Declarator.phrases_eq_map, hds.2.2, (hc.next hend).1.word_keyword hkind, hclose.1]
  simp [SymbolPlace.symbol]

theorem accepts_expressionStatement (hg : Sound g) (hc : c.Plain) :
    Accepts (expressionStatement g fuel) c Stands := by
  unfold expressionStatement
  refine accepts_bind hc (accepts_expression hg hc) fun e ws₁ c₁ hc₁ he => ?_
  refine accepts_bind hc₁ (accepts_symbol hc₁) fun _ ws₂ c₂ _ hclose => ?_
  refine accepts_pure ⟨?_, he.2.2, rfl, nofun⟩
  rw [Stmt.words, he.1, hclose.1]
  simp [SymbolPlace.symbol]

theorem accepts_breakStatement (hc : c.Plain) (hkind : c.kind = .keyword .break) :
    Accepts breakStatement c Stands := by
  have hend : c.kind ≠ .endOfInput := by rw [hkind]; rintro ⟨⟩
  have hbreak : c.next.kind = .keyword .break := hkind
  unfold breakStatement
  refine accepts_bind_take hc hend fun c₁ hc₁ => ?_
  refine accepts_bind hc₁ (accepts_symbol hc₁) fun _ ws₂ c₂ _ hclose => ?_
  refine accepts_pure ⟨?_, trivial, rfl, nofun⟩
  rw [Stmt.words, hclose.1, Token.word, hbreak]
  rfl

theorem accepts_ifStatement (hg : Sound g) (hc : c.Plain) (hkind : c.kind = .keyword .if) :
    Accepts (ifStatement g) c Stands := by
  have hend : c.kind ≠ .endOfInput := by rw [hkind]; rintro ⟨⟩
  rw [ifStatement_eq]
  refine accepts_bind_take hc hend fun c₁ hc₁ => ?_
  refine accepts_bind hc₁ (accepts_symbol hc₁) fun _ ws₂ c₂ hc₂ hopen => ?_
  refine accepts_bind hc₂ (hg .expression c₂ hc₂) fun condition ws₃ c₃ hc₃ hcondition => ?_
  refine accepts_bind hc₃ (accepts_symbol hc₃) fun _ ws₄ c₄ hc₄ hclose => ?_
  refine accepts_bind hc₄ (hg .statement c₄ hc₄) fun whenTrue ws₅ c₅ hc₅ hwhenTrue => ?_
  obtain ⟨rfl, hthen, hplain, hopenEnd⟩ := hwhenTrue
  have hwords := hcondition.1
  refine accepts_bind hc₅ (accepts_following hc₅ nofun (hg .statement)) fun e ws₆ c₆ _ he => ?_
  cases e with
  | none =>
    obtain ⟨rfl, hne⟩ := he
    refine accepts_pure ⟨?_, ⟨hcondition.2.2, hthen, hplain⟩, rfl, fun _ => hne⟩
    rw [Stmt.words, hwords, (hc.next hend).1.word_keyword hkind, hopen.1, hclose.1]
    simp [SymbolPlace.symbol]
  | some whenFalse =>
    obtain ⟨hexact, helse, ws, rfl, rfl, hfalse, hplain', hopenEnd'⟩ := he
    have hclosed : whenTrue.endsOpen = false := by
      by_contra hne
      exact hopenEnd (by simpa using hne) helse
    refine accepts_pure ⟨?_, ⟨hcondition.2.2, ⟨hthen, hplain, hclosed⟩, hfalse, hplain'⟩, rfl,
      hopenEnd'⟩
    rw [Stmt.words, hwords, (hc.next hend).1.word_keyword hkind, hopen.1, hclose.1,
      hexact.word_keyword helse]
    simp [SymbolPlace.symbol]

theorem accepts_printStatement (hg : Sound g) (hc : c.Plain) (hkind : c.kind = .keyword .print) :
    Accepts (printStatement g) c Stands := by
  have hend : c.kind ≠ .endOfInput := by rw [hkind]; rintro ⟨⟩
  unfold printStatement
  refine accepts_bind_take hc hend fun c₁ hc₁ => ?_
  refine accepts_bind hc₁ (hg .expression c₁ hc₁) fun e ws₂ c₂ hc₂ he => ?_
  refine accepts_bind hc₂ (accepts_symbol hc₂) fun _ ws₃ c₃ _ hclose => ?_
  refine accepts_pure ⟨?_, he.2.2, rfl, nofun⟩
  rw [Stmt.words, he.1, (hc.next hend).1.word_keyword hkind, hclose.1]
  simp [SymbolPlace.symbol]

theorem accepts_clauseUpTo (hg : Sound g) {s : Symbol} (hc : c.Plain) :
    Accepts (clauseUpTo g s) c fun clause ws _ =>
      (clause.map Expr.words).getD [] = ws ∧ ∀ e ∈ clause, e.Grammatical := by
  unfold clauseUpTo
  refine accepts_bind hc accepts_looksAt fun missing ws₁ c₁ hc₁ hmissing => ?_
  obtain ⟨rfl, -⟩ := hmissing
  cases missing with
  | true => exact accepts_pure ⟨rfl, by simp⟩
  | false =>
    refine (accepts_map hc₁ (hg .expression c₁ hc₁)).mono fun clause ws _ he => ?_
    obtain ⟨e, rfl, rfl, -, he⟩ := he
    exact ⟨rfl, by simpa using he⟩

theorem accepts_returnStatement (hg : Sound g) (hc : c.Plain)
    (hkind : c.kind = .keyword .return) : Accepts (returnStatement g) c Stands := by
  have hend : c.kind ≠ .endOfInput := by rw [hkind]; rintro ⟨⟩
  have hreturn : c.next.word = .keyword .return c.next.lexeme.text := by
    have hkind' : c.next.kind = .keyword .return := hkind
    rw [Token.word, hkind']
  unfold returnStatement
  refine accepts_bind_take hc hend fun c₁ hc₁ => ?_
  refine accepts_bind hc₁ (accepts_clauseUpTo hg hc₁) fun value ws₂ c₂ hc₂ hvalue => ?_
  obtain ⟨rfl, hvalue⟩ := hvalue
  refine accepts_bind hc₂ (accepts_symbol hc₂) fun _ ws₃ c₃ _ hclose => ?_
  rw [hreturn, hclose.1]
  cases value with
  | none => exact accepts_pure ⟨by simp [Stmt.words, SymbolPlace.symbol], trivial, rfl, nofun⟩
  | some e =>
    exact accepts_pure ⟨by simp [Stmt.words, SymbolPlace.symbol], hvalue e rfl, rfl, nofun⟩

theorem accepts_whileStatement (hg : Sound g) (hc : c.Plain) (hkind : c.kind = .keyword .while) :
    Accepts (whileStatement g) c Stands := by
  have hend : c.kind ≠ .endOfInput := by rw [hkind]; rintro ⟨⟩
  unfold whileStatement
  refine accepts_bind_take hc hend fun c₁ hc₁ => ?_
  refine accepts_bind hc₁ (accepts_symbol hc₁) fun _ ws₂ c₂ hc₂ hopen => ?_
  refine accepts_bind hc₂ (hg .expression c₂ hc₂) fun condition ws₃ c₃ hc₃ hcondition => ?_
  refine accepts_bind hc₃ (accepts_symbol hc₃) fun _ ws₄ c₄ hc₄ hclose => ?_
  refine accepts_bind hc₄ (hg .statement c₄ hc₄) fun body ws₅ c₅ _ hbody => ?_
  obtain ⟨rfl, hbody, hplain, hopenEnd⟩ := hbody
  refine accepts_pure ⟨?_, ⟨hcondition.2.2, hbody, hplain⟩, rfl, hopenEnd⟩
  rw [Stmt.words, hcondition.1, (hc.next hend).1.word_keyword hkind, hopen.1, hclose.1]
  simp [SymbolPlace.symbol]

theorem accepts_blockStatement (hg : Sound g) (hc : c.Plain)
    (hkind : c.kind = .symbol .leftBrace) : Accepts (blockStatement g fuel) c Stands := by
  have hend : c.kind ≠ .endOfInput := by rw [hkind]; rintro ⟨⟩
  unfold blockStatement
  refine accepts_bind_take hc hend fun c₁ hc₁ => ?_
  refine accepts_bind hc₁ (accepts_block hg hc₁) fun body ws₂ c₂ _ hbody => ?_
  refine accepts_pure ⟨?_, hbody.2, rfl, nofun⟩
  rw [Stmt.words, hbody.1, (hc.next hend).1.word_symbol hkind]
  simp

theorem accepts_statement (hg : Sound g) (hc : c.Plain) : Accepts (statement g fuel) c Stands := by
  have hbranch : ∃ act : Parser Stmt, statement g fuel c = act c ∧ Accepts act c Stands := by
    unfold statement
    split
    · rename_i hkind
      exact ⟨_, rfl, accepts_breakStatement hc hkind⟩
    · rename_i hkind
      exact absurd hkind (hc.next (by rw [hkind]; rintro ⟨⟩)).2
    · rename_i hkind
      exact ⟨_, rfl, accepts_ifStatement hg hc hkind⟩
    · rename_i hkind
      exact ⟨_, rfl, accepts_printStatement hg hc hkind⟩
    · rename_i hkind
      exact ⟨_, rfl, accepts_returnStatement hg hc hkind⟩
    · rename_i hkind
      exact ⟨_, rfl, accepts_whileStatement hg hc hkind⟩
    · rename_i hkind
      exact ⟨_, rfl, accepts_blockStatement hg hc hkind⟩
    · exact ⟨_, rfl, accepts_expressionStatement hg hc⟩
  obtain ⟨act, heq, h⟩ := hbranch
  exact h.of_eq heq

/-! ## Declarations -/

theorem accepts_namedRoutine (hg : Sound g) {kind : RoutineKind} (hc : c.Plain) :
    Accepts (namedRoutine g fuel kind) c fun m ws _ =>
      ws = .identifier m.name.text :: m.routine.words ∧ IsFree m.name.text ∧
        m.routine.Grammatical := by
  have hopen : (SymbolPlace.afterRoutineName kind).symbol = .leftParen := rfl
  unfold namedRoutine
  refine accepts_bind hc (accepts_identifier hc) fun name ws₁ c₁ hc₁ hname => ?_
  obtain ⟨hfree, rfl⟩ := hname
  refine accepts_bind hc₁ (accepts_symbol hc₁) fun _ ws₂ c₂ hc₂ hparen => ?_
  refine accepts_bind hc₂ (accepts_routine hg hc₂) fun r ws₃ c₃ _ hr => ?_
  refine accepts_pure ⟨?_, hfree, hr.1⟩
  rw [← hr.2, hparen.1, hopen]
  simp

theorem accepts_functionDeclaration (hg : Sound g) (hc : c.Plain)
    (hkind : c.kind = .keyword .fun) :
    Accepts (functionDeclaration g fuel) c fun s ws _ => Spoken s ws := by
  have hend : c.kind ≠ .endOfInput := by rw [hkind]; rintro ⟨⟩
  unfold functionDeclaration
  refine accepts_bind_take hc hend fun c₁ hc₁ => ?_
  refine accepts_bind hc₁ (accepts_namedRoutine hg hc₁) fun declared ws₂ c₂ _ h => ?_
  obtain ⟨name, params, body⟩ := declared
  obtain ⟨rfl, hfree, hr⟩ := h
  refine accepts_pure ⟨?_, hfree, hr⟩
  rw [(hc.next hend).1.word_keyword hkind, Stmt.words, Routine.words]
  simp

theorem accepts_methodsFrom (hg : Sound g) {done : List Method} (hc : c.Plain)
    (hdone : Method.AllGrammatical done.reverse) :
    Accepts (methodsFrom g fuel done) c fun members ws _ =>
      Method.listWords members = Method.listWords done.reverse ++ ws ∧
        Method.AllGrammatical members := by
  induction fuel generalizing done c with
  | zero => exact accepts_of_error rfl
  | succ fuel ih =>
    rw [methodsFrom]
    refine accepts_bind hc accepts_looksAt fun closed ws₁ c₁ hc₁ hclosed => ?_
    refine accepts_bind hc₁ accepts_looksAt fun ended ws₂ c₂ hc₂ hended => ?_
    obtain ⟨rfl, -⟩ := hclosed
    obtain ⟨rfl, -⟩ := hended
    cases closed || ended with
    | true => exact accepts_pure ⟨by simp, hdone⟩
    | false =>
      refine accepts_bind hc₂ (accepts_namedRoutine hg hc₂) fun m ws₃ c₃ hc₃ hm => ?_
      obtain ⟨name, params, body⟩ := m
      obtain ⟨rfl, hfree, hr⟩ := hm
      have hall : Method.AllGrammatical (⟨name, params, body⟩ :: done).reverse := by
        rw [List.reverse_cons, Method.allGrammatical_append]
        exact ⟨hdone, ⟨hfree, hr⟩, trivial⟩
      refine (ih hc₃ hall).mono fun members ws _ hmembers => ⟨?_, hmembers.2⟩
      rw [hmembers.1, List.reverse_cons, Method.listWords_append]
      simp [Method.listWords, Routine.words]

theorem accepts_classDeclaration (hg : Sound g) (hc : c.Plain)
    (hkind : c.kind = .keyword .class) :
    Accepts (classDeclaration g fuel) c fun s ws _ => Spoken s ws := by
  have hend : c.kind ≠ .endOfInput := by rw [hkind]; rintro ⟨⟩
  have hsuperclass (c : Cursor) (hc : c.Plain) :
      Accepts (identifier .superclass >>= fresh) c fun ref ws _ =>
        IsFree ref.word.text ∧ ws = [.identifier ref.word.text] := by
    refine accepts_bind hc (accepts_identifier hc) fun name ws c₁ _ hname => ?_
    refine accepts_fresh.mono fun ref ws' _ href => ?_
    obtain ⟨rfl, rfl⟩ := href
    exact ⟨hname.1, by rw [hname.2, List.append_nil]⟩
  rw [classDeclaration_eq]
  refine accepts_bind_take hc hend fun c₁ hc₁ => ?_
  refine accepts_bind hc₁ (accepts_identifier hc₁) fun name ws₂ c₂ hc₂ hname => ?_
  obtain ⟨hfree, rfl⟩ := hname
  refine accepts_bind hc₂ (accepts_following hc₂ nofun hsuperclass)
    fun superclass ws₃ c₃ hc₃ hsuper => ?_
  refine accepts_bind hc₃ (accepts_symbol hc₃) fun _ ws₄ c₄ hc₄ hopen => ?_
  refine accepts_bind hc₄ (accepts_methodsFrom hg hc₄ trivial) fun members ws₅ c₅ hc₅ hmembers => ?_
  refine accepts_bind hc₅ (accepts_symbol hc₅) fun _ ws₆ c₆ _ hclose => ?_
  rw [(hc.next hend).1.word_keyword hkind, hopen.1, hclose.1]
  cases superclass with
  | none =>
    obtain ⟨rfl, -⟩ := hsuper
    refine accepts_pure ⟨?_, hfree, by simp, hmembers.2⟩
    rw [Stmt.words, hmembers.1]
    simp [Method.listWords, SymbolPlace.symbol]
  | some ref =>
    obtain ⟨hless, hkind', ws, rfl, hfree', rfl⟩ := hsuper
    refine accepts_pure ⟨?_, hfree, by simpa using hfree', hmembers.2⟩
    rw [Stmt.words, hmembers.1, hless.word_symbol hkind']
    simp [Method.listWords, SymbolPlace.symbol]

theorem accepts_strictDeclaration (hg : Sound g) (hc : c.Plain) :
    Accepts (strictDeclaration g fuel) c fun s ws _ => Spoken s ws := by
  have hstatement : Accepts (statement g fuel) c fun s ws _ => Spoken s ws :=
    (accepts_statement hg hc).mono fun s ws _ hs => ⟨hs.1, hs.2.1⟩
  have hbranch : ∃ act : Parser Stmt, strictDeclaration g fuel c = act c ∧
      Accepts act c fun s ws _ => Spoken s ws := by
    unfold strictDeclaration
    split
    · rename_i hkind
      exact ⟨_, rfl, accepts_classDeclaration hg hc hkind⟩
    · rename_i hkind
      exact ⟨_, rfl, accepts_varDeclaration hg hc hkind⟩
    · rename_i hkind
      split
      · exact ⟨_, rfl, accepts_functionDeclaration hg hc hkind⟩
      · exact ⟨_, rfl, hstatement⟩
    · exact ⟨_, rfl, hstatement⟩
  obtain ⟨act, heq, h⟩ := hbranch
  exact h.of_eq heq

/-- A declaration that is given up has been reported. -/
theorem accepts_declaration (hg : Sound g) (hc : c.Plain) :
    Accepts (declaration g fuel) c fun s ws _ => ∃ s', s = some s' ∧ Spoken s' ws := by
  intro s c' hact hfound
  unfold declaration at hact
  cases hend : strictDeclaration g fuel c with
  | ok s' c₁ =>
    simp only [hend] at hact
    cases hact
    obtain ⟨read, hrest, hread, hs⟩ := accepts_strictDeclaration hg hc s' c' hend hfound
    exact ⟨read, hrest, hread, s', rfl, hs⟩
  | error stop c₁ =>
    have hleads : c.Leads c₁ := Steady.of_error hend
    cases stop with
    | exhausted => simp [hend] at hact
    | fault d =>
      simp only [hend] at hact
      cases hact
      have hlength := hleads.found.length_le
      have hmore := congrArg List.length hfound
      simp only [Cursor.report, List.length_append, List.length_singleton] at hmore
      omega

/-! ## The grammar -/

theorem sound_grammar (fuel : Nat) : Sound (grammar fuel) := by
  induction fuel with
  | zero =>
    intro n c _
    cases n <;> exact accepts_of_error rfl
  | succ fuel ih =>
    have hsteady (n : Nonterminal) : Steady (grammar fuel n) := steady_grammar fuel n
    intro n c hc
    cases n with
    | expression => exact accepts_expression ih hc
    | assignment => exact accepts_assignment ih hc
    | conditional => exact accepts_conditional ih hc
    | unary => exact accepts_unary ih hc
    | statement => exact accepts_statement ih hc
    | declaration => exact accepts_declaration ih hc

/-! ## Programs -/

theorem accepts_speculation {mode : Mode} {c : Cursor} {fuel : Nat} (hc : c.Plain) :
    Accepts (speculation mode fuel) c fun e ws c' => match e with
      | some e => e.words = ws ∧ e.Grammatical ∧ c'.atEnd
      | none => ws = [] := by
  have hnone : Accepts (speculation .script fuel) c fun e ws c' => match e with
      | some e => e.words = ws ∧ e.Grammatical ∧ c'.atEnd
      | none => ws = [] := accepts_none rfl rfl
  cases mode with
  | script => exact hnone
  | interactive =>
    intro e c' hact hfound
    change trailing fuel c = .ok e c' at hact
    obtain ⟨e', c₁, hact', hend, hatEnd, -⟩ | ⟨n, -, hact'⟩ | ⟨c₁, hact', -⟩ :=
      trailing_cases fuel c
    · rw [hact'] at hact
      cases hact
      obtain ⟨read, hrest, hread, he⟩ := sound_grammar fuel .expression c hc e' c' hend hfound
      exact ⟨read, hrest, hread, he.1, he.2.2, hatEnd⟩
    · rw [hact'] at hact
      cases hact
      exact ⟨[], rfl, by simp, rfl⟩
    · rw [hact'] at hact
      cases hact

/-- The statements that stand in front of the position already are written first. -/
theorem accepts_programFrom {mode : Mode} {fuel rounds : Nat} {done : List Stmt} {c : Cursor}
    (hc : c.Plain) (hdone : Stmt.AllGrammatical done.reverse) :
    Accepts (programFrom mode fuel rounds done) c fun p ws c' =>
      p.words = Stmt.listWords done.reverse ++ ws ∧ p.Grammatical ∧ c'.atEnd := by
  induction rounds generalizing done c with
  | zero => exact accepts_of_error rfl
  | succ rounds ih =>
    by_cases hend : c.atEnd
    · exact accepts_none (programFrom_atEnd mode rounds done hend) ⟨rfl, ⟨hdone, by simp⟩, hend⟩
    · refine Accepts.of_eq ?_ (programFrom_succ mode rounds done hend)
      refine accepts_bind hc (accepts_speculation hc) fun e ws₁ c₁ hc₁ he => ?_
      cases e with
      | some e =>
        obtain ⟨rfl, he, hatEnd⟩ := he
        refine accepts_pure ⟨?_, ⟨hdone, by simpa using he⟩, hatEnd⟩
        rw [List.append_nil]
        rfl
      | none =>
        have hrest : Accepts ((grammar fuel .declaration : Parser (Option Stmt)) >>= fun s =>
            programFrom mode fuel rounds (s.toList ++ done)) c₁ fun p ws c' =>
              p.words = Stmt.listWords done.reverse ++ ws ∧ p.Grammatical ∧ c'.atEnd := by
          have hsteady : Steady (grammar fuel .declaration : Parser (Option Stmt)) :=
            steady_grammar fuel .declaration
          refine accepts_bind hc₁ (sound_grammar fuel .declaration c₁ hc₁) fun s ws c₂ hc₂ hs => ?_
          obtain ⟨s, rfl, rfl, hs⟩ := hs
          have hall : Stmt.AllGrammatical (s :: done).reverse := by
            rw [List.reverse_cons, Stmt.allGrammatical_append]
            exact ⟨hdone, hs, trivial⟩
          refine (ih hc₂ hall).mono fun p ws _ hp => ⟨?_, hp.2⟩
          rw [hp.1, List.reverse_cons, Stmt.listWords_append]
          simp [Stmt.listWords]
        change ws₁ = [] at he
        subst he
        exact hrest

end ScriptLang.Grammar

namespace ScriptLang

open Grammar

/-- What is read before the mark of the end is all of the source but that mark. -/
theorem Source.dropLast_eq_of_atEnd {source : String} {read : List Token} {c : Cursor}
    (hrest : tokens source = read ++ c.rest) (hread : ∀ t ∈ read, t.kind ≠ .endOfInput)
    (hend : c.atEnd) : (tokens source).dropLast = read := by
  have hkind : c.kind = .endOfInput := by simpa [Cursor.atEnd] using hend
  have hmark := ne_end_of_mem_dropLast source
  unfold Cursor.kind Cursor.next at hkind
  cases hc : c.rest with
  | nil =>
    -- the mark itself would have been read
    rw [hc, List.append_nil] at hrest
    have hlast := hread (.endOfInput (1 + newlines source.toList)) (by rw [← hrest]; simp [tokens])
    exact absurd rfl hlast
  | cons t rest =>
    rw [hc] at hrest hkind
    rw [hrest, List.dropLast_append_of_ne_nil (List.cons_ne_nil t rest)]
    cases rest with
    | nil => simp
    | cons t' rest =>
      refine absurd hkind (hmark t ?_)
      rw [hrest, List.dropLast_append_of_ne_nil (List.cons_ne_nil t _)]
      simp

/-- **What is parsed is what was written.** From a source without loops with clauses, in either
mode, a program that is accepted has as its words the tokens of the source without the mark of
the end, none lost, doubled or moved. And it is grammatical: every operand is at the level of
its place, every `else` belongs to the nearest choice that is open, and neither a branch nor the
body of a loop is a declaration. -/
theorem Program.words_of_parse (source : String) (mode : Mode) (nextRef : Nat) (p : Program)
    (hloops : ∀ t ∈ Source.tokens source, t.kind ≠ .keyword .for)
    (hparse : (Program.parse (Source.tokens source) mode nextRef).result = .ok p) :
    p.words = (Source.tokens source).dropLast.map Token.word ∧ p.Grammatical := by
  have hc : (Cursor.start (Source.tokens source) nextRef).Plain :=
    fun t ht => ⟨Source.tokens_exact source t ht, hloops t ht⟩
  have hnone : Stmt.AllGrammatical ([] : List Stmt).reverse := trivial
  unfold Program.parse at hparse
  cases hend : program mode (.start (Source.tokens source) nextRef) with
  | error stop c => simp [hend] at hparse
  | ok p' c =>
    simp only [hend] at hparse
    split at hparse
    · rename_i hfound
      cases hparse
      obtain ⟨read, hrest, hread, hwords, hp, hatEnd⟩ :=
        accepts_programFrom hc hnone p c hend hfound
      rw [Source.dropLast_eq_of_atEnd hrest hread hatEnd]
      exact ⟨hwords, hp⟩
    · cases hparse

/-- A choice with an `else` inside a choice without one, and an operator with two operands. -/
theorem Program.words_of_nested_choice :
    ∃ p, (Program.parse (Source.tokens "if (a) if (b) print 1 + 2; else c = 3;") .script 0).result =
        .ok p ∧
      p.words = (Source.tokens "if (a) if (b) print 1 + 2; else c = 3;").dropLast.map Token.word ∧
        p.Grammatical := by
  refine ⟨_, rfl, Program.words_of_parse _ .script 0 _ ?_ rfl⟩
  decide

end ScriptLang
