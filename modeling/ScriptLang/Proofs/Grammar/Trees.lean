import ScriptLang.Grammar.Program
import ScriptLang.Proofs.Grammar.Reading

/-!
# Trees that are parsed

Every rule of the grammar reads a fresh tree, if the nonterminals in it stand for parsers that
do (`Faithful`). By induction on the depth of nesting so does the grammar itself
(`faithful_grammar`), and a program that is parsed from a source is well-formed, with
references that have numbers of their own (`Program.parse_fresh`).
-/

namespace ScriptLang.Grammar

open Scoping (Phrase)

/-- A tree of a nonterminal that is fresh between two numbers. A statement that is no
declaration declares nothing either. -/
def Nonterminal.Fresh (lo hi : Nat) : (n : Nonterminal) → n.Tree → Prop
  | .expression, e => (Phrase.expression e).Fresh lo hi
  | .assignment, e => (Phrase.expression e).Fresh lo hi
  | .conditional, e => (Phrase.expression e).Fresh lo hi
  | .unary, e => (Phrase.expression e).Fresh lo hi
  | .statement, s => (Phrase.statement s).Fresh lo hi ∧ s.declares = []
  | .declaration, s => (Phrase.statements s.toList).Fresh lo hi

/-- The parsers of a grammar read fresh trees. -/
def Faithful (g : Grammar) : Prop :=
  ∀ n c, c.Honest → Reads (g n) c fun t c' => n.Fresh c.nextRef c'.nextRef t

variable {g : Grammar} {fuel lo mid hi : Nat} {c : Cursor}

/-! ## Lists -/

/-- The expression that joins two others has the references of both, in their order. -/
def Joins (join : Kind → Option (Lexeme → Expr → Expr → Expr)) : Prop :=
  ∀ kind node, join kind = some node → ∀ word left right lo mid hi,
    (Phrase.expression left).Fresh lo mid → (Phrase.expression right).Fresh mid hi →
    (Phrase.expression (node word left right)).Fresh lo hi

section Lists

variable {join : Kind → Option (Lexeme → Expr → Expr → Expr)} {operand : Parser Expr}

theorem reads_chainFrom (hjoin : Joins join)
    (hoperand : ∀ c, c.Honest → Reads operand c fun e c' =>
      (Phrase.expression e).Fresh c.nextRef c'.nextRef)
    {left : Expr} (hc : c.Honest) (hleft : (Phrase.expression left).Fresh lo c.nextRef) :
    Reads (chainFrom join operand fuel left) c fun e c' =>
      (Phrase.expression e).Fresh lo c'.nextRef := by
  induction fuel generalizing left c with
  | zero => exact reads_exhausted hc
  | succ fuel ih =>
    cases hnode : join c.kind with
    | none =>
      unfold Reads chainFrom
      simp only [hnode]
      exact ⟨hc, Nat.le_refl _, hleft⟩
    | some node =>
      have hrest : Reads (operand >>= fun right =>
          chainFrom join operand fuel (node c.next.lexeme left right)) c.advance fun e c' =>
            (Phrase.expression e).Fresh lo c'.nextRef := by
        refine reads_bind (hoperand _ hc.advance) fun right c₁ hc₁ _ hright => ?_
        exact ih hc₁ (hjoin _ node hnode _ _ _ _ _ _ hleft hright)
      refine hrest.of_eq ?_ (Nat.le_refl _)
      rw [bind_eq_match, chainFrom]
      simp only [hnode]
      cases operand c.advance <;> rfl

theorem reads_chain (hjoin : Joins join)
    (hoperand : ∀ c, c.Honest → Reads operand c fun e c' =>
      (Phrase.expression e).Fresh c.nextRef c'.nextRef) (hc : c.Honest) :
    Reads (chain join operand fuel) c fun e c' =>
      (Phrase.expression e).Fresh c.nextRef c'.nextRef := by
  unfold chain
  exact reads_bind (hoperand c hc) fun left c₁ hc₁ _ hleft => reads_chainFrom hjoin hoperand hc₁ hleft

variable {α : Type} {item : Parser α} {tooMany : GrammarFault} {closing : SymbolPlace}
  (good : Nat → Nat → List α → Prop)

/-- Items are read one after the other. What holds of no item, and of items with one more, holds
of all of them. -/
theorem reads_itemsFrom
    (hitem : ∀ listed lo c, c.Honest → good lo c.nextRef listed →
      Reads item c fun x c' => good lo c'.nextRef (listed ++ [x]))
    (hwiden : ∀ listed lo mid hi, mid ≤ hi → good lo mid listed → good lo hi listed)
    {listed : List α} (hc : c.Honest) (hlisted : good lo c.nextRef listed) :
    Reads (itemsFrom tooMany item fuel listed) c fun xs c' => good lo c'.nextRef xs := by
  induction fuel generalizing listed c with
  | zero => exact reads_exhausted hc
  | succ fuel ih =>
    have hrest (c : Cursor) (hc : c.Honest) (hlisted : good lo c.nextRef listed) :
        Reads (item >>= fun x => skip (.symbol .comma) >>= fun more =>
          if more then itemsFrom tooMany item fuel (listed ++ [x]) else pure (listed ++ [x])) c
          fun xs c' => good lo c'.nextRef xs := by
      refine reads_bind (hitem listed lo c hc hlisted) fun x c₁ hc₁ _ hx => ?_
      refine reads_bind (reads_skip hc₁) fun more c₂ hc₂ hle _ => ?_
      have hx' := hwiden _ _ _ _ hle hx
      cases more with
      | true => exact ih hc₂ hx'
      | false => exact reads_pure hc₂ hx'
    rw [itemsFrom]
    by_cases hlength : maxListed ≤ listed.length
    · rw [if_pos hlength]
      exact reads_bind (reads_reportHere hc) fun _ c₁ hc₁ hle _ =>
        hrest c₁ hc₁ (hwiden _ _ _ _ hle hlisted)
    · rw [if_neg hlength]
      exact hrest c hc hlisted

theorem reads_items
    (hitem : ∀ listed lo c, c.Honest → good lo c.nextRef listed →
      Reads item c fun x c' => good lo c'.nextRef (listed ++ [x]))
    (hwiden : ∀ listed lo mid hi, mid ≤ hi → good lo mid listed → good lo hi listed)
    (hnil : ∀ lo, good lo lo []) (hc : c.Honest) :
    Reads (items tooMany closing item fuel) c fun xs c' => good c.nextRef c'.nextRef xs.1 := by
  have hclose (listed : List α) (c₁ : Cursor) (hc₁ : c₁.Honest)
      (hlisted : good c.nextRef c₁.nextRef listed) :
      Reads (symbol closing >>= fun close => pure (listed, close)) c₁ fun xs c' =>
        good c.nextRef c'.nextRef xs.1 := by
    refine reads_bind (reads_symbol hc₁) fun close c₂ hc₂ hle _ => ?_
    exact reads_pure hc₂ (hwiden _ _ _ _ hle hlisted)
  unfold items
  refine reads_bind (reads_looksAt hc) fun closed c₁ hc₁ hle _ => ?_
  cases closed with
  | true => exact hclose [] c₁ hc₁ (hwiden _ _ _ _ hle (hnil _))
  | false =>
    refine reads_bind (reads_itemsFrom good hitem hwiden hc₁ (hwiden _ _ _ _ hle (hnil _)))
      fun listed c₂ hc₂ _ hlisted => ?_
    exact hclose listed c₂ hc₂ hlisted

end Lists

/-! ## Blocks and routines -/

theorem declarationsFrom_closed {done : List Stmt} (h : c.kind = .symbol .rightBrace ∨ c.atEnd) :
    declarationsFrom g (fuel + 1) done c = .ok done.reverse c := if_pos h

theorem declarationsFrom_succ {done : List Stmt} (h : ¬ (c.kind = .symbol .rightBrace ∨ c.atEnd)) :
    declarationsFrom g (fuel + 1) done c = match g .declaration c with
    | .ok s c' => declarationsFrom g fuel (s.toList ++ done) c'
    | .error stop c' => .error stop c' := if_neg h

theorem declarationsFrom_open {done : List Stmt}
    (h : ¬ (c.kind = .symbol .rightBrace ∨ c.atEnd)) :
    declarationsFrom g (fuel + 1) done c =
      (g .declaration >>= fun s => declarationsFrom g fuel (s.toList ++ done)) c := by
  rw [declarationsFrom_succ h, bind_eq_match]
  cases g .declaration c <;> rfl

theorem reads_declarationsFrom (hg : Faithful g) {done : List Stmt} (hc : c.Honest)
    (hdone : (Phrase.statements done.reverse).Fresh lo c.nextRef) :
    Reads (declarationsFrom g fuel done) c fun body c' =>
      (Phrase.statements body).Fresh lo c'.nextRef := by
  induction fuel generalizing done c with
  | zero => exact reads_exhausted hc
  | succ fuel ih =>
    by_cases hclosed : c.kind = .symbol .rightBrace ∨ c.atEnd
    · exact reads_of_ok (declarationsFrom_closed hclosed) hc (Nat.le_refl _) hdone
    · have hrest : Reads (g .declaration >>= fun s =>
          declarationsFrom g fuel (s.toList ++ done)) c fun body c' =>
            (Phrase.statements body).Fresh lo c'.nextRef := by
        refine reads_bind (hg .declaration c hc) fun s c₁ hc₁ _ hs => ?_
        refine ih hc₁ ?_
        have hall := hdone.appendStatements hs
        cases s with
        | none => simpa using hall
        | some s => simpa using hall
      exact hrest.of_eq (declarationsFrom_open hclosed) (Nat.le_refl _)

theorem reads_block (hg : Faithful g) (hc : c.Honest) :
    Reads (block g fuel) c fun body c' =>
      (Phrase.statements body).Fresh c.nextRef c'.nextRef := by
  unfold block
  refine reads_bind (reads_declarationsFrom hg hc (Phrase.fresh_noStatements (Nat.le_refl _)))
    fun body c₁ hc₁ _ hbody => ?_
  refine reads_bind (reads_symbol hc₁) fun _ c₂ hc₂ h₂ _ => ?_
  exact reads_pure hc₂ (hbody.widen (Nat.le_refl _) h₂)

theorem reads_parameters {tooMany : GrammarFault} {closing : SymbolPlace} {place : NamePlace}
    (hc : c.Honest) :
    Reads (items tooMany closing (identifier place) fuel) c fun xs _ =>
      ∀ p ∈ xs.1, IsFree p.text := by
  refine reads_items (fun _ _ (xs : List Lexeme) => ∀ p ∈ xs, IsFree p.text)
    (fun listed lo c hc hlisted => ?_) (fun _ _ _ _ _ h => h) (fun _ => by simp) hc
  refine (reads_identifier hc).mono fun p _ hp q hq => ?_
  rcases List.mem_append.mp hq with hq | hq
  · exact hlisted q hq
  · rw [List.mem_singleton] at hq
    subst hq
    exact hp

theorem reads_routine (hg : Faithful g) {kind : RoutineKind} (hc : c.Honest) :
    Reads (routine g fuel kind) c fun r c' => (Phrase.routine r).Fresh c.nextRef c'.nextRef := by
  unfold routine
  refine reads_bind (reads_parameters hc) fun xs c₁ hc₁ h₁ hparams => ?_
  obtain ⟨params, close⟩ := xs
  refine reads_bind (reads_symbol hc₁) fun _ c₂ hc₂ h₂ _ => ?_
  refine reads_bind (reads_block hg hc₂) fun body c₃ hc₃ _ hbody => ?_
  have hnumbered := hbody.numbered.widen (Nat.le_trans h₁ h₂) (Nat.le_refl _)
  exact reads_pure hc₃ ⟨⟨hparams, hbody.wellFormed⟩, hnumbered⟩

/-! ## Expressions -/

theorem reads_primary (hg : Faithful g) (hc : c.Honest) :
    Reads (primary g fuel) c fun e c' => (Phrase.expression e).Fresh c.nextRef c'.nextRef := by
  have hliteral (value : Literal) : Reads (fun c => .ok (.literal value) c.advance) c
      fun e c' => (Phrase.expression e).Fresh c.nextRef c'.nextRef :=
    ⟨hc.advance, Nat.le_refl _, trivial, .nil (Nat.le_refl _)⟩
  have hbranch : ∃ act : Parser Expr, primary g fuel c = act c ∧ Reads act c fun e c' =>
      (Phrase.expression e).Fresh c.nextRef c'.nextRef := by
    unfold primary
    split
    · exact ⟨_, rfl, hliteral (.bool false)⟩
    · exact ⟨_, rfl, hliteral (.bool true)⟩
    · exact ⟨_, rfl, hliteral .nil⟩
    · exact ⟨_, rfl, hliteral c.next.literal⟩
    · exact ⟨_, rfl, hliteral c.next.literal⟩
    · rename_i hkind
      refine ⟨_, rfl, reads_bind (reads_take hc) fun t c₁ hc₁ h₁ ht => ?_⟩
      refine reads_bind (reads_fresh hc₁) fun ref c₂ hc₂ _ href => ?_
      obtain ⟨hword, hnumbered⟩ := href
      refine reads_pure hc₂ ⟨?_, hnumbered.widen h₁ (Nat.le_refl _)⟩
      change IsFree ref.word.text
      rw [hword, ht]
      exact hc.next.identifier hkind
    · rename_i hkind
      refine ⟨_, rfl, reads_bind (reads_take hc) fun t c₁ hc₁ h₁ ht => ?_⟩
      refine reads_bind (reads_fresh hc₁) fun ref c₂ hc₂ _ href => ?_
      obtain ⟨hword, hnumbered⟩ := href
      refine reads_pure hc₂ ⟨?_, hnumbered.widen h₁ (Nat.le_refl _)⟩
      change ref.word.text = "this"
      rw [hword, ht]
      exact hc.next.keyword .this hkind
    · rename_i hkind
      refine ⟨_, rfl, reads_bind (reads_take hc) fun t c₁ hc₁ h₁ ht => ?_⟩
      refine reads_bind (reads_symbol hc₁) fun _ c₂ hc₂ h₂ _ => ?_
      refine reads_bind (reads_identifier hc₂) fun method c₃ hc₃ h₃ _ => ?_
      refine reads_bind (reads_fresh hc₃) fun ref c₄ hc₄ _ href => ?_
      obtain ⟨hword, hnumbered⟩ := href
      refine reads_pure hc₄ ⟨?_, hnumbered.widen (by omega) (Nat.le_refl _)⟩
      change ref.word.text = "super"
      rw [hword, ht]
      exact hc.next.keyword .super hkind
    · refine ⟨_, rfl, reads_bind (reads_take hc) fun t c₁ hc₁ h₁ _ => ?_⟩
      refine reads_bind (reads_symbol hc₁) fun _ c₂ hc₂ h₂ _ => ?_
      refine reads_bind (reads_routine hg hc₂) fun r c₃ hc₃ _ hr => ?_
      obtain ⟨params, body⟩ := r
      exact reads_pure hc₃ ⟨hr.wellFormed, hr.numbered.widen (by omega) (Nat.le_refl _)⟩
    · refine ⟨_, rfl, reads_bind (reads_take hc) fun t c₁ hc₁ h₁ _ => ?_⟩
      refine reads_bind (hg .expression c₁ hc₁) fun inner c₂ hc₂ _ hinner => ?_
      refine reads_bind (reads_symbol hc₂) fun _ c₃ hc₃ h₃ _ => ?_
      exact reads_pure hc₃ ⟨hinner.wellFormed, hinner.numbered.widen h₁ h₃⟩
    · exact ⟨_, rfl, reads_failHere hc⟩
  obtain ⟨act, heq, h⟩ := hbranch
  exact h.of_eq heq (Nat.le_refl _)

theorem reads_arguments (hg : Faithful g) {tooMany : GrammarFault} {closing : SymbolPlace}
    (hc : c.Honest) :
    Reads (items tooMany closing (g .assignment) fuel) c fun xs c' =>
      (Phrase.expressions xs.1).Fresh c.nextRef c'.nextRef := by
  refine reads_items (fun lo hi xs => (Phrase.expressions xs).Fresh lo hi)
    (fun listed lo c hc hlisted => ?_) (fun _ _ _ _ hle h => h.widen (Nat.le_refl _) hle)
    (fun _ => Phrase.fresh_noExpressions (Nat.le_refl _)) hc
  exact (hg .assignment c hc).mono fun e _ he => hlisted.concatExpression he

theorem reads_suffixesFrom (hg : Faithful g) {e : Expr} (hc : c.Honest)
    (he : (Phrase.expression e).Fresh lo c.nextRef) :
    Reads (suffixesFrom g fuel e) c fun e c' => (Phrase.expression e).Fresh lo c'.nextRef := by
  induction fuel generalizing e c with
  | zero => exact reads_exhausted hc
  | succ fuel ih =>
    rw [suffixesFrom]
    refine reads_bind (reads_skip hc) fun called c₁ hc₁ h₁ _ => ?_
    cases called with
    | true =>
      refine reads_bind (reads_arguments hg hc₁) fun xs c₂ hc₂ _ hxs => ?_
      obtain ⟨arguments, closing⟩ := xs
      refine ih hc₂ ⟨⟨he.wellFormed, hxs.wellFormed⟩, ?_⟩
      rw [Phrase.ids_call]
      exact (he.numbered.widen (Nat.le_refl _) h₁).append hxs.numbered
    | false =>
      refine reads_bind (reads_skip hc₁) fun dotted c₂ hc₂ h₂ _ => ?_
      cases dotted with
      | true =>
        refine reads_bind (reads_identifier hc₂) fun property c₃ hc₃ h₃ _ => ?_
        exact ih hc₃ ⟨he.wellFormed, he.numbered.widen (Nat.le_refl _) (by omega)⟩
      | false => exact reads_pure hc₂ (he.widen (Nat.le_refl _) (by omega))

theorem reads_unary (hg : Faithful g) (hc : c.Honest) :
    Reads (unary g fuel) c fun e c' => (Phrase.expression e).Fresh c.nextRef c'.nextRef := by
  cases hop : unaryOp c.kind with
  | none =>
    have hcall : Reads (call g fuel) c fun e c' =>
        (Phrase.expression e).Fresh c.nextRef c'.nextRef :=
      reads_bind (reads_primary hg hc) fun e c₁ hc₁ _ he => reads_suffixesFrom hg hc₁ he
    refine hcall.of_eq ?_ (Nat.le_refl _)
    unfold unary
    rw [hop]
  | some op =>
    have hoperand : Reads (g .unary >>= fun e => pure (.unary op c.next.lexeme e)) c.advance
        fun e c' => (Phrase.expression e).Fresh c.nextRef c'.nextRef := by
      refine reads_bind (hg .unary c.advance hc.advance) fun e c₁ hc₁ _ he => ?_
      exact reads_pure hc₁ ⟨he.wellFormed, he.numbered⟩
    refine hoperand.of_eq ?_ (Nat.le_refl _)
    rw [bind_eq_match]
    unfold unary
    rw [hop]
    cases g .unary c.advance <;> rfl

/-! ## Operators with two operands -/

theorem fresh_binary {op : BinaryOp} {word : Lexeme} {left right : Expr}
    (hleft : (Phrase.expression left).Fresh lo mid)
    (hright : (Phrase.expression right).Fresh mid hi) :
    (Phrase.expression (.binary op word left right)).Fresh lo hi := by
  refine ⟨⟨hleft.wellFormed, hright.wellFormed⟩, ?_⟩
  rw [Phrase.ids_binary]
  exact hleft.numbered.append hright.numbered

theorem fresh_logical {op : LogicalOp} {word : Lexeme} {left right : Expr}
    (hleft : (Phrase.expression left).Fresh lo mid)
    (hright : (Phrase.expression right).Fresh mid hi) :
    (Phrase.expression (.logical op word left right)).Fresh lo hi := by
  refine ⟨⟨hleft.wellFormed, hright.wellFormed⟩, ?_⟩
  rw [Phrase.ids_logical]
  exact hleft.numbered.append hright.numbered

theorem joins_rank (rank : Rank) : Joins rank.join := by
  intro kind node hnode word left right lo mid hi hleft hright
  unfold Rank.join at hnode
  split at hnode <;> cases hnode
  all_goals first | exact fresh_binary hleft hright | exact fresh_logical hleft hright

theorem joins_comma : Joins commaJoin := by
  intro kind node hnode word left right lo mid hi hleft hright
  unfold commaJoin at hnode
  split at hnode
  · cases hnode
    refine ⟨⟨hleft.wellFormed, hright.wellFormed⟩, ?_⟩
    rw [Phrase.ids_comma]
    exact hleft.numbered.append hright.numbered
  · cases hnode

theorem reads_disjunction (hg : Faithful g) (hc : c.Honest) :
    Reads (disjunction g fuel) c fun e c' =>
      (Phrase.expression e).Fresh c.nextRef c'.nextRef := by
  refine reads_chain (joins_rank .disjunction) (fun c hc => ?_) hc
  refine reads_chain (joins_rank .conjunction) (fun c hc => ?_) hc
  refine reads_chain (joins_rank .equality) (fun c hc => ?_) hc
  refine reads_chain (joins_rank .comparison) (fun c hc => ?_) hc
  refine reads_chain (joins_rank .sum) (fun c hc => ?_) hc
  refine reads_chain (joins_rank .product) (fun c hc => ?_) hc
  exact reads_unary hg hc

theorem reads_conditional (hg : Faithful g) (hc : c.Honest) :
    Reads (conditional g fuel) c fun e c' =>
      (Phrase.expression e).Fresh c.nextRef c'.nextRef := by
  unfold conditional
  refine reads_bind (reads_disjunction hg hc) fun condition c₁ hc₁ _ hcondition => ?_
  refine reads_bind (reads_skip hc₁) fun asked c₂ hc₂ h₂ _ => ?_
  cases asked with
  | false => exact reads_pure hc₂ (hcondition.widen (Nat.le_refl _) h₂)
  | true =>
    refine reads_bind (hg .expression c₂ hc₂) fun whenTrue c₃ hc₃ _ hwhenTrue => ?_
    refine reads_bind (reads_symbol hc₃) fun _ c₄ hc₄ h₄ _ => ?_
    refine reads_bind (hg .conditional c₄ hc₄) fun whenFalse c₅ hc₅ _ hwhenFalse => ?_
    refine reads_pure hc₅ ⟨⟨hcondition.wellFormed, hwhenTrue.wellFormed, hwhenFalse.wellFormed⟩, ?_⟩
    rw [Phrase.ids_conditional]
    exact ((hcondition.numbered.widen (Nat.le_refl _) h₂).append
      (hwhenTrue.numbered.widen (Nat.le_refl _) h₄)).append hwhenFalse.numbered

/-- The reference of a target that is assigned to was read before the value. -/
theorem fresh_assignTo? {target value e : Expr} (h : assignTo? target value = some e)
    (htarget : (Phrase.expression target).Fresh lo mid)
    (hvalue : (Phrase.expression value).Fresh mid hi) : (Phrase.expression e).Fresh lo hi := by
  unfold assignTo? at h
  split at h
  · cases h
    refine ⟨⟨htarget.wellFormed, hvalue.wellFormed⟩, ?_⟩
    have hnumbered := htarget.numbered.append hvalue.numbered
    simpa using hnumbered
  · cases h
    refine ⟨⟨htarget.wellFormed, hvalue.wellFormed⟩, ?_⟩
    rw [Phrase.ids_set]
    exact htarget.numbered.append hvalue.numbered
  · cases h

theorem reads_assignment (hg : Faithful g) (hc : c.Honest) :
    Reads (assignment g fuel) c fun e c' =>
      (Phrase.expression e).Fresh c.nextRef c'.nextRef := by
  unfold assignment
  refine reads_bind (reads_conditional hg hc) fun target c₁ hc₁ _ htarget => ?_
  refine reads_bind (reads_looksAt hc₁) fun assigned c₂ hc₂ h₂ _ => ?_
  cases assigned with
  | false => exact reads_pure hc₂ (htarget.widen (Nat.le_refl _) h₂)
  | true =>
    refine reads_bind (reads_take hc₂) fun equals c₃ hc₃ h₃ _ => ?_
    refine reads_bind (hg .assignment c₃ hc₃) fun value c₄ hc₄ h₄ hvalue => ?_
    cases he : assignTo? target value with
    | some e =>
      exact reads_pure hc₄ (fresh_assignTo? he (htarget.widen (Nat.le_refl _) (by omega)) hvalue)
    | none =>
      refine reads_bind (reads_reportAt hc₄) fun _ c₅ hc₅ h₅ _ => ?_
      exact reads_pure hc₅ (htarget.widen (Nat.le_refl _) (by omega))

theorem reads_expression (hg : Faithful g) (hc : c.Honest) :
    Reads (expression g fuel) c fun e c' =>
      (Phrase.expression e).Fresh c.nextRef c'.nextRef :=
  reads_chain joins_comma (fun _ hc => reads_assignment hg hc) hc

/-! ## Statements -/

/-- A fresh statement that declares nothing. -/
def Plain (lo hi : Nat) (s : Stmt) : Prop := (Phrase.statement s).Fresh lo hi ∧ s.declares = []

theorem reads_declaratorsFrom (hg : Faithful g) {ds : List Declarator} (hc : c.Honest)
    (hds : (Phrase.declarators ds).Fresh lo c.nextRef) :
    Reads (declaratorsFrom g fuel ds) c fun ds c' =>
      (Phrase.declarators ds).Fresh lo c'.nextRef := by
  induction fuel generalizing ds c with
  | zero => exact reads_exhausted hc
  | succ fuel ih =>
    let next (ds : List Declarator) : Parser (List Declarator) := do
      if ← skip (.symbol .comma) then declaratorsFrom g fuel ds else pure ds
    have hnext (ds : List Declarator) (c : Cursor) (hc : c.Honest)
        (hds : (Phrase.declarators ds).Fresh lo c.nextRef) :
        Reads (pure ds >>= next) c fun ds c' => (Phrase.declarators ds).Fresh lo c'.nextRef := by
      change Reads (next ds) c _
      refine reads_bind (reads_skip hc) fun more c₁ hc₁ h₁ _ => ?_
      cases more with
      | true => exact ih hc₁ (hds.widen (Nat.le_refl _) h₁)
      | false => exact reads_pure hc₁ (hds.widen (Nat.le_refl _) h₁)
    -- a repeated name drops its variable, so its references are not in the tree
    have hone (token : Token) (name : Lexeme) (initializer : Option Expr) (c c' : Cursor)
        (hc' : c'.Honest) (hle : c.nextRef ≤ c'.nextRef)
        (hds : (Phrase.declarators ds).Fresh lo c.nextRef)
        (hd : (Phrase.declarators [⟨name, initializer⟩]).Fresh c.nextRef c'.nextRef) :
        Reads (if ds.any (·.name.text = name.text) then
            reportAt token .repeatedVariable >>= fun _ => pure ds >>= next
          else pure (ds ++ [⟨name, initializer⟩]) >>= next) c' fun ds c' =>
            (Phrase.declarators ds).Fresh lo c'.nextRef := by
      by_cases hrepeated : ds.any (·.name.text = name.text)
      · rw [if_pos hrepeated]
        refine reads_bind (reads_reportAt hc') fun _ c₂ hc₂ h₂ _ => ?_
        exact hnext ds c₂ hc₂ (hds.widen (Nat.le_refl _) (by omega))
      · rw [if_neg hrepeated]
        exact hnext _ c' hc' (hds.appendDeclarators hd)
    rw [declaratorsFrom]
    refine reads_bind (reads_peek hc) fun token c₁ hc₁ h₁ _ => ?_
    refine reads_bind (reads_identifier hc₁) fun name c₂ hc₂ h₂ hname => ?_
    refine reads_bind (reads_skip hc₂) fun initialized c₃ hc₃ h₃ _ => ?_
    have hds' := hds.widen (Nat.le_refl _) (Nat.le_trans h₁ (Nat.le_trans h₂ h₃))
    cases initialized with
    | false =>
      exact hone token name none c₃ c₃ hc₃ (Nat.le_refl _) hds'
        ⟨⟨hname, trivial⟩, .nil (Nat.le_refl _)⟩
    | true =>
      refine reads_bind (reads_map (hg .assignment c₃ hc₃)) fun initializer c₄ hc₄ h₄ he => ?_
      obtain ⟨e, rfl, he⟩ := he
      refine hone token name (some e) c₃ c₄ hc₄ h₄ hds' ⟨⟨hname, he.wellFormed, trivial⟩, ?_⟩
      simpa using he.numbered

theorem reads_varDeclaration (hg : Faithful g) (hc : c.Honest) :
    Reads (varDeclaration g fuel) c fun s c' =>
      (Phrase.statement s).Fresh c.nextRef c'.nextRef := by
  unfold varDeclaration
  refine reads_bind (reads_take hc) fun _ c₁ hc₁ h₁ _ => ?_
  refine reads_bind (reads_declaratorsFrom hg hc₁ (Phrase.fresh_noDeclarators (Nat.le_refl _)))
    fun ds c₂ hc₂ _ hds => ?_
  refine reads_bind (reads_symbol hc₂) fun _ c₃ hc₃ h₃ _ => ?_
  exact reads_pure hc₃ ⟨hds.wellFormed, hds.numbered.widen h₁ h₃⟩

theorem reads_expressionStatement (hg : Faithful g) (hc : c.Honest) :
    Reads (expressionStatement g fuel) c fun s c' => Plain c.nextRef c'.nextRef s := by
  unfold expressionStatement
  refine reads_bind (reads_expression hg hc) fun e c₁ hc₁ _ he => ?_
  refine reads_bind (reads_symbol hc₁) fun _ c₂ hc₂ h₂ _ => ?_
  exact reads_pure hc₂ ⟨⟨he.wellFormed, he.numbered.widen (Nat.le_refl _) h₂⟩, rfl⟩

theorem reads_breakStatement (hc : c.Honest) :
    Reads breakStatement c fun s c' => Plain c.nextRef c'.nextRef s := by
  unfold breakStatement
  refine reads_bind (reads_take hc) fun keyword c₁ hc₁ h₁ _ => ?_
  refine reads_bind (reads_symbol hc₁) fun _ c₂ hc₂ h₂ _ => ?_
  exact reads_pure hc₂ ⟨⟨trivial, .nil (Nat.le_trans h₁ h₂)⟩, rfl⟩

theorem reads_clauseUpTo (hg : Faithful g) {s : Symbol} (hc : c.Honest) :
    Reads (clauseUpTo g s) c fun clause c' =>
      (Phrase.expressions clause.toList).Fresh c.nextRef c'.nextRef := by
  unfold clauseUpTo
  refine reads_bind (reads_looksAt hc) fun missing c₁ hc₁ h₁ _ => ?_
  cases missing with
  | true => exact reads_pure hc₁ (Phrase.fresh_noExpressions h₁)
  | false =>
    refine (reads_map (hg .expression c₁ hc₁)).mono fun clause c₂ he => ?_
    obtain ⟨e, rfl, he⟩ := he
    have hnone : (Phrase.expressions []).Fresh c.nextRef c₁.nextRef := Phrase.fresh_noExpressions h₁
    exact hnone.concatExpression he

theorem reads_forInitializer (hg : Faithful g) (hc : c.Honest) :
    Reads (forInitializer g fuel) c fun s c' =>
      (Phrase.statements s.toList).Fresh c.nextRef c'.nextRef := by
  have hsome {s : Stmt} {c₁ c₂ : Cursor} (hle : c.nextRef ≤ c₁.nextRef)
      (hs : (Phrase.statement s).Fresh c₁.nextRef c₂.nextRef) :
      (Phrase.statements [s]).Fresh c.nextRef c₂.nextRef := by
    refine ⟨⟨hs.wellFormed, trivial⟩, ?_⟩
    have hnumbered := hs.numbered.widen hle (Nat.le_refl _)
    simpa using hnumbered
  unfold forInitializer
  refine reads_bind (reads_skip hc) fun missing c₁ hc₁ h₁ _ => ?_
  cases missing with
  | true => exact reads_pure hc₁ (Phrase.fresh_noStatements h₁)
  | false =>
    refine reads_bind (reads_looksAt hc₁) fun declared c₂ hc₂ h₂ _ => ?_
    cases declared with
    | true =>
      refine (reads_map (reads_varDeclaration hg hc₂)).mono fun _ c₃ hs => ?_
      obtain ⟨s, rfl, hs⟩ := hs
      exact hsome (Nat.le_trans h₁ h₂) hs
    | false =>
      refine (reads_map (reads_expressionStatement hg hc₂)).mono fun _ c₃ hs => ?_
      obtain ⟨s, rfl, hs⟩ := hs
      exact hsome (Nat.le_trans h₁ h₂) hs.1

theorem plain_whileLoop {condition : Expr} {body : Stmt}
    (hcondition : (Phrase.expression condition).Fresh lo mid) (hbody : Plain mid hi body) :
    Plain lo hi (.whileLoop condition body) := by
  refine ⟨⟨⟨hcondition.wellFormed, hbody.1.wellFormed, hbody.2⟩, ?_⟩, hbody.2⟩
  rw [Phrase.ids_while]
  exact hcondition.numbered.append hbody.1.numbered

/-- The increment of a loop is read before its body and stands behind it. -/
theorem plain_round {increment : Option Expr} {body : Stmt} (hbody : Plain mid hi body) :
    (Phrase.expressions increment.toList).Fresh lo mid →
    Plain lo hi (match increment with
      | some e => .block [body, .expression e]
      | none => body) := by
  intro hincrement
  have hnumbered := hincrement.numbered.append hbody.1.numbered
  cases increment with
  | none => exact ⟨⟨hbody.1.wellFormed, by simpa using hnumbered⟩, hbody.2⟩
  | some e =>
    refine ⟨⟨⟨hbody.1.wellFormed, hincrement.wellFormed.1, trivial⟩, ?_⟩, rfl⟩
    have hturned := hnumbered.perm List.perm_append_comm
    simpa using hturned

theorem plain_forLoop {initializer : Option Stmt} {condition increment : Option Expr}
    {body : Stmt} {n₁ n₂ n₃ : Nat}
    (hinitializer : (Phrase.statements initializer.toList).Fresh lo n₁)
    (hcondition : (Phrase.expressions condition.toList).Fresh n₁ n₂)
    (hincrement : (Phrase.expressions increment.toList).Fresh n₂ n₃) (hbody : Plain n₃ hi body) :
    Plain lo hi (.forLoop initializer condition increment body) := by
  have hchecked : (Phrase.expression (condition.getD (.literal (.bool true)))).Fresh n₁ n₂ := by
    cases condition with
    | none => exact ⟨trivial, .nil hcondition.numbered.le⟩
    | some e => exact ⟨hcondition.wellFormed.1, by simpa using hcondition.numbered⟩
  have hloop := plain_whileLoop hchecked (plain_round hbody hincrement)
  unfold Stmt.forLoop
  cases initializer with
  | none => exact ⟨hloop.1.widen hinitializer.numbered.le (Nat.le_refl _), hloop.2⟩
  | some s =>
    refine ⟨⟨⟨hinitializer.wellFormed.1, hloop.1.wellFormed, trivial⟩, ?_⟩, rfl⟩
    have hnumbered := hinitializer.numbered.append hloop.1.numbered
    simp only [Option.toList_some, Phrase.ids_statements, Phrase.ids_noStatements,
      List.append_nil] at hnumbered
    simp only [Phrase.ids_block, Phrase.ids_statements, Phrase.ids_noStatements, List.append_nil]
    exact hnumbered

theorem reads_forStatement (hg : Faithful g) (hc : c.Honest) :
    Reads (forStatement g fuel) c fun s c' => Plain c.nextRef c'.nextRef s := by
  unfold forStatement
  refine reads_bind (reads_take hc) fun _ c₁ hc₁ h₁ _ => ?_
  refine reads_bind (reads_symbol hc₁) fun _ c₂ hc₂ h₂ _ => ?_
  refine reads_bind (reads_forInitializer hg hc₂) fun initializer c₃ hc₃ _ hinitializer => ?_
  refine reads_bind (reads_clauseUpTo hg hc₃) fun condition c₄ hc₄ _ hcondition => ?_
  refine reads_bind (reads_symbol hc₄) fun _ c₅ hc₅ h₅ _ => ?_
  refine reads_bind (reads_clauseUpTo hg hc₅) fun increment c₆ hc₆ _ hincrement => ?_
  refine reads_bind (reads_symbol hc₆) fun _ c₇ hc₇ h₇ _ => ?_
  refine reads_bind (hg .statement c₇ hc₇) fun body c₈ hc₈ _ hbody => ?_
  exact reads_pure hc₈ (plain_forLoop (hinitializer.widen (Nat.le_trans h₁ h₂) (Nat.le_refl _))
    (hcondition.widen (Nat.le_refl _) h₅) (hincrement.widen (Nat.le_refl _) h₇) hbody)

theorem reads_ifStatement (hg : Faithful g) (hc : c.Honest) :
    Reads (ifStatement g) c fun s c' => Plain c.nextRef c'.nextRef s := by
  unfold ifStatement
  refine reads_bind (reads_take hc) fun _ c₁ hc₁ h₁ _ => ?_
  refine reads_bind (reads_symbol hc₁) fun _ c₂ hc₂ h₂ _ => ?_
  refine reads_bind (hg .expression c₂ hc₂) fun condition c₃ hc₃ _ hcondition => ?_
  refine reads_bind (reads_symbol hc₃) fun _ c₄ hc₄ h₄ _ => ?_
  refine reads_bind (hg .statement c₄ hc₄) fun whenTrue c₅ hc₅ _ hwhenTrue => ?_
  refine reads_bind (reads_skip hc₅) fun more c₆ hc₆ h₆ _ => ?_
  obtain ⟨hwhenTrue, hnone⟩ := hwhenTrue
  have hnumbered := (hcondition.numbered.widen (Nat.le_trans h₁ h₂) h₄).append
    (hwhenTrue.numbered.widen (Nat.le_refl _) h₆)
  cases more with
  | false =>
    refine reads_pure hc₆ ⟨⟨⟨hcondition.wellFormed, hwhenTrue.wellFormed, hnone⟩, ?_⟩, hnone⟩
    rwa [Phrase.ids_if]
  | true =>
    refine reads_bind (reads_map (hg .statement c₆ hc₆)) fun _ c₇ hc₇ _ hwhenFalse => ?_
    obtain ⟨whenFalse, rfl, hwhenFalse, hnone'⟩ := hwhenFalse
    refine reads_pure hc₇ ⟨⟨⟨hcondition.wellFormed, ⟨hwhenTrue.wellFormed, hnone⟩,
      hwhenFalse.wellFormed, hnone'⟩, ?_⟩, ?_⟩
    · rw [Phrase.ids_ifElse]
      exact hnumbered.append hwhenFalse.numbered
    · rw [Stmt.declares, hnone, hnone']
      rfl

theorem reads_printStatement (hg : Faithful g) (hc : c.Honest) :
    Reads (printStatement g) c fun s c' => Plain c.nextRef c'.nextRef s := by
  unfold printStatement
  refine reads_bind (reads_take hc) fun _ c₁ hc₁ h₁ _ => ?_
  refine reads_bind (hg .expression c₁ hc₁) fun e c₂ hc₂ _ he => ?_
  refine reads_bind (reads_symbol hc₂) fun _ c₃ hc₃ h₃ _ => ?_
  exact reads_pure hc₃ ⟨⟨he.wellFormed, he.numbered.widen h₁ h₃⟩, rfl⟩

theorem reads_returnStatement (hg : Faithful g) (hc : c.Honest) :
    Reads (returnStatement g) c fun s c' => Plain c.nextRef c'.nextRef s := by
  unfold returnStatement
  refine reads_bind (reads_take hc) fun keyword c₁ hc₁ h₁ _ => ?_
  refine reads_bind (reads_clauseUpTo hg hc₁) fun value c₂ hc₂ _ hvalue => ?_
  refine reads_bind (reads_symbol hc₂) fun _ c₃ hc₃ h₃ _ => ?_
  have hnumbered := hvalue.numbered.widen h₁ h₃
  cases value with
  | none => exact reads_pure hc₃ ⟨⟨trivial, hnumbered⟩, rfl⟩
  | some e => exact reads_pure hc₃ ⟨⟨hvalue.wellFormed.1, by simpa using hnumbered⟩, rfl⟩

theorem reads_whileStatement (hg : Faithful g) (hc : c.Honest) :
    Reads (whileStatement g) c fun s c' => Plain c.nextRef c'.nextRef s := by
  unfold whileStatement
  refine reads_bind (reads_take hc) fun _ c₁ hc₁ h₁ _ => ?_
  refine reads_bind (reads_symbol hc₁) fun _ c₂ hc₂ h₂ _ => ?_
  refine reads_bind (hg .expression c₂ hc₂) fun condition c₃ hc₃ _ hcondition => ?_
  refine reads_bind (reads_symbol hc₃) fun _ c₄ hc₄ h₄ _ => ?_
  refine reads_bind (hg .statement c₄ hc₄) fun body c₅ hc₅ _ hbody => ?_
  exact reads_pure hc₅ (plain_whileLoop (hcondition.widen (Nat.le_trans h₁ h₂) h₄) hbody)

theorem reads_blockStatement (hg : Faithful g) (hc : c.Honest) :
    Reads (blockStatement g fuel) c fun s c' => Plain c.nextRef c'.nextRef s := by
  unfold blockStatement
  refine reads_bind (reads_take hc) fun _ c₁ hc₁ h₁ _ => ?_
  refine reads_bind (reads_block hg hc₁) fun body c₂ hc₂ _ hbody => ?_
  exact reads_pure hc₂ ⟨⟨hbody.wellFormed, hbody.numbered.widen h₁ (Nat.le_refl _)⟩, rfl⟩

theorem reads_statement (hg : Faithful g) (hc : c.Honest) :
    Reads (statement g fuel) c fun s c' => Plain c.nextRef c'.nextRef s := by
  have hbranch : ∃ act : Parser Stmt, statement g fuel c = act c ∧ Reads act c fun s c' =>
      Plain c.nextRef c'.nextRef s := by
    unfold statement
    split
    · exact ⟨_, rfl, reads_breakStatement hc⟩
    · exact ⟨_, rfl, reads_forStatement hg hc⟩
    · exact ⟨_, rfl, reads_ifStatement hg hc⟩
    · exact ⟨_, rfl, reads_printStatement hg hc⟩
    · exact ⟨_, rfl, reads_returnStatement hg hc⟩
    · exact ⟨_, rfl, reads_whileStatement hg hc⟩
    · exact ⟨_, rfl, reads_blockStatement hg hc⟩
    · exact ⟨_, rfl, reads_expressionStatement hg hc⟩
  obtain ⟨act, heq, h⟩ := hbranch
  exact h.of_eq heq (Nat.le_refl _)

/-! ## Declarations -/

theorem reads_namedRoutine (hg : Faithful g) {kind : RoutineKind} (hc : c.Honest) :
    Reads (namedRoutine g fuel kind) c fun m c' =>
      IsFree m.name.text ∧ (Phrase.routine m.routine).Fresh c.nextRef c'.nextRef := by
  unfold namedRoutine
  refine reads_bind (reads_identifier hc) fun name c₁ hc₁ h₁ hname => ?_
  refine reads_bind (reads_symbol hc₁) fun _ c₂ hc₂ h₂ _ => ?_
  refine reads_bind (reads_routine hg hc₂) fun r c₃ hc₃ _ hr => ?_
  exact reads_pure hc₃ ⟨hname, hr.widen (Nat.le_trans h₁ h₂) (Nat.le_refl _)⟩

theorem reads_functionDeclaration (hg : Faithful g) (hc : c.Honest) :
    Reads (functionDeclaration g fuel) c fun s c' =>
      (Phrase.statement s).Fresh c.nextRef c'.nextRef := by
  unfold functionDeclaration
  refine reads_bind (reads_take hc) fun _ c₁ hc₁ h₁ _ => ?_
  refine reads_bind (reads_namedRoutine hg hc₁) fun declared c₂ hc₂ _ h => ?_
  obtain ⟨name, params, body⟩ := declared
  exact reads_pure hc₂ ⟨⟨h.1, h.2.wellFormed⟩, h.2.numbered.widen h₁ (Nat.le_refl _)⟩

theorem reads_methodsFrom (hg : Faithful g) {done : List Method} (hc : c.Honest)
    (hdone : (Phrase.methods done.reverse).Fresh lo c.nextRef) :
    Reads (methodsFrom g fuel done) c fun members c' =>
      (Phrase.methods members).Fresh lo c'.nextRef := by
  induction fuel generalizing done c with
  | zero => exact reads_exhausted hc
  | succ fuel ih =>
    rw [methodsFrom]
    refine reads_bind (reads_looksAt hc) fun closed c₁ hc₁ h₁ _ => ?_
    refine reads_bind (reads_looksAt hc₁) fun ended c₂ hc₂ h₂ _ => ?_
    have hdone' := hdone.widen (Nat.le_refl _) (Nat.le_trans h₁ h₂)
    cases closed || ended with
    | true => exact reads_pure hc₂ hdone'
    | false =>
      refine reads_bind (reads_namedRoutine hg hc₂) fun m c₃ hc₃ _ hm => ?_
      refine ih hc₃ ?_
      obtain ⟨name, params, body⟩ := m
      have hone : (Phrase.methods [⟨name, params, body⟩]).Fresh c₂.nextRef c₃.nextRef := by
        refine ⟨⟨hm.2.wellFormed, trivial⟩, ?_⟩
        simpa using hm.2.numbered
      rw [List.reverse_cons]
      exact hdone'.appendMethods hone

theorem reads_classDeclaration (hg : Faithful g) (hc : c.Honest) :
    Reads (classDeclaration g fuel) c fun s c' =>
      (Phrase.statement s).Fresh c.nextRef c'.nextRef := by
  have hmembers (name : Lexeme) (superclass : Option Ref) (c₁ : Cursor) (hc₁ : c₁.Honest)
      (hname : IsFree name.text) (hsuperclass : ∀ ref ∈ superclass, IsFree ref.word.text)
      (hnumbered : Numbered c.nextRef c₁.nextRef (superclass.map Ref.id).toList) :
      Reads (symbol .beforeClassBody >>= fun _ => methodsFrom g fuel [] >>= fun members =>
        symbol .afterClassBody >>= fun _ => pure (.class name superclass members)) c₁ fun s c' =>
          (Phrase.statement s).Fresh c.nextRef c'.nextRef := by
    refine reads_bind (reads_symbol hc₁) fun _ c₂ hc₂ h₂ _ => ?_
    refine reads_bind (reads_methodsFrom hg hc₂ (Phrase.fresh_noMethods (Nat.le_refl _)))
      fun members c₃ hc₃ _ hmembers => ?_
    refine reads_bind (reads_symbol hc₃) fun _ c₄ hc₄ h₄ _ => ?_
    refine reads_pure hc₄ ⟨⟨hname, hsuperclass, hmembers.wellFormed⟩, ?_⟩
    have hall := (hnumbered.widen (Nat.le_refl _) h₂).append
      (hmembers.numbered.widen (Nat.le_refl _) h₄)
    cases superclass with
    | none => simpa using hall
    | some ref => simpa using hall
  unfold classDeclaration
  refine reads_bind (reads_take hc) fun _ c₁ hc₁ h₁ _ => ?_
  refine reads_bind (reads_identifier hc₁) fun name c₂ hc₂ h₂ hname => ?_
  refine reads_bind (reads_skip hc₂) fun derived c₃ hc₃ h₃ _ => ?_
  cases derived with
  | false => exact hmembers name none c₃ hc₃ hname (by simp) (.nil (by omega))
  | true =>
    refine reads_bind (reads_identifier hc₃) fun word c₄ hc₄ h₄ hword => ?_
    refine reads_bind (reads_fresh hc₄) fun ref c₅ hc₅ _ href => ?_
    obtain ⟨rfl, hnumbered⟩ := href
    exact hmembers name (some ref) c₅ hc₅ hname (by simpa using hword)
      (hnumbered.widen (by omega) (Nat.le_refl _))

theorem reads_strictDeclaration (hg : Faithful g) (hc : c.Honest) :
    Reads (strictDeclaration g fuel) c fun s c' =>
      (Phrase.statement s).Fresh c.nextRef c'.nextRef := by
  have hbranch : ∃ act : Parser Stmt, strictDeclaration g fuel c = act c ∧ Reads act c fun s c' =>
      (Phrase.statement s).Fresh c.nextRef c'.nextRef := by
    have hplain : Reads (statement g fuel) c fun s c' => Plain c.nextRef c'.nextRef s :=
      reads_statement hg hc
    have hstatement := hplain.mono fun s c' hs => hs.1
    unfold strictDeclaration
    split
    · exact ⟨_, rfl, reads_classDeclaration hg hc⟩
    · exact ⟨_, rfl, reads_varDeclaration hg hc⟩
    · split
      · exact ⟨_, rfl, reads_functionDeclaration hg hc⟩
      · exact ⟨_, rfl, hstatement⟩
    · exact ⟨_, rfl, hstatement⟩
  obtain ⟨act, heq, h⟩ := hbranch
  exact h.of_eq heq (Nat.le_refl _)

theorem mem_of_mem_resume {tokens : List Token} {t : Token} (h : t ∈ resume tokens) :
    t ∈ tokens := by
  induction tokens with
  | nil => simp [resume] at h
  | cons first rest ih =>
    unfold resume at h
    split at h
    · exact List.mem_cons_of_mem _ h
    · split at h
      · exact List.mem_cons_of_mem _ h
      · exact List.mem_cons_of_mem _ (ih h)

theorem reads_declaration (hg : Faithful g) (hc : c.Honest) :
    Reads (declaration g fuel) c fun s c' =>
      (Phrase.statements s.toList).Fresh c.nextRef c'.nextRef := by
  have hstrict : Reads (strictDeclaration g fuel) c fun s c' =>
      (Phrase.statement s).Fresh c.nextRef c'.nextRef := reads_strictDeclaration hg hc
  unfold Reads declaration
  cases hend : strictDeclaration g fuel c with
  | ok s c' =>
    obtain ⟨hc', hle, hs⟩ := hstrict.of_ok hend
    exact ⟨hc', hle, ⟨hs.wellFormed, trivial⟩, by simpa using hs.numbered⟩
  | error stop c' =>
    obtain ⟨hc', hle⟩ := hstrict.of_error hend
    cases stop with
    | exhausted => exact ⟨hc', hle⟩
    | fault d =>
      refine ⟨fun t ht => hc' t (mem_of_mem_resume ht), hle, ?_⟩
      exact Phrase.fresh_noStatements hle

/-! ## The grammar -/

theorem faithful_grammar (fuel : Nat) : Faithful (grammar fuel) := by
  induction fuel with
  | zero =>
    intro n c hc
    cases n <;> exact reads_exhausted hc
  | succ fuel ih =>
    intro n c hc
    cases n with
    | expression => exact reads_expression ih hc
    | assignment => exact reads_assignment ih hc
    | conditional => exact reads_conditional ih hc
    | unary => exact reads_unary ih hc
    | statement => exact reads_statement ih hc
    | declaration => exact reads_declaration ih hc

/-! ## Programs -/

/-- The statements of a program and its trailing expression are fresh, one after the other. -/
def FreshProgram (lo hi : Nat) (p : Program) : Prop :=
  ∃ mid, (Phrase.statements p.statements).Fresh lo mid ∧
    (Phrase.expressions p.trailing.toList).Fresh mid hi

theorem reads_trailing (hc : c.Honest) :
    Reads (trailing fuel) c fun e c' =>
      (Phrase.expressions e.toList).Fresh c.nextRef c'.nextRef := by
  have hexpression := faithful_grammar fuel .expression c hc
  unfold Reads trailing
  cases hend : grammar fuel .expression c with
  | ok e c' =>
    obtain ⟨hc', hle, he⟩ := hexpression.of_ok hend
    dsimp only
    split
    · rename_i hif
      split at hif
      · cases hif
        exact ⟨hc', hle, ⟨he.wellFormed, trivial⟩, by simpa using he.numbered⟩
      · cases hif
        exact ⟨hc, hle, Phrase.fresh_noExpressions hle⟩
    · rename_i hif
      split at hif <;> cases hif
  | error stop c' =>
    obtain ⟨hc', hle⟩ := hexpression.of_error hend
    cases stop with
    | exhausted => exact ⟨hc', hle⟩
    | fault d => exact ⟨hc, hle, Phrase.fresh_noExpressions hle⟩

/-- What is tried before each declaration. -/
def speculation (mode : Mode) (fuel : Nat) : Parser (Option Expr) := fun c =>
  match mode with
  | .interactive => trailing fuel c
  | .script => .ok none c

theorem reads_speculation {mode : Mode} (hc : c.Honest) :
    Reads (speculation mode fuel) c fun e c' =>
      (Phrase.expressions e.toList).Fresh c.nextRef c'.nextRef := by
  cases mode with
  | interactive => exact reads_trailing hc
  | script => exact ⟨hc, Nat.le_refl _, Phrase.fresh_noExpressions (Nat.le_refl _)⟩

/-- What is left of a program before the end of the input: the trailing expression, or a
declaration and the rest. -/
def remainder (mode : Mode) (fuel rounds : Nat) (done : List Stmt) : Option Expr → Parser Program
  | some e => pure ⟨done.reverse, some e⟩
  | none => (grammar fuel .declaration : Parser (Option Stmt)) >>= fun s =>
    programFrom mode fuel rounds (s.toList ++ done)

theorem programFrom_atEnd (mode : Mode) (rounds : Nat) (done : List Stmt) (h : c.atEnd) :
    programFrom mode fuel (rounds + 1) done c = .ok ⟨done.reverse, none⟩ c := if_pos h

theorem programFrom_open (mode : Mode) (rounds : Nat) (done : List Stmt) (h : ¬ c.atEnd) :
    programFrom mode fuel (rounds + 1) done c = match speculation mode fuel c with
    | .error stop c' => .error stop c'
    | .ok (some e) c' => .ok ⟨done.reverse, some e⟩ c'
    | .ok none c' =>
      match grammar fuel .declaration c' with
      | .ok s c'' => programFrom mode fuel rounds (s.toList ++ done) c''
      | .error stop c'' => .error stop c'' := by
  cases mode <;> exact if_neg h

theorem programFrom_succ (mode : Mode) (rounds : Nat) (done : List Stmt) (h : ¬ c.atEnd) :
    programFrom mode fuel (rounds + 1) done c =
      (speculation mode fuel >>= remainder mode fuel rounds done) c := by
  rw [programFrom_open mode rounds done h, bind_eq_match]
  cases speculation mode fuel c with
  | error stop c' => rfl
  | ok e c' =>
    cases e with
    | some e => rfl
    | none =>
      refine Eq.trans ?_ (bind_eq_match (grammar fuel .declaration) _ c').symm
      dsimp only
      cases grammar fuel .declaration c' <;> rfl

theorem reads_programFrom {mode : Mode} {rounds : Nat} {done : List Stmt} (hc : c.Honest)
    (hdone : (Phrase.statements done.reverse).Fresh lo c.nextRef) :
    Reads (programFrom mode fuel rounds done) c fun p c' => FreshProgram lo c'.nextRef p := by
  induction rounds generalizing done c with
  | zero => exact reads_exhausted hc
  | succ rounds ih =>
    by_cases hend : c.atEnd
    · exact reads_of_ok (programFrom_atEnd mode rounds done hend) hc (Nat.le_refl _)
        ⟨c.nextRef, hdone, Phrase.fresh_noExpressions (Nat.le_refl _)⟩
    · refine Reads.of_eq ?_ (programFrom_succ mode rounds done hend) (Nat.le_refl _)
      refine reads_bind (reads_speculation hc) fun e c₁ hc₁ h₁ he => ?_
      cases e with
      | some e => exact reads_pure hc₁ ⟨c.nextRef, hdone, he⟩
      | none =>
        refine reads_bind (faithful_grammar fuel .declaration c₁ hc₁) fun s c₂ hc₂ _ hs => ?_
        refine ih hc₂ ?_
        have hall := (hdone.widen (Nat.le_refl _) h₁).appendStatements hs
        cases s with
        | none => simpa using hall
        | some s => simpa using hall

theorem reads_program {mode : Mode} (hc : c.Honest) :
    Reads (program mode) c fun p c' => FreshProgram c.nextRef c'.nextRef p := by
  have hread : Reads (programFrom mode (c.rest.length + 1) (c.rest.length + 1) []) c
      fun p c' => FreshProgram c.nextRef c'.nextRef p :=
    reads_programFrom hc (Phrase.fresh_noStatements (Nat.le_refl _))
  exact hread.of_eq rfl (Nat.le_refl _)

end ScriptLang.Grammar

open ScriptLang.Grammar in
/-- **What is parsed from a source is fresh.** Its references are numbered from the given number
on, each with a number of its own, and no number that was used is left for the next program. -/
theorem ScriptLang.Program.parse_fresh (source : String) (mode : Mode) (nextRef : Nat) :
    nextRef ≤ (Program.parse (Source.tokens source) mode nextRef).nextRef ∧
    ∀ p, (Program.parse (Source.tokens source) mode nextRef).result = .ok p →
      FreshProgram nextRef (Program.parse (Source.tokens source) mode nextRef).nextRef p := by
  have hc : (Cursor.start (Source.tokens source) nextRef).Honest := Source.tokens_honest source
  have hread : Reads (program mode) (.start (Source.tokens source) nextRef) fun p c' =>
      FreshProgram nextRef c'.nextRef p := reads_program hc
  unfold Program.parse
  cases hend : program mode (.start (Source.tokens source) nextRef) with
  | ok p c =>
    obtain ⟨-, hle, hp⟩ := hread.of_ok hend
    refine ⟨hle, fun p' hp' => ?_⟩
    dsimp only at hp' ⊢
    split at hp'
    · cases hp'
      exact hp
    · cases hp'
  | error stop c =>
    obtain ⟨-, hle⟩ := hread.of_error hend
    exact ⟨hle, nofun⟩
