import ScriptLang.Proofs.Grammar.Rules
import ScriptLang.Proofs.Relabelling.Trees

/-!
# Parsing from another number on

The parser numbers references as it comes across them, and looks at no number. So if it starts with
another number, it reads the same trees with other numbers, and reports the same
(`Program.parse_renumber`).

A renumbering that goes with this counts on from the first number as the parser does
(`CountsOn`). `Renumbers` says of one parser that it does the same under the renumbering, and is
proved rule by rule.
-/

namespace ScriptLang

/-! ## Trees with other numbers -/

/-- The expression with other numbers. -/
abbrev Expr.renumber (ρ : Nat → Nat) : Expr → Expr := Expr.relabel (.renumbering ρ)

/-- The statement with other numbers. -/
abbrev Stmt.renumber (ρ : Nat → Nat) : Stmt → Stmt :=
  Stmt.relabel (.renumbering ρ) (Equiv.refl String)

/-- The declared variable with other numbers. -/
def Declarator.renumber (ρ : Nat → Nat) (d : Declarator) : Declarator :=
  ⟨d.name, d.initializer.map (Expr.renumber ρ)⟩

/-- The method with other numbers. -/
abbrev Method.renumber (ρ : Nat → Nat) : Method → Method := Method.relabel (.renumbering ρ)

/-- The program with other numbers. -/
abbrev Program.renumber (ρ : Nat → Nat) : Program → Program := Program.relabel (.renumbering ρ)

section Trees

variable (ρ : Nat → Nat)

theorem Routine.renumber_mk (params : List Lexeme) (body : List Stmt) :
    Routine.relabel (.renumbering ρ) ⟨params, body⟩ = ⟨params, body.map (Stmt.renumber ρ)⟩ := by
  unfold Routine.relabel
  rw [Relabelling.names_renumbering, Lexeme.rename_refl_eq_id, List.map_id,
    Stmt.relabelAll_eq_map]

theorem Declarator.relabelAll_renumbering (ds : List Declarator) :
    Declarator.relabelAll (.renumbering ρ) (Equiv.refl String) ds =
      ds.map (Declarator.renumber ρ) := by
  induction ds with
  | nil => rfl
  | cons d ds ih =>
    obtain ⟨name, initializer⟩ := d
    cases initializer <;> rw [Declarator.relabelAll, ih] <;> rfl

theorem Stmt.renumber_forLoop (initializer : Option Stmt) (condition increment : Option Expr)
    (body : Stmt) :
    (forLoop initializer condition increment body).renumber ρ =
      forLoop (initializer.map (Stmt.renumber ρ)) (condition.map (Expr.renumber ρ))
        (increment.map (Expr.renumber ρ)) (body.renumber ρ) := by
  cases initializer <;> cases condition <;> cases increment <;> rfl

end Trees

namespace Grammar

variable {α α' β β' : Type}

/-! ## Renumbering -/

/-- From the number on, the renumbering goes up one by one. -/
def CountsOn (ρ : Nat → Nat) (nextRef : Nat) : Prop := ∀ n, nextRef ≤ n → ρ (n + 1) = ρ n + 1

theorem CountsOn.mono {ρ : Nat → Nat} {n k : Nat} (h : CountsOn ρ n) (hle : n ≤ k) : CountsOn ρ k :=
  fun j hj => h j (Nat.le_trans hle hj)

/-- The position from which the next reference gets its other number. -/
def Cursor.renumber (ρ : Nat → Nat) (c : Cursor) : Cursor := { c with nextRef := ρ c.nextRef }

/-- The end with other numbers. -/
def renumbered (ρ : Nat → Nat) (image : α → α') :
    EStateM.Result Stop Cursor α → EStateM.Result Stop Cursor α'
  | .ok a c => .ok (image a) (c.renumber ρ)
  | .error stop c => .error stop (c.renumber ρ)

/-- The second parser does with the other numbers what the first one does. -/
def Renumbers (ρ : Nat → Nat) (image : α → α') (act : Parser α) (act' : Parser α') (c : Cursor) :
    Prop := CountsOn ρ c.nextRef → act' (c.renumber ρ) = renumbered ρ image (act c)

/-- The trees of a nonterminal with other numbers. -/
def Nonterminal.renumber (ρ : Nat → Nat) : (n : Nonterminal) → n.Tree → n.Tree
  | expression | assignment | conditional | unary => Expr.renumber ρ
  | statement => Stmt.renumber ρ
  | declaration => Option.map (Stmt.renumber ρ)

section Combinators

variable {ρ : Nat → Nat} {image : α → α'} {image' : β → β'} {act act₁ : Parser α}
  {act' act₁' : Parser α'} {next : α → Parser β} {next' : α' → Parser β'} {c : Cursor}

theorem renumbers_pure {a : α} {a' : α'} (h : a' = image a) :
    Renumbers ρ image (pure a) (pure a') c := by
  subst h
  exact fun _ => rfl

theorem renumbers_exhausted : Renumbers ρ image exhausted exhausted c := fun _ => rfl

theorem Renumbers.of_eq (h : Renumbers ρ image act₁ act₁' c) (heq : act c = act₁ c)
    (heq' : act' (c.renumber ρ) = act₁' (c.renumber ρ)) : Renumbers ρ image act act' c := by
  intro hρ
  rw [heq, heq']
  exact h hρ

theorem renumbers_bind [Steady act] (h : Renumbers ρ image act act' c)
    (hnext : ∀ a c', Renumbers ρ image' (next a) (next' (image a)) c') :
    Renumbers ρ image' (act >>= next) (act' >>= next') c := by
  intro hρ
  have hact := h hρ
  rw [bind_eq_match, bind_eq_match, hact]
  cases hend : act c with
  | ok a c' => exact hnext a c' (hρ.mono (Steady.of_ok hend).nextRef)
  | error stop c' => rfl

theorem renumbers_map {f : α → β} {f' : α' → β'} [Steady act] (h : Renumbers ρ image act act' c)
    (hf : ∀ a, f' (image a) = image' (f a)) :
    Renumbers ρ image' (f <$> act) (f' <$> act') c := by
  change Renumbers ρ image' (act >>= fun a => pure (f a)) (act' >>= fun a => pure (f' a)) c
  exact renumbers_bind h fun a c' => renumbers_pure (hf a)

theorem renumbers_ite {p : Prop} [Decidable p] (h : p → Renumbers ρ image act act' c)
    (h₁ : ¬ p → Renumbers ρ image act₁ act₁' c) :
    Renumbers ρ image (if p then act else act₁) (if p then act' else act₁') c := by
  by_cases hp : p
  · rw [if_pos hp, if_pos hp]
    exact h hp
  · rw [if_neg hp, if_neg hp]
    exact h₁ hp

end Combinators

/-! ## Single tokens -/

section Tokens

variable {ρ : Nat → Nat} {c : Cursor}

theorem renumbers_reportAt (token : Token) (fault : GrammarFault) :
    Renumbers ρ id (reportAt token fault) (reportAt token fault) c := fun _ => rfl

theorem renumbers_reportHere (fault : GrammarFault) :
    Renumbers ρ id (reportHere fault) (reportHere fault) c := fun _ => rfl

theorem renumbers_take : Renumbers ρ id take take c := fun _ => rfl

theorem renumbers_peek : Renumbers ρ id peek peek c := fun _ => rfl

theorem renumbers_looksAt (kind : Kind) : Renumbers ρ id (looksAt kind) (looksAt kind) c :=
  fun _ => rfl

theorem renumbers_skip (kind : Kind) : Renumbers ρ id (skip kind) (skip kind) c := by
  intro _
  unfold skip
  by_cases hkind : c.kind = kind
  · have hkind' : (c.renumber ρ).kind = kind := hkind
    rw [if_pos hkind, if_pos hkind']
    rfl
  · have hkind' : (c.renumber ρ).kind ≠ kind := hkind
    rw [if_neg hkind, if_neg hkind']
    rfl

theorem renumbers_symbol (place : SymbolPlace) :
    Renumbers ρ id (symbol place) (symbol place) c := by
  intro _
  unfold symbol
  by_cases hkind : c.kind = .symbol place.symbol
  · have hkind' : (c.renumber ρ).kind = .symbol place.symbol := hkind
    rw [if_pos hkind, if_pos hkind']
    rfl
  · have hkind' : (c.renumber ρ).kind ≠ .symbol place.symbol := hkind
    rw [if_neg hkind, if_neg hkind']
    rfl

theorem renumbers_identifier (place : NamePlace) :
    Renumbers ρ id (identifier place) (identifier place) c := by
  intro _
  unfold identifier
  by_cases hkind : c.kind = .identifier
  · have hkind' : (c.renumber ρ).kind = .identifier := hkind
    rw [if_pos hkind, if_pos hkind']
    rfl
  · have hkind' : (c.renumber ρ).kind ≠ .identifier := hkind
    rw [if_neg hkind, if_neg hkind']
    rfl

theorem renumbers_fresh (word : Lexeme) :
    Renumbers ρ (Ref.relabel (.renumbering ρ)) (fresh word) (fresh word) c := by
  intro hρ
  have hnext := hρ c.nextRef (Nat.le_refl _)
  unfold fresh renumbered Cursor.renumber
  dsimp only
  rw [hnext]
  rfl

theorem renumbers_following {image : α → α'} {act : Parser α} {act' : Parser α'} [Steady act]
    (kind : Kind) (h : ∀ c, Renumbers ρ image act act' c) :
    Renumbers ρ (Option.map image) (following kind act) (following kind act') c := by
  unfold following
  refine renumbers_bind (renumbers_skip kind) fun more c₁ => ?_
  exact renumbers_ite (fun _ => renumbers_map (h c₁) fun _ => rfl) fun _ => renumbers_pure rfl

end Tokens

/-! ## Lists -/

section Lists

variable {ρ : Nat → Nat} {join : Kind → Option (Lexeme → Expr → Expr → Expr)}
  {operand : Parser Expr} [Steady operand] {fuel : Nat} {c : Cursor}

/-- The operators of a chain do not look at numbers. -/
def JoinsAny (ρ : Nat → Nat) (join : Kind → Option (Lexeme → Expr → Expr → Expr)) : Prop :=
  ∀ kind node, join kind = some node → ∀ word left right,
    (node word left right).renumber ρ = node word (left.renumber ρ) (right.renumber ρ)

theorem renumbers_chainFrom (hjoin : JoinsAny ρ join)
    (hoperand : ∀ c, Renumbers ρ (Expr.renumber ρ) operand operand c) (left : Expr) :
    Renumbers ρ (Expr.renumber ρ) (chainFrom join operand fuel left)
      (chainFrom join operand fuel (left.renumber ρ)) c := by
  induction fuel generalizing left c with
  | zero => exact renumbers_exhausted
  | succ fuel ih =>
    cases hnode : join c.kind with
    | none =>
      exact Renumbers.of_eq (renumbers_pure rfl) (chainFrom_none hnode) (chainFrom_none hnode)
    | some node =>
      refine Renumbers.of_eq ?_ (chainFrom_some hnode) (chainFrom_some hnode)
      refine renumbers_bind renumbers_take fun word c₁ => ?_
      refine renumbers_bind (hoperand c₁) fun right c₂ => ?_
      have hlater := ih (node word.lexeme left right) (c := c₂)
      rwa [hjoin _ _ hnode] at hlater

theorem renumbers_chain (hjoin : JoinsAny ρ join)
    (hoperand : ∀ c, Renumbers ρ (Expr.renumber ρ) operand operand c) :
    Renumbers ρ (Expr.renumber ρ) (chain join operand fuel) (chain join operand fuel) c := by
  unfold chain
  exact renumbers_bind (hoperand c) fun left c₁ => renumbers_chainFrom hjoin hoperand left

variable {image : α → α'} {item : Parser α} {item' : Parser α'} [Steady item]
  {tooMany : GrammarFault} {closing : SymbolPlace}

theorem renumbers_itemsFrom (hitem : ∀ c, Renumbers ρ image item item' c) (listed : List α) :
    Renumbers ρ (List.map image) (itemsFrom tooMany item fuel listed)
      (itemsFrom tooMany item' fuel (listed.map image)) c := by
  induction fuel generalizing listed c with
  | zero => exact renumbers_exhausted
  | succ fuel ih =>
    have hcount : Renumbers ρ id (if maxListed ≤ listed.length then reportHere tooMany else pure ())
        (if maxListed ≤ (listed.map image).length then reportHere tooMany else pure ()) c := by
      rw [List.length_map]
      exact renumbers_ite (fun _ => renumbers_reportHere _) fun _ => renumbers_pure rfl
    rw [itemsFrom_succ, itemsFrom_succ]
    refine renumbers_bind hcount fun _ c₁ => ?_
    refine renumbers_bind (hitem c₁) fun x c₂ => ?_
    refine renumbers_bind (renumbers_skip _) fun more c₃ => ?_
    have hmore : listed.map image ++ [image x] = (listed ++ [x]).map image := by
      rw [List.map_append, List.map_singleton]
    rw [hmore]
    exact renumbers_ite (fun _ => ih (listed ++ [x])) fun _ => renumbers_pure rfl

theorem renumbers_items (hitem : ∀ c, Renumbers ρ image item item' c) :
    Renumbers ρ (Prod.map (List.map image) id) (items tooMany closing item fuel)
      (items tooMany closing item' fuel) c := by
  have hlisted : Renumbers ρ (List.map image) (listedBy tooMany item fuel)
      (listedBy tooMany item' fuel) c := by
    unfold listedBy
    refine renumbers_bind (renumbers_looksAt _) fun closed c₁ => ?_
    exact renumbers_ite (fun _ => renumbers_pure rfl) fun _ => renumbers_itemsFrom hitem []
  rw [items_eq, items_eq]
  refine renumbers_bind hlisted fun listed c₁ => ?_
  exact renumbers_bind (renumbers_symbol closing) fun close c₂ => renumbers_pure rfl

end Lists

/-! ## The rules -/

section Rules

variable {ρ : Nat → Nat} {g : Grammar} [∀ n, Steady (g n)] {fuel : Nat} {c : Cursor}
  (hg : ∀ n c, Renumbers ρ (n.renumber ρ) (g n) (g n) c)

include hg

theorem renumbers_declarationsFrom (done : List Stmt) :
    Renumbers ρ (List.map (Stmt.renumber ρ)) (declarationsFrom g fuel done)
      (declarationsFrom g fuel (done.map (Stmt.renumber ρ))) c := by
  induction fuel generalizing done c with
  | zero => exact renumbers_exhausted
  | succ fuel ih =>
    by_cases hclosed : c.kind = .symbol .rightBrace ∨ c.atEnd
    · refine Renumbers.of_eq (renumbers_pure ?_) (declarationsFrom_closed hclosed)
        (declarationsFrom_closed hclosed)
      exact List.map_reverse.symm
    · refine Renumbers.of_eq ?_ (declarationsFrom_open hclosed) (declarationsFrom_open hclosed)
      refine renumbers_bind (hg .declaration c) fun s c₁ => ?_
      have hmore : (Option.map (Stmt.renumber ρ) s).toList ++ done.map (Stmt.renumber ρ) =
          (s.toList ++ done).map (Stmt.renumber ρ) := by
        cases s <;> rfl
      change Renumbers ρ _ _ (declarationsFrom g fuel
        ((Option.map (Stmt.renumber ρ) s).toList ++ done.map (Stmt.renumber ρ))) c₁
      rw [hmore]
      exact ih _

theorem renumbers_block :
    Renumbers ρ (List.map (Stmt.renumber ρ)) (block g fuel) (block g fuel) c := by
  unfold block
  refine renumbers_bind (renumbers_declarationsFrom hg []) fun body c₁ => ?_
  exact renumbers_bind (renumbers_symbol _) fun _ c₂ => renumbers_pure rfl

theorem renumbers_routine (kind : RoutineKind) :
    Renumbers ρ (Routine.relabel (.renumbering ρ)) (routine g fuel kind) (routine g fuel kind) c := by
  rw [routine_eq]
  have hparams : Renumbers ρ (Prod.map (List.map id) id)
      (items .tooManyParameters .afterParameters (identifier .parameter) fuel)
      (items .tooManyParameters .afterParameters (identifier .parameter) fuel) c :=
    renumbers_items fun c => renumbers_identifier .parameter
  refine renumbers_bind hparams fun listed c₁ => ?_
  refine renumbers_bind (renumbers_symbol _) fun _ c₂ => ?_
  refine renumbers_bind (renumbers_block hg) fun body c₃ => renumbers_pure ?_
  rw [Routine.renumber_mk]
  exact congrArg (Routine.mk · _) (List.map_id _)

/-! ### Expressions -/

theorem renumbers_primary :
    Renumbers ρ (Expr.renumber ρ) (primary g fuel) (primary g fuel) c := by
  intro hρ
  have hkind : (c.renumber ρ).kind = c.kind := rfl
  unfold primary
  rw [hkind]
  split
  · rfl
  · rfl
  · rfl
  · rfl
  · rfl
  · refine renumbers_bind renumbers_take (fun word c₁ => ?_) hρ
    exact renumbers_bind (renumbers_fresh _) fun ref c₂ => renumbers_pure rfl
  · refine renumbers_bind renumbers_take (fun word c₁ => ?_) hρ
    exact renumbers_bind (renumbers_fresh _) fun ref c₂ => renumbers_pure rfl
  · refine renumbers_bind renumbers_take (fun word c₁ => ?_) hρ
    refine renumbers_bind (renumbers_symbol _) fun _ c₂ => ?_
    refine renumbers_bind (renumbers_identifier _) fun method c₃ => ?_
    exact renumbers_bind (renumbers_fresh _) fun ref c₄ => renumbers_pure rfl
  · refine renumbers_bind renumbers_take (fun word c₁ => ?_) hρ
    refine renumbers_bind (renumbers_symbol _) fun _ c₂ => ?_
    refine renumbers_bind (renumbers_routine hg _) fun r c₃ => renumbers_pure ?_
    exact (Expr.relabel_function _ r).symm
  · refine renumbers_bind renumbers_take (fun word c₁ => ?_) hρ
    refine renumbers_bind (hg .expression c₁) fun inner c₂ => ?_
    exact renumbers_bind (renumbers_symbol _) fun _ c₃ => renumbers_pure rfl
  · rfl

theorem renumbers_suffixesFrom (e : Expr) :
    Renumbers ρ (Expr.renumber ρ) (suffixesFrom g fuel e) (suffixesFrom g fuel (e.renumber ρ))
      c := by
  induction fuel generalizing e c with
  | zero => exact renumbers_exhausted
  | succ fuel ih =>
    rw [suffixesFrom_succ, suffixesFrom_succ]
    refine renumbers_bind (renumbers_skip _) fun called c₁ => renumbers_ite (fun _ => ?_) fun _ => ?_
    · refine renumbers_bind (renumbers_items (hg .assignment)) fun listed c₂ => ?_
      have hcall : (Expr.call e listed.1 listed.2.lexeme).renumber ρ =
          .call (e.renumber ρ) (listed.1.map (Expr.renumber ρ)) listed.2.lexeme := by
        unfold Expr.renumber
        rw [Expr.relabel, Expr.relabelAll_eq_map]
      have hlater := ih (.call e listed.1 listed.2.lexeme) (c := c₂)
      rwa [hcall] at hlater
    · refine renumbers_bind (renumbers_skip _) fun dotted c₂ =>
        renumbers_ite (fun _ => ?_) fun _ => renumbers_pure rfl
      exact renumbers_bind (renumbers_identifier _) fun property c₃ => ih (.get e property)

theorem renumbers_call : Renumbers ρ (Expr.renumber ρ) (call g fuel) (call g fuel) c := by
  unfold call
  exact renumbers_bind (renumbers_primary hg) fun e c₁ => renumbers_suffixesFrom hg e

theorem renumbers_unary : Renumbers ρ (Expr.renumber ρ) (unary g fuel) (unary g fuel) c := by
  cases hop : unaryOp c.kind with
  | none => exact Renumbers.of_eq (renumbers_call hg) (unary_none hop) (unary_none hop)
  | some op =>
    refine Renumbers.of_eq ?_ (unary_some hop) (unary_some hop)
    refine renumbers_bind renumbers_take fun word c₁ => ?_
    exact renumbers_bind (hg .unary c₁) fun operand c₂ => renumbers_pure rfl

omit hg [∀ n, Steady (g n)] in
theorem joinsAny_rank (rank : Rank) : JoinsAny ρ rank.join := by
  intro kind node hnode word left right
  unfold Rank.join at hnode
  split at hnode <;> cases hnode <;> rfl

theorem renumbers_disjunction :
    Renumbers ρ (Expr.renumber ρ) (disjunction g fuel) (disjunction g fuel) c := by
  have hproduct (c : Cursor) : Renumbers ρ (Expr.renumber ρ) (product g fuel) (product g fuel) c :=
    renumbers_chain (joinsAny_rank _) fun c => renumbers_unary hg
  have hsum (c : Cursor) : Renumbers ρ (Expr.renumber ρ) (sum g fuel) (sum g fuel) c :=
    renumbers_chain (joinsAny_rank _) hproduct
  have hcomparison (c : Cursor) :
      Renumbers ρ (Expr.renumber ρ) (comparison g fuel) (comparison g fuel) c :=
    renumbers_chain (joinsAny_rank _) hsum
  have hequality (c : Cursor) :
      Renumbers ρ (Expr.renumber ρ) (equality g fuel) (equality g fuel) c :=
    renumbers_chain (joinsAny_rank _) hcomparison
  have hconjunction (c : Cursor) :
      Renumbers ρ (Expr.renumber ρ) (conjunction g fuel) (conjunction g fuel) c :=
    renumbers_chain (joinsAny_rank _) hequality
  exact renumbers_chain (joinsAny_rank _) hconjunction

theorem renumbers_conditional :
    Renumbers ρ (Expr.renumber ρ) (conditional g fuel) (conditional g fuel) c := by
  unfold conditional
  refine renumbers_bind (renumbers_disjunction hg) fun condition c₁ => ?_
  refine renumbers_bind (renumbers_skip _) fun more c₂ =>
    renumbers_ite (fun _ => ?_) fun _ => renumbers_pure rfl
  refine renumbers_bind (hg .expression c₂) fun whenTrue c₃ => ?_
  refine renumbers_bind (renumbers_symbol _) fun _ c₄ => ?_
  exact renumbers_bind (hg .conditional c₄) fun whenFalse c₅ => renumbers_pure rfl

omit hg [∀ n, Steady (g n)] in
theorem assignTo?_renumber (target value : Expr) :
    assignTo? (target.renumber ρ) (value.renumber ρ) =
      (assignTo? target value).map (Expr.renumber ρ) := by
  cases target with
  | function r =>
    unfold Expr.renumber
    rw [Expr.relabel_function]
    rfl
  | _ => rfl

theorem renumbers_assignment :
    Renumbers ρ (Expr.renumber ρ) (assignment g fuel) (assignment g fuel) c := by
  unfold assignment
  refine renumbers_bind (renumbers_conditional hg) fun target c₁ => ?_
  refine renumbers_bind (renumbers_looksAt _) fun more c₂ =>
    renumbers_ite (fun _ => ?_) fun _ => renumbers_pure rfl
  refine renumbers_bind renumbers_take fun equals c₃ => ?_
  refine renumbers_bind (hg .assignment c₃) fun value c₄ => ?_
  have hassign : assignTo? (target.renumber ρ) (Nonterminal.renumber ρ .assignment value) =
      (assignTo? target value).map (Expr.renumber ρ) := assignTo?_renumber target value
  simp only [hassign]
  cases assignTo? target value with
  | some e => exact renumbers_pure rfl
  | none =>
    exact renumbers_bind (renumbers_reportAt _ _) fun _ c₅ => renumbers_pure rfl

theorem renumbers_expression :
    Renumbers ρ (Expr.renumber ρ) (expression g fuel) (expression g fuel) c := by
  refine renumbers_chain (fun kind node hnode word left right => ?_)
    fun c => renumbers_assignment hg
  unfold commaJoin at hnode
  split at hnode <;> cases hnode
  rfl

/-! ### Statements -/

theorem renumbers_declarator :
    Renumbers ρ (Declarator.renumber ρ) (declarator g) (declarator g) c := by
  unfold declarator
  refine renumbers_bind (renumbers_identifier _) fun name c₁ => ?_
  exact renumbers_bind (renumbers_following _ (hg .assignment)) fun value c₂ => renumbers_pure rfl

theorem renumbers_declaratorsFrom (ds : List Declarator) :
    Renumbers ρ (List.map (Declarator.renumber ρ)) (declaratorsFrom g fuel ds)
      (declaratorsFrom g fuel (ds.map (Declarator.renumber ρ))) c := by
  induction fuel generalizing ds c with
  | zero => exact renumbers_exhausted
  | succ fuel ih =>
    rw [declaratorsFrom_succ, declaratorsFrom_succ]
    refine renumbers_bind renumbers_peek fun token c₁ => ?_
    refine renumbers_bind (renumbers_declarator hg) fun d c₂ => ?_
    have hrepeated : (ds.map (Declarator.renumber ρ)).any
          (·.name.text = (d.renumber ρ).name.text) = ds.any (·.name.text = d.name.text) := by
      rw [List.any_map]
      rfl
    have hds : ds.map (Declarator.renumber ρ) ++ [d.renumber ρ] =
        (ds ++ [d]).map (Declarator.renumber ρ) := by
      rw [List.map_append, List.map_singleton]
    rw [hrepeated, hds]
    refine renumbers_bind (renumbers_ite (fun _ => ?_) fun _ => renumbers_pure rfl)
      fun ds c₃ => ?_
    · exact renumbers_bind (renumbers_reportAt _ _) fun _ c₃ => renumbers_pure rfl
    · refine renumbers_bind (renumbers_skip _) fun more c₄ => ?_
      exact renumbers_ite (fun _ => ih ds) fun _ => renumbers_pure rfl

theorem renumbers_varDeclaration :
    Renumbers ρ (Stmt.renumber ρ) (varDeclaration g fuel) (varDeclaration g fuel) c := by
  unfold varDeclaration
  refine renumbers_bind renumbers_take fun _ c₁ => ?_
  refine renumbers_bind (renumbers_declaratorsFrom hg []) fun ds c₂ => ?_
  refine renumbers_bind (renumbers_symbol _) fun _ c₃ => renumbers_pure ?_
  unfold Stmt.renumber
  rw [Stmt.relabel, Declarator.relabelAll_renumbering]

theorem renumbers_expressionStatement :
    Renumbers ρ (Stmt.renumber ρ) (expressionStatement g fuel) (expressionStatement g fuel) c := by
  unfold expressionStatement
  refine renumbers_bind (renumbers_expression hg) fun e c₁ => ?_
  exact renumbers_bind (renumbers_symbol _) fun _ c₂ => renumbers_pure rfl

omit hg [∀ n, Steady (g n)] in
theorem renumbers_breakStatement :
    Renumbers ρ (Stmt.renumber ρ) breakStatement breakStatement c := by
  unfold breakStatement
  refine renumbers_bind renumbers_take fun keyword c₁ => ?_
  exact renumbers_bind (renumbers_symbol _) fun _ c₂ => renumbers_pure rfl

theorem renumbers_clauseUpTo (s : Symbol) :
    Renumbers ρ (Option.map (Expr.renumber ρ)) (clauseUpTo g s) (clauseUpTo g s) c := by
  unfold clauseUpTo
  refine renumbers_bind (renumbers_looksAt _) fun missing c₁ => ?_
  exact renumbers_ite (fun _ => renumbers_pure rfl)
    fun _ => renumbers_map (hg .expression c₁) fun _ => rfl

theorem renumbers_forInitializer :
    Renumbers ρ (Option.map (Stmt.renumber ρ)) (forInitializer g fuel) (forInitializer g fuel)
      c := by
  unfold forInitializer
  refine renumbers_bind (renumbers_skip _) fun missing c₁ => ?_
  refine renumbers_ite (fun _ => renumbers_pure rfl) fun _ => ?_
  refine renumbers_bind (renumbers_looksAt _) fun declares c₂ => ?_
  exact renumbers_ite (fun _ => renumbers_map (renumbers_varDeclaration hg) fun _ => rfl)
    fun _ => renumbers_map (renumbers_expressionStatement hg) fun _ => rfl

theorem renumbers_forStatement :
    Renumbers ρ (Stmt.renumber ρ) (forStatement g fuel) (forStatement g fuel) c := by
  unfold forStatement
  refine renumbers_bind renumbers_take fun _ c₁ => ?_
  refine renumbers_bind (renumbers_symbol _) fun _ c₂ => ?_
  refine renumbers_bind (renumbers_forInitializer hg) fun initializer c₃ => ?_
  refine renumbers_bind (renumbers_clauseUpTo hg _) fun condition c₄ => ?_
  refine renumbers_bind (renumbers_symbol _) fun _ c₅ => ?_
  refine renumbers_bind (renumbers_clauseUpTo hg _) fun increment c₆ => ?_
  refine renumbers_bind (renumbers_symbol _) fun _ c₇ => ?_
  refine renumbers_bind (hg .statement c₇) fun body c₈ => renumbers_pure ?_
  exact (Stmt.renumber_forLoop ρ initializer condition increment body).symm

theorem renumbers_ifStatement :
    Renumbers ρ (Stmt.renumber ρ) (ifStatement g) (ifStatement g) c := by
  rw [ifStatement_eq]
  refine renumbers_bind renumbers_take fun _ c₁ => ?_
  refine renumbers_bind (renumbers_symbol _) fun _ c₂ => ?_
  refine renumbers_bind (hg .expression c₂) fun condition c₃ => ?_
  refine renumbers_bind (renumbers_symbol _) fun _ c₄ => ?_
  refine renumbers_bind (hg .statement c₄) fun whenTrue c₅ => ?_
  refine renumbers_bind (renumbers_following _ (hg .statement)) fun whenFalse c₆ =>
    renumbers_pure ?_
  cases whenFalse <;> rfl

theorem renumbers_printStatement :
    Renumbers ρ (Stmt.renumber ρ) (printStatement g) (printStatement g) c := by
  unfold printStatement
  refine renumbers_bind renumbers_take fun _ c₁ => ?_
  refine renumbers_bind (hg .expression c₁) fun e c₂ => ?_
  exact renumbers_bind (renumbers_symbol _) fun _ c₃ => renumbers_pure rfl

theorem renumbers_returnStatement :
    Renumbers ρ (Stmt.renumber ρ) (returnStatement g) (returnStatement g) c := by
  unfold returnStatement
  refine renumbers_bind renumbers_take fun keyword c₁ => ?_
  refine renumbers_bind (renumbers_clauseUpTo hg _) fun value c₂ => ?_
  refine renumbers_bind (renumbers_symbol _) fun _ c₃ => renumbers_pure ?_
  cases value <;> rfl

theorem renumbers_whileStatement :
    Renumbers ρ (Stmt.renumber ρ) (whileStatement g) (whileStatement g) c := by
  unfold whileStatement
  refine renumbers_bind renumbers_take fun _ c₁ => ?_
  refine renumbers_bind (renumbers_symbol _) fun _ c₂ => ?_
  refine renumbers_bind (hg .expression c₂) fun condition c₃ => ?_
  refine renumbers_bind (renumbers_symbol _) fun _ c₄ => ?_
  exact renumbers_bind (hg .statement c₄) fun body c₅ => renumbers_pure rfl

theorem renumbers_blockStatement :
    Renumbers ρ (Stmt.renumber ρ) (blockStatement g fuel) (blockStatement g fuel) c := by
  unfold blockStatement
  refine renumbers_bind renumbers_take fun _ c₁ => ?_
  refine renumbers_bind (renumbers_block hg) fun body c₂ => renumbers_pure ?_
  unfold Stmt.renumber
  rw [Stmt.relabel, Stmt.relabelAll_eq_map]
  rfl

theorem renumbers_statement :
    Renumbers ρ (Stmt.renumber ρ) (statement g fuel) (statement g fuel) c := by
  intro hρ
  have hkind : (c.renumber ρ).kind = c.kind := rfl
  unfold statement
  rw [hkind]
  split
  · exact renumbers_breakStatement hρ
  · exact renumbers_forStatement hg hρ
  · exact renumbers_ifStatement hg hρ
  · exact renumbers_printStatement hg hρ
  · exact renumbers_returnStatement hg hρ
  · exact renumbers_whileStatement hg hρ
  · exact renumbers_blockStatement hg hρ
  · exact renumbers_expressionStatement hg hρ

/-! ### Declarations -/

theorem renumbers_namedRoutine (kind : RoutineKind) :
    Renumbers ρ (Method.renumber ρ) (namedRoutine g fuel kind) (namedRoutine g fuel kind) c := by
  unfold namedRoutine
  refine renumbers_bind (renumbers_identifier _) fun name c₁ => ?_
  refine renumbers_bind (renumbers_symbol _) fun _ c₂ => ?_
  exact renumbers_bind (renumbers_routine hg kind) fun r c₃ => renumbers_pure rfl

theorem renumbers_functionDeclaration :
    Renumbers ρ (Stmt.renumber ρ) (functionDeclaration g fuel) (functionDeclaration g fuel) c := by
  unfold functionDeclaration
  refine renumbers_bind renumbers_take fun _ c₁ => ?_
  refine renumbers_bind (renumbers_namedRoutine hg .function) fun m c₂ => renumbers_pure ?_
  exact (Stmt.relabel_function _ _ m.name m.routine).symm

theorem renumbers_methodsFrom (done : List Method) :
    Renumbers ρ (List.map (Method.renumber ρ)) (methodsFrom g fuel done)
      (methodsFrom g fuel (done.map (Method.renumber ρ))) c := by
  induction fuel generalizing done c with
  | zero => exact renumbers_exhausted
  | succ fuel ih =>
    rw [methodsFrom, methodsFrom]
    refine renumbers_bind (renumbers_looksAt _) fun closed c₁ => ?_
    refine renumbers_bind (renumbers_looksAt _) fun ended c₂ => ?_
    refine renumbers_ite (fun _ => renumbers_pure List.map_reverse.symm) fun _ => ?_
    exact renumbers_bind (renumbers_namedRoutine hg .method) fun m c₃ => ih (m :: done)

theorem renumbers_classDeclaration :
    Renumbers ρ (Stmt.renumber ρ) (classDeclaration g fuel) (classDeclaration g fuel) c := by
  have hsuperclass (c : Cursor) : Renumbers ρ (Ref.relabel (.renumbering ρ))
      (identifier .superclass >>= fresh) (identifier .superclass >>= fresh) c :=
    renumbers_bind (renumbers_identifier _) fun word c₁ => renumbers_fresh word
  rw [classDeclaration_eq]
  refine renumbers_bind renumbers_take fun _ c₁ => ?_
  refine renumbers_bind (renumbers_identifier _) fun name c₂ => ?_
  refine renumbers_bind (renumbers_following _ hsuperclass) fun superclass c₃ => ?_
  refine renumbers_bind (renumbers_symbol _) fun _ c₄ => ?_
  refine renumbers_bind (renumbers_methodsFrom hg []) fun members c₅ => ?_
  refine renumbers_bind (renumbers_symbol _) fun _ c₆ => renumbers_pure ?_
  unfold Stmt.renumber
  rw [Stmt.relabel, Method.relabelAll_eq_map]
  rfl

theorem renumbers_strictDeclaration :
    Renumbers ρ (Stmt.renumber ρ) (strictDeclaration g fuel) (strictDeclaration g fuel) c := by
  intro hρ
  have hkind : (c.renumber ρ).kind = c.kind := rfl
  have hsecond : (c.renumber ρ).secondKind = c.secondKind := rfl
  unfold strictDeclaration
  rw [hkind, hsecond]
  split
  · exact renumbers_classDeclaration hg hρ
  · exact renumbers_varDeclaration hg hρ
  · split
    · exact renumbers_functionDeclaration hg hρ
    · exact renumbers_statement hg hρ
  · exact renumbers_statement hg hρ

theorem renumbers_declaration :
    Renumbers ρ (Option.map (Stmt.renumber ρ)) (declaration g fuel) (declaration g fuel) c := by
  intro hρ
  have hstrict : strictDeclaration g fuel (c.renumber ρ) = _ :=
    renumbers_strictDeclaration hg hρ
  unfold declaration
  rw [hstrict]
  cases strictDeclaration g fuel c with
  | ok s c₁ => rfl
  | error stop c₁ => cases stop <;> rfl

end Rules

/-! ## Programs -/

section Programs

variable {ρ : Nat → Nat} {fuel : Nat} {c : Cursor}

theorem renumbers_grammar (fuel : Nat) (n : Nonterminal) (c : Cursor) :
    Renumbers ρ (n.renumber ρ) (grammar fuel n) (grammar fuel n) c := by
  induction fuel generalizing n c with
  | zero => exact fun _ => by cases n <;> rfl
  | succ fuel ih =>
    cases n with
    | expression => exact renumbers_expression ih
    | assignment => exact renumbers_assignment ih
    | conditional => exact renumbers_conditional ih
    | unary => exact renumbers_unary ih
    | statement => exact renumbers_statement ih
    | declaration => exact renumbers_declaration ih

theorem renumbers_trailing :
    Renumbers ρ (Option.map (Expr.renumber ρ)) (trailing fuel) (trailing fuel) c := by
  intro hρ
  have hexpression := renumbers_grammar fuel .expression c hρ
  unfold trailing
  rw [hexpression]
  cases grammar fuel .expression c with
  | ok e c₁ =>
    change (if c₁.atEnd ∧ c₁.found.length = c.found.length then _ else _) = renumbered ρ _
      (if c₁.atEnd ∧ c₁.found.length = c.found.length then _ else _)
    split <;> rfl
  | error stop c₁ => cases stop <;> rfl

theorem renumbers_speculation (mode : Mode) :
    Renumbers ρ (Option.map (Expr.renumber ρ)) (speculation mode fuel) (speculation mode fuel)
      c := by
  cases mode with
  | interactive => exact renumbers_trailing
  | script => exact fun _ => rfl

theorem Program.renumber_reverse (done : List Stmt) (e : Option Expr) :
    Program.renumber ρ ⟨done.reverse, e⟩ =
      ⟨(done.map (Stmt.renumber ρ)).reverse, e.map (Expr.renumber ρ)⟩ := by
  unfold Program.renumber Program.relabel
  rw [Stmt.relabelAll_eq_map, List.map_reverse]

theorem renumbers_programFrom (mode : Mode) (rounds : Nat) (done : List Stmt) :
    Renumbers ρ (Program.renumber ρ) (programFrom mode fuel rounds done)
      (programFrom mode fuel rounds (done.map (Stmt.renumber ρ))) c := by
  induction rounds generalizing done c with
  | zero => exact renumbers_exhausted
  | succ rounds ih =>
    by_cases hend : c.atEnd
    · refine Renumbers.of_eq (renumbers_pure ?_) (programFrom_atEnd mode rounds done hend)
        (programFrom_atEnd mode rounds (done.map (Stmt.renumber ρ)) hend)
      exact (Program.renumber_reverse done none).symm
    · refine Renumbers.of_eq ?_ (programFrom_succ mode rounds done hend)
        (programFrom_succ mode rounds (done.map (Stmt.renumber ρ)) hend)
      refine renumbers_bind (renumbers_speculation mode) fun e c₁ => ?_
      cases e with
      | some e => exact renumbers_pure (Program.renumber_reverse done (some e)).symm
      | none =>
        have hsteady : Steady (grammar fuel .declaration : Parser (Option Stmt)) :=
          steady_grammar fuel .declaration
        refine @renumbers_bind _ _ _ _ ρ (Option.map (Stmt.renumber ρ)) (Program.renumber ρ)
          (grammar fuel .declaration) (grammar fuel .declaration) _ _ c₁ hsteady
          (renumbers_grammar fuel .declaration c₁) fun s c₂ => ?_
        have hmore : (Option.map (Stmt.renumber ρ) s).toList ++ done.map (Stmt.renumber ρ) =
            (s.toList ++ done).map (Stmt.renumber ρ) := by
          cases s <;> rfl
        rw [hmore]
        exact ih _

end Programs

end Grammar

/-- **Parsing from another number on.** The result is the same with other numbers, and so is the
number after it. -/
theorem Program.parse_renumber {ρ : Nat → Nat} {nextRef : Nat} (hρ : Grammar.CountsOn ρ nextRef)
    (tokens : List Token) (mode : Mode) :
    Program.parse tokens mode (ρ nextRef) =
      ⟨(Program.parse tokens mode nextRef).result.map (Program.renumber ρ),
        ρ (Program.parse tokens mode nextRef).nextRef⟩ := by
  have hprogram : Grammar.program mode (.start tokens (ρ nextRef)) =
      Grammar.renumbered ρ (Program.renumber ρ) (Grammar.program mode (.start tokens nextRef)) :=
    Grammar.renumbers_programFrom mode _ [] (c := .start tokens nextRef) hρ
  unfold Program.parse
  rw [hprogram]
  cases Grammar.program mode (.start tokens nextRef) with
  | ok p c =>
    change Parsed.mk (if c.found = [] then _ else _) _ = _
    dsimp only
    split <;> rfl
  | error stop c => rfl

end ScriptLang
