import ScriptLang.Proofs.Grammar.Rules

/-!
# Fuel for the grammar

A parser with more fuel than there are tokens never runs out of it (`lasts_grammar`). A rule goes
through the grammar again only after it has read a token, and every round of a loop reads one
too. Those of a list of declarations do so because a declaration that is not at the end of the
input reads something even if it is given up (`Advances`).

So parsing always ends with a program or with diagnostics, of which there is at least one
(`Program.parse_complains`).
-/

namespace ScriptLang.Grammar

variable {α β : Type}

/-! ## Lasting and shortening -/

/-- The parser does not run out of fuel. -/
def Lasts (act : Parser α) (c : Cursor) : Prop := ∀ c', act c ≠ .error .exhausted c'

/-- The parser reads at least one token, unless it stops. -/
class Shortens (act : Parser α) : Prop where
  shorter : ∀ {c a c'}, act c = .ok a c' → c'.rest.length < c.rest.length

theorem Cursor.length_advance {c : Cursor} (h : c.kind ≠ .endOfInput) :
    c.advance.rest.length < c.rest.length := by
  cases hrest : c.rest with
  | nil => exact absurd (by simp [Cursor.kind, Cursor.next, hrest, Token.endOfInput]) h
  | cons t ts => simp [Cursor.advance, hrest]

theorem Cursor.Leads.length_le {c c' : Cursor} (h : c.Leads c') :
    c'.rest.length ≤ c.rest.length := h.rest.length_le

section Combinators

variable {act : Parser α} {next : α → Parser β} {c : Cursor}

theorem lasts_of_ok {a : α} {c' : Cursor} (h : act c = .ok a c') : Lasts act c := by
  intro c₁ h₁
  rw [h] at h₁
  cases h₁

theorem lasts_pure (a : α) : Lasts (pure a) c := lasts_of_ok rfl

theorem Lasts.of_eq {act' : Parser α} (h : Lasts act' c) (heq : act c = act' c) : Lasts act c := by
  intro c' hc'
  exact h c' (heq ▸ hc')

theorem lasts_andThen (h : Lasts act c) (hnext : ∀ a c', act c = .ok a c' → Lasts (next a) c') :
    Lasts (act >>= next) c := by
  intro c' hc'
  rw [bind_eq_match] at hc'
  cases hact : act c with
  | ok a c₁ =>
    rw [hact] at hc'
    exact hnext a c₁ hact c' hc'
  | error stop c₁ =>
    rw [hact] at hc'
    cases hc'
    exact h c' hact

/-- What comes second starts no earlier. -/
theorem lasts_bind [Steady act] (h : Lasts act c)
    (hnext : ∀ a c', c'.rest.length ≤ c.rest.length → Lasts (next a) c') :
    Lasts (act >>= next) c :=
  lasts_andThen h fun a c' hact => hnext a c' (Steady.of_ok hact).length_le

/-- What comes second starts later. -/
theorem lasts_bind_shorter [Shortens act] (h : Lasts act c)
    (hnext : ∀ a c', c'.rest.length < c.rest.length → Lasts (next a) c') :
    Lasts (act >>= next) c :=
  lasts_andThen h fun a c' hact => hnext a c' (Shortens.shorter hact)

theorem lasts_map [Steady act] {f : α → β} (h : Lasts act c) : Lasts (f <$> act) c := by
  change Lasts (act >>= fun a => pure (f a)) c
  exact lasts_bind h fun a c' _ => lasts_pure _

instance [Shortens act] [∀ a, Steady (next a)] : Shortens (act >>= next) := by
  refine ⟨fun {c b c'} h => ?_⟩
  obtain ⟨a, c₁, hact, hnext⟩ := bind_eq_ok h
  exact Nat.lt_of_le_of_lt (Steady.of_ok hnext).length_le (Shortens.shorter hact)

instance [Steady act] [∀ a, Shortens (next a)] : Shortens (act >>= next) := by
  refine ⟨fun {c b c'} h => ?_⟩
  obtain ⟨a, c₁, hact, hnext⟩ := bind_eq_ok h
  exact Nat.lt_of_lt_of_le (Shortens.shorter hnext) (Steady.of_ok hact).length_le

end Combinators

/-! ## Single tokens -/

section Tokens

variable {c : Cursor}

instance (place : SymbolPlace) : Shortens (symbol place) := by
  refine ⟨fun {c t c'} h => ?_⟩
  unfold symbol at h
  split at h
  · rename_i hkind
    cases h
    exact Cursor.length_advance (by rw [hkind]; rintro ⟨⟩)
  · cases h

instance (place : NamePlace) : Shortens (identifier place) := by
  refine ⟨fun {c t c'} h => ?_⟩
  unfold identifier at h
  split at h
  · rename_i hkind
    cases h
    exact Cursor.length_advance (by rw [hkind]; rintro ⟨⟩)
  · cases h

theorem lasts_symbol (place : SymbolPlace) : Lasts (symbol place) c := by
  intro c' h
  unfold symbol at h
  split at h <;> cases h

theorem lasts_identifier (place : NamePlace) : Lasts (identifier place) c := by
  intro c' h
  unfold identifier at h
  split at h <;> cases h

theorem lasts_fresh (word : Lexeme) : Lasts (fresh word) c := lasts_of_ok rfl

variable {next : Token → Parser α} {branch : Bool → Parser α} {kind : Kind}

/-- A token is read, as the input does not end here. -/
theorem lasts_take (hkind : c.kind ≠ .endOfInput)
    (hnext : ∀ t c', c'.rest.length < c.rest.length → Lasts (next t) c') :
    Lasts (take >>= next) c := by
  have hlasts := hnext c.next c.advance (Cursor.length_advance hkind)
  exact hlasts

theorem lasts_looksAt (htrue : c.kind = kind → Lasts (branch true) c)
    (hfalse : c.kind ≠ kind → Lasts (branch false) c) : Lasts (looksAt kind >>= branch) c := by
  have hstep : (looksAt kind >>= branch) c = branch (decide (c.kind = kind)) c := rfl
  refine Lasts.of_eq ?_ hstep
  by_cases hkind : c.kind = kind
  · rw [decide_eq_true hkind]
    exact htrue hkind
  · rw [decide_eq_false hkind]
    exact hfalse hkind

theorem lasts_skip (hkind : kind ≠ .endOfInput)
    (htrue : ∀ c', c'.rest.length < c.rest.length → Lasts (branch true) c')
    (hfalse : Lasts (branch false) c) : Lasts (skip kind >>= branch) c := by
  by_cases hhere : c.kind = kind
  · have hskip : skip kind c = .ok true c.advance := if_pos hhere
    intro c' hc'
    rw [bind_eq_match, hskip] at hc'
    exact htrue c.advance (Cursor.length_advance (hhere ▸ hkind)) c' hc'
  · have hskip : skip kind c = .ok false c := if_neg hhere
    refine Lasts.of_eq hfalse ?_
    rw [bind_eq_match, hskip]

theorem lasts_following {act : Parser α} [Steady act] (hkind : kind ≠ .endOfInput)
    (h : ∀ c', c'.rest.length < c.rest.length → Lasts act c') : Lasts (following kind act) c := by
  unfold following
  exact lasts_skip hkind (fun c' hc' => lasts_map (h c' hc')) (lasts_pure _)

end Tokens

/-! ## Lists -/

section Lists

variable {join : Kind → Option (Lexeme → Expr → Expr → Expr)} {operand : Parser Expr}
  [Steady operand] {fuel k : Nat} {c : Cursor}

theorem lasts_chainFrom (hend : join .endOfInput = none)
    (hoperand : ∀ c, c.rest.length ≤ k → Lasts operand c) (left : Expr)
    (hc : c.rest.length ≤ k) (hfuel : c.rest.length < fuel) :
    Lasts (chainFrom join operand fuel left) c := by
  induction fuel generalizing left c with
  | zero => omega
  | succ fuel ih =>
    cases hnode : join c.kind with
    | none => exact lasts_of_ok (chainFrom_none hnode)
    | some node =>
      refine Lasts.of_eq ?_ (chainFrom_some hnode)
      have hkind : c.kind ≠ .endOfInput := by
        intro hkind
        rw [hkind, hend] at hnode
        cases hnode
      refine lasts_take hkind fun t c₁ h₁ => ?_
      refine lasts_bind (hoperand c₁ (by omega)) fun right c₂ h₂ => ?_
      exact ih _ (by omega) (by omega)

theorem lasts_chain (hend : join .endOfInput = none)
    (hoperand : ∀ c, c.rest.length ≤ k → Lasts operand c) (hc : c.rest.length ≤ k)
    (hfuel : k < fuel) : Lasts (chain join operand fuel) c := by
  unfold chain
  exact lasts_bind (hoperand c hc) fun left c₁ h₁ =>
    lasts_chainFrom hend hoperand left (by omega) (by omega)

variable {item : Parser α} [Steady item] {tooMany : GrammarFault} {closing : SymbolPlace}

theorem lasts_itemsFrom (hitem : ∀ c, c.rest.length ≤ k → Lasts item c) (listed : List α)
    (hc : c.rest.length ≤ k) (hfuel : c.rest.length < fuel) :
    Lasts (itemsFrom tooMany item fuel listed) c := by
  induction fuel generalizing listed c with
  | zero => omega
  | succ fuel ih =>
    have hcount : Lasts (if maxListed ≤ listed.length then reportHere tooMany else pure ()) c := by
      split <;> exact lasts_of_ok rfl
    rw [itemsFrom_succ]
    refine lasts_bind hcount fun _ c₁ h₁ => ?_
    refine lasts_bind (hitem c₁ (by omega)) fun x c₂ h₂ => ?_
    refine lasts_skip nofun (fun c₃ h₃ => ?_) (lasts_pure _)
    exact ih _ (by omega) (by omega)

theorem lasts_items (hitem : ∀ c, c.rest.length ≤ k → Lasts item c) (hc : c.rest.length ≤ k)
    (hfuel : k < fuel) : Lasts (items tooMany closing item fuel) c := by
  have hlisted : Lasts (listedBy tooMany item fuel) c :=
    lasts_looksAt (fun _ => lasts_pure _) fun _ => lasts_itemsFrom hitem [] hc (by omega)
  rw [items_eq]
  refine lasts_bind hlisted fun listed c₁ _ => ?_
  exact lasts_bind (lasts_symbol closing) fun close c₂ _ => lasts_pure _

end Lists

/-! ## What declarations read -/

section Advances

variable {g : Grammar} [∀ n, Steady (g n)] {fuel : Nat} {c c' : Cursor}

set_option synthInstance.maxSize 256 in
instance : Shortens (forStatement g fuel) := by
  unfold forStatement
  infer_instance

instance (kind : RoutineKind) : Shortens (namedRoutine g fuel kind) := by
  unfold namedRoutine
  infer_instance

/-- Every statement has a symbol in it that may not be missing. -/
theorem shorter_statement {s : Stmt} (h : statement g fuel c = .ok s c') :
    c'.rest.length < c.rest.length := by
  have hbreak : Shortens breakStatement := by
    unfold breakStatement
    infer_instance
  have hfor : Shortens (forStatement g fuel) := inferInstance
  have hif : Shortens (ifStatement g) := by
    rw [ifStatement_eq]
    infer_instance
  have hprint : Shortens (printStatement g) := by
    unfold printStatement
    infer_instance
  have hreturn : Shortens (returnStatement g) := by
    unfold returnStatement
    infer_instance
  have hwhile : Shortens (whileStatement g) := by
    unfold whileStatement
    infer_instance
  have hblock : Shortens (blockStatement g fuel) := by
    unfold blockStatement block
    infer_instance
  have hexpression : Shortens (expressionStatement g fuel) := by
    unfold expressionStatement
    infer_instance
  unfold statement at h
  split at h
  · exact hbreak.shorter h
  · exact hfor.shorter h
  · exact hif.shorter h
  · exact hprint.shorter h
  · exact hreturn.shorter h
  · exact hwhile.shorter h
  · exact hblock.shorter h
  · exact hexpression.shorter h

theorem shorter_strictDeclaration {s : Stmt} (h : strictDeclaration g fuel c = .ok s c') :
    c'.rest.length < c.rest.length := by
  have hclass : Shortens (classDeclaration g fuel) := by
    rw [classDeclaration_eq]
    infer_instance
  have hvar : Shortens (varDeclaration g fuel) := by
    unfold varDeclaration
    infer_instance
  have hfunction : Shortens (functionDeclaration g fuel) := by
    unfold functionDeclaration
    infer_instance
  unfold strictDeclaration at h
  split at h
  · exact hclass.shorter h
  · exact hvar.shorter h
  · split at h
    · exact hfunction.shorter h
    · exact shorter_statement h
  · exact shorter_statement h

/-- A declaration that is given up has lost at least the token at its fault. -/
theorem shorter_declaration {s : Option Stmt} (hopen : ¬ c.atEnd)
    (h : declaration g fuel c = .ok s c') : c'.rest.length < c.rest.length := by
  have hsome : c.rest ≠ [] := by
    intro hnil
    refine hopen ?_
    simp [Cursor.atEnd, Cursor.kind, Cursor.next, hnil, Token.endOfInput]
  unfold declaration at h
  cases hend : strictDeclaration g fuel c with
  | ok s' c₁ =>
    simp only [hend] at h
    cases h
    exact shorter_strictDeclaration hend
  | error stop c₁ =>
    simp only [hend] at h
    cases stop with
    | exhausted => cases h
    | fault d =>
      cases h
      have hleads : c₁.rest.length ≤ c.rest.length := (Steady.of_error hend).length_le
      have hresume : (resume c₁.rest).length ≤ c₁.rest.tail.length := (resume_suffix _).length_le
      have hpositive := List.length_pos_iff.mpr hsome
      rw [List.length_tail] at hresume
      change (resume c₁.rest).length < c.rest.length
      omega

end Advances

/-! ## The rules -/

/-- The parsers of a grammar have fuel where fewer than `k` tokens are left, and a declaration
reads something. -/
structure Ample (g : Grammar) (k : Nat) : Prop where
  lasts : ∀ n c, c.rest.length < k → Lasts (g n) c
  advances : ∀ c s c', ¬ c.atEnd → g .declaration c = .ok s c' → c'.rest.length < c.rest.length

section Rules

variable {g : Grammar} [∀ n, Steady (g n)] {fuel k : Nat} {c : Cursor} (hg : Ample g k)

include hg

omit [∀ n, Steady (g n)] in
theorem lasts_declarationsFrom (done : List Stmt) (hc : c.rest.length < k)
    (hfuel : c.rest.length < fuel) : Lasts (declarationsFrom g fuel done) c := by
  induction fuel generalizing done c with
  | zero => omega
  | succ fuel ih =>
    by_cases hclosed : c.kind = .symbol .rightBrace ∨ c.atEnd
    · exact lasts_of_ok (declarationsFrom_closed hclosed)
    · refine Lasts.of_eq ?_ (declarationsFrom_open hclosed)
      refine lasts_andThen (hg.lasts .declaration c hc) fun s c₁ hact => ?_
      have hshorter := hg.advances c s c₁ (fun h => hclosed (.inr h)) hact
      exact ih _ (by omega) (by omega)

theorem lasts_block (hc : c.rest.length < k) (hfuel : c.rest.length < fuel) :
    Lasts (block g fuel) c := by
  unfold block
  refine lasts_bind (lasts_declarationsFrom hg [] hc hfuel) fun body c₁ _ => ?_
  exact lasts_bind (lasts_symbol _) fun _ c₂ _ => lasts_pure _

theorem lasts_routine (kind : RoutineKind) (hc : c.rest.length < k)
    (hfuel : c.rest.length < fuel) : Lasts (routine g fuel kind) c := by
  have hparams : Lasts (items .tooManyParameters .afterParameters (identifier .parameter) fuel) c :=
    lasts_items (fun c _ => lasts_identifier _) (Nat.le_refl _) hfuel
  rw [routine_eq]
  refine lasts_bind hparams fun params c₁ h₁ => ?_
  refine lasts_bind (lasts_symbol _) fun _ c₂ h₂ => ?_
  refine lasts_bind (lasts_block hg (by omega) (by omega)) fun body c₃ _ => ?_
  exact lasts_pure _

/-! ### Expressions -/

theorem lasts_primary (hc : c.rest.length ≤ k) (hfuel : k < fuel) : Lasts (primary g fuel) c := by
  intro c'
  unfold primary
  split
  · rintro ⟨⟩
  · rintro ⟨⟩
  · rintro ⟨⟩
  · rintro ⟨⟩
  · rintro ⟨⟩
  · rintro ⟨⟩
  · rintro ⟨⟩
  · next hkind =>
    have hsuper : Lasts (take >>= fun word => symbol .afterSuper >>= fun _ =>
        identifier .superclassMethod >>= fun method => fresh word.lexeme >>= fun ref =>
          pure (Expr.super ref method)) c := by
      refine lasts_bind (lasts_of_ok rfl) fun word c₁ _ => ?_
      refine lasts_bind (lasts_symbol _) fun _ c₂ _ => ?_
      refine lasts_bind (lasts_identifier _) fun method c₃ _ => ?_
      exact lasts_bind (lasts_fresh _) fun ref c₄ _ => lasts_pure _
    exact hsuper c'
  · next hkind =>
    have hfun : Lasts (take >>= fun _ => symbol .afterFun >>= fun _ =>
        routine g fuel .function >>= fun r => pure (Expr.function r)) c := by
      refine lasts_bind (lasts_of_ok rfl) fun word c₁ h₁ => ?_
      refine lasts_bind_shorter (lasts_symbol _) fun _ c₂ h₂ => ?_
      exact lasts_bind (lasts_routine hg _ (by omega) (by omega)) fun r c₃ _ => lasts_pure _
    exact hfun c'
  · next hkind =>
    have hgrouping : Lasts (take >>= fun _ => g .expression >>= fun inner =>
        symbol .afterGrouping >>= fun _ => pure (Expr.grouping inner)) c := by
      refine lasts_take (by rw [hkind]; rintro ⟨⟩) fun word c₁ h₁ => ?_
      refine lasts_bind (hg.lasts .expression c₁ (by omega)) fun inner c₂ _ => ?_
      exact lasts_bind (lasts_symbol _) fun _ c₃ _ => lasts_pure _
    exact hgrouping c'
  · rintro ⟨⟩

theorem lasts_suffixesFrom (e : Expr) (hc : c.rest.length ≤ k) (hfuel : c.rest.length < fuel) :
    Lasts (suffixesFrom g fuel e) c := by
  induction fuel generalizing e c with
  | zero => omega
  | succ fuel ih =>
    rw [suffixesFrom_succ]
    refine lasts_skip nofun (fun c₁ h₁ => ?_) (lasts_skip nofun (fun c₁ h₁ => ?_) (lasts_pure _))
    · have harguments : Lasts (items .tooManyArguments .afterArguments (g .assignment) fuel) c₁ :=
        lasts_items (k := c₁.rest.length) (fun c' hc' => hg.lasts .assignment c' (by omega))
          (Nat.le_refl _) (by omega)
      exact lasts_bind harguments fun listed c₂ h₂ => ih _ (by omega) (by omega)
    · exact lasts_bind (lasts_identifier _) fun property c₂ h₂ => ih _ (by omega) (by omega)

theorem lasts_call (hc : c.rest.length ≤ k) (hfuel : k < fuel) : Lasts (call g fuel) c := by
  unfold call
  exact lasts_bind (lasts_primary hg hc hfuel) fun e c₁ h₁ =>
    lasts_suffixesFrom hg e (by omega) (by omega)

theorem lasts_unary (hc : c.rest.length ≤ k) (hfuel : k < fuel) : Lasts (unary g fuel) c := by
  cases hop : unaryOp c.kind with
  | none => exact Lasts.of_eq (lasts_call hg hc hfuel) (unary_none hop)
  | some op =>
    refine Lasts.of_eq ?_ (unary_some hop)
    have hkind : c.kind ≠ .endOfInput := by
      intro hkind
      rw [hkind] at hop
      cases hop
    refine lasts_take hkind fun word c₁ h₁ => ?_
    exact lasts_bind (hg.lasts .unary c₁ (by omega)) fun operand c₂ _ => lasts_pure _

theorem lasts_disjunction (hc : c.rest.length ≤ k) (hfuel : k < fuel) :
    Lasts (disjunction g fuel) c := by
  have hunary (c : Cursor) (hc : c.rest.length ≤ k) : Lasts (unary g fuel) c :=
    lasts_unary hg hc hfuel
  have hproduct (c : Cursor) (hc : c.rest.length ≤ k) : Lasts (product g fuel) c :=
    lasts_chain rfl hunary hc hfuel
  have hsum (c : Cursor) (hc : c.rest.length ≤ k) : Lasts (sum g fuel) c :=
    lasts_chain rfl hproduct hc hfuel
  have hcomparison (c : Cursor) (hc : c.rest.length ≤ k) : Lasts (comparison g fuel) c :=
    lasts_chain rfl hsum hc hfuel
  have hequality (c : Cursor) (hc : c.rest.length ≤ k) : Lasts (equality g fuel) c :=
    lasts_chain rfl hcomparison hc hfuel
  have hconjunction (c : Cursor) (hc : c.rest.length ≤ k) : Lasts (conjunction g fuel) c :=
    lasts_chain rfl hequality hc hfuel
  exact lasts_chain rfl hconjunction hc hfuel

theorem lasts_conditional (hc : c.rest.length ≤ k) (hfuel : k < fuel) :
    Lasts (conditional g fuel) c := by
  unfold conditional
  refine lasts_bind (lasts_disjunction hg hc hfuel) fun condition c₁ h₁ => ?_
  refine lasts_skip nofun (fun c₂ h₂ => ?_) (lasts_pure _)
  refine lasts_bind (hg.lasts .expression c₂ (by omega)) fun whenTrue c₃ h₃ => ?_
  refine lasts_bind (lasts_symbol _) fun _ c₄ h₄ => ?_
  exact lasts_bind (hg.lasts .conditional c₄ (by omega)) fun whenFalse c₅ _ => lasts_pure _

theorem lasts_assignment (hc : c.rest.length ≤ k) (hfuel : k < fuel) :
    Lasts (assignment g fuel) c := by
  unfold assignment
  refine lasts_bind (lasts_conditional hg hc hfuel) fun target c₁ h₁ => ?_
  refine lasts_looksAt (fun hkind => ?_) fun _ => lasts_pure _
  refine lasts_take (by rw [hkind]; rintro ⟨⟩) fun equals c₂ h₂ => ?_
  refine lasts_bind (hg.lasts .assignment c₂ (by omega)) fun value c₃ _ => ?_
  cases assignTo? target value with
  | some e => exact lasts_pure e
  | none => exact lasts_of_ok rfl

theorem lasts_expression (hc : c.rest.length ≤ k) (hfuel : k < fuel) :
    Lasts (expression g fuel) c :=
  lasts_chain rfl (fun _ hc => lasts_assignment hg hc hfuel) hc hfuel

/-! ### Statements -/

theorem lasts_declaratorsFrom (ds : List Declarator) (hc : c.rest.length ≤ k)
    (hfuel : c.rest.length < fuel) : Lasts (declaratorsFrom g fuel ds) c := by
  induction fuel generalizing ds c with
  | zero => omega
  | succ fuel ih =>
    have hdeclarator (c : Cursor) (hc : c.rest.length ≤ k) : Lasts (declarator g) c := by
      unfold declarator
      refine lasts_bind_shorter (lasts_identifier _) fun name c₁ h₁ => ?_
      have hinitializer : Lasts (following (.symbol .equal) (g .assignment)) c₁ :=
        lasts_following nofun fun c₂ h₂ => hg.lasts .assignment c₂ (by omega)
      exact lasts_bind hinitializer fun initializer c₂ _ => lasts_pure _
    rw [declaratorsFrom_succ]
    refine lasts_bind (lasts_of_ok rfl) fun token c₁ h₁ => ?_
    refine lasts_bind (hdeclarator c₁ (by omega)) fun d c₂ h₂ => ?_
    refine lasts_bind ?_ fun ds c₃ h₃ => ?_
    · split <;> exact lasts_of_ok rfl
    · exact lasts_skip nofun (fun c₄ h₄ => ih _ (by omega) (by omega)) (lasts_pure _)

theorem lasts_varDeclaration (hc : c.rest.length ≤ k) (hfuel : k < fuel) :
    Lasts (varDeclaration g fuel) c := by
  unfold varDeclaration
  refine lasts_bind (lasts_of_ok rfl) fun _ c₁ h₁ => ?_
  refine lasts_bind (lasts_declaratorsFrom hg [] (by omega) (by omega)) fun ds c₂ _ => ?_
  exact lasts_bind (lasts_symbol _) fun _ c₃ _ => lasts_pure _

theorem lasts_expressionStatement (hc : c.rest.length ≤ k) (hfuel : k < fuel) :
    Lasts (expressionStatement g fuel) c := by
  unfold expressionStatement
  refine lasts_bind (lasts_expression hg hc hfuel) fun e c₁ _ => ?_
  exact lasts_bind (lasts_symbol _) fun _ c₂ _ => lasts_pure _

theorem lasts_clauseUpTo (s : Symbol) (hc : c.rest.length < k) : Lasts (clauseUpTo g s) c :=
  lasts_looksAt (fun _ => lasts_pure _) fun _ => lasts_map (hg.lasts .expression c hc)

theorem lasts_forStatement (hc : c.rest.length ≤ k) (hfuel : k < fuel) :
    Lasts (forStatement g fuel) c := by
  have hinitializer (c : Cursor) (hc : c.rest.length < k) : Lasts (forInitializer g fuel) c := by
    unfold forInitializer
    refine lasts_skip nofun (fun c₁ _ => lasts_pure _) ?_
    refine lasts_looksAt (fun _ => ?_) fun _ => ?_
    · exact lasts_map (lasts_varDeclaration hg (Nat.le_of_lt hc) hfuel)
    · exact lasts_map (lasts_expressionStatement hg (Nat.le_of_lt hc) hfuel)
  unfold forStatement
  refine lasts_bind (lasts_of_ok rfl) fun _ c₁ h₁ => ?_
  refine lasts_bind_shorter (lasts_symbol _) fun _ c₂ h₂ => ?_
  refine lasts_bind (hinitializer c₂ (by omega)) fun initializer c₃ h₃ => ?_
  refine lasts_bind (lasts_clauseUpTo hg _ (by omega)) fun condition c₄ h₄ => ?_
  refine lasts_bind (lasts_symbol _) fun _ c₅ h₅ => ?_
  refine lasts_bind (lasts_clauseUpTo hg _ (by omega)) fun increment c₆ h₆ => ?_
  refine lasts_bind (lasts_symbol _) fun _ c₇ h₇ => ?_
  exact lasts_bind (hg.lasts .statement c₇ (by omega)) fun body c₈ _ => lasts_pure _

theorem lasts_ifStatement (hc : c.rest.length ≤ k) : Lasts (ifStatement g) c := by
  rw [ifStatement_eq]
  refine lasts_bind (lasts_of_ok rfl) fun _ c₁ h₁ => ?_
  refine lasts_bind_shorter (lasts_symbol _) fun _ c₂ h₂ => ?_
  refine lasts_bind (hg.lasts .expression c₂ (by omega)) fun condition c₃ h₃ => ?_
  refine lasts_bind (lasts_symbol _) fun _ c₄ h₄ => ?_
  refine lasts_bind (hg.lasts .statement c₄ (by omega)) fun whenTrue c₅ h₅ => ?_
  have hfalse : Lasts (following (.keyword .else) (g .statement)) c₅ :=
    lasts_following nofun fun c₆ h₆ => hg.lasts .statement c₆ (by omega)
  exact lasts_bind hfalse fun whenFalse c₆ _ => lasts_pure _

theorem lasts_statement (hc : c.rest.length ≤ k) (hfuel : k < fuel) :
    Lasts (statement g fuel) c := by
  intro c'
  unfold statement
  split
  · have hbreak : Lasts breakStatement c := by
      unfold breakStatement
      refine lasts_bind (lasts_of_ok rfl) fun keyword c₁ _ => ?_
      exact lasts_bind (lasts_symbol _) fun _ c₂ _ => lasts_pure _
    exact hbreak c'
  · exact lasts_forStatement hg hc hfuel c'
  · exact lasts_ifStatement hg hc c'
  · next hkind =>
    have hprint : Lasts (printStatement g) c := by
      unfold printStatement
      refine lasts_take (by rw [hkind]; rintro ⟨⟩) fun _ c₁ h₁ => ?_
      refine lasts_bind (hg.lasts .expression c₁ (by omega)) fun e c₂ _ => ?_
      exact lasts_bind (lasts_symbol _) fun _ c₃ _ => lasts_pure _
    exact hprint c'
  · next hkind =>
    have hreturn : Lasts (returnStatement g) c := by
      unfold returnStatement
      refine lasts_take (by rw [hkind]; rintro ⟨⟩) fun _ c₁ h₁ => ?_
      refine lasts_bind (lasts_clauseUpTo hg _ (by omega)) fun e c₂ _ => ?_
      exact lasts_bind (lasts_symbol _) fun _ c₃ _ => lasts_pure _
    exact hreturn c'
  · have hwhile : Lasts (whileStatement g) c := by
      unfold whileStatement
      refine lasts_bind (lasts_of_ok rfl) fun _ c₁ h₁ => ?_
      refine lasts_bind_shorter (lasts_symbol _) fun _ c₂ h₂ => ?_
      refine lasts_bind (hg.lasts .expression c₂ (by omega)) fun condition c₃ h₃ => ?_
      refine lasts_bind (lasts_symbol _) fun _ c₄ h₄ => ?_
      exact lasts_bind (hg.lasts .statement c₄ (by omega)) fun body c₅ _ => lasts_pure _
    exact hwhile c'
  · next hkind =>
    have hblock : Lasts (blockStatement g fuel) c := by
      unfold blockStatement
      refine lasts_take (by rw [hkind]; rintro ⟨⟩) fun _ c₁ h₁ => ?_
      exact lasts_bind (lasts_block hg (by omega) (by omega)) fun body c₂ _ => lasts_pure _
    exact hblock c'
  · exact lasts_expressionStatement hg hc hfuel c'

/-! ### Declarations -/

theorem lasts_namedRoutine (kind : RoutineKind) (hc : c.rest.length ≤ k)
    (hfuel : c.rest.length ≤ fuel) : Lasts (namedRoutine g fuel kind) c := by
  unfold namedRoutine
  refine lasts_bind_shorter (lasts_identifier _) fun name c₁ h₁ => ?_
  refine lasts_bind (lasts_symbol _) fun _ c₂ h₂ => ?_
  exact lasts_bind (lasts_routine hg _ (by omega) (by omega)) fun r c₃ _ => lasts_pure _

theorem lasts_methodsFrom (done : List Method) (hc : c.rest.length ≤ k)
    (hfuel : c.rest.length < fuel) : Lasts (methodsFrom g fuel done) c := by
  induction fuel generalizing done c with
  | zero => omega
  | succ fuel ih =>
    have hmethod : Lasts (namedRoutine g fuel .method >>= fun m =>
        methodsFrom g fuel (m :: done)) c := by
      refine lasts_bind_shorter (lasts_namedRoutine hg _ hc (by omega)) fun m c₁ h₁ => ?_
      exact ih _ (by omega) (by omega)
    rw [methodsFrom]
    refine lasts_looksAt (fun _ => ?_) fun _ => ?_
    · exact lasts_looksAt (fun _ => lasts_pure _) fun _ => lasts_pure _
    · exact lasts_looksAt (fun _ => lasts_pure _) fun _ => hmethod

theorem lasts_strictDeclaration (hc : c.rest.length ≤ k) (hfuel : k < fuel) :
    Lasts (strictDeclaration g fuel) c := by
  intro c'
  unfold strictDeclaration
  split
  · have hclass : Lasts (classDeclaration g fuel) c := by
      rw [classDeclaration_eq]
      refine lasts_bind (lasts_of_ok rfl) fun _ c₁ h₁ => ?_
      refine lasts_bind (lasts_identifier _) fun name c₂ h₂ => ?_
      have hsuperclass : Lasts (following (.symbol .less) (identifier .superclass >>= fresh)) c₂ :=
        lasts_following (by rintro ⟨⟩) fun c₃ _ =>
          lasts_bind (lasts_identifier _) fun _ _ _ => lasts_fresh _
      refine lasts_bind hsuperclass fun superclass c₃ h₃ => ?_
      refine lasts_bind (lasts_symbol _) fun _ c₄ h₄ => ?_
      refine lasts_bind (lasts_methodsFrom hg [] (by omega) (by omega)) fun members c₅ _ => ?_
      exact lasts_bind (lasts_symbol _) fun _ c₆ _ => lasts_pure _
    exact hclass c'
  · exact lasts_varDeclaration hg hc hfuel c'
  · split
    · have hfunction : Lasts (functionDeclaration g fuel) c := by
        unfold functionDeclaration
        refine lasts_bind (lasts_of_ok rfl) fun _ c₁ h₁ => ?_
        exact lasts_bind (lasts_namedRoutine hg _ (by omega) (by omega)) fun m c₂ _ => lasts_pure _
      exact hfunction c'
    · exact lasts_statement hg hc hfuel c'
  · exact lasts_statement hg hc hfuel c'

theorem lasts_declaration (hc : c.rest.length ≤ k) (hfuel : k < fuel) :
    Lasts (declaration g fuel) c := by
  intro c' hc'
  unfold declaration at hc'
  cases hend : strictDeclaration g fuel c with
  | ok s c₁ => simp [hend] at hc'
  | error stop c₁ =>
    cases stop with
    | fault d => simp [hend] at hc'
    | exhausted => exact lasts_strictDeclaration hg hc hfuel c₁ hend

end Rules

/-! ## The grammar -/

theorem ample_grammar (fuel : Nat) : Ample (grammar fuel) fuel := by
  induction fuel with
  | zero => exact ⟨fun n c hc => absurd hc (Nat.not_lt_zero _), fun c s c' _ h => by cases h⟩
  | succ fuel ih =>
    refine ⟨fun n c hc => ?_, fun c s c' hopen h => shorter_declaration hopen h⟩
    have hle : c.rest.length ≤ fuel := Nat.le_of_lt_succ hc
    have hfuel : fuel < fuel + 1 := Nat.lt_succ_self fuel
    cases n with
    | expression => exact lasts_expression ih hle hfuel
    | assignment => exact lasts_assignment ih hle hfuel
    | conditional => exact lasts_conditional ih hle hfuel
    | unary => exact lasts_unary ih hle hfuel
    | statement => exact lasts_statement ih hle hfuel
    | declaration => exact lasts_declaration ih hle hfuel

/-! ## Programs -/

/-- An attempt to read an expression does not run out of fuel, and if it fails nothing has been
read. -/
theorem speculation_cases (mode : Mode) {fuel : Nat} {c : Cursor} (hc : c.rest.length < fuel) :
    (∃ e c', speculation mode fuel c = .ok (some e) c') ∨
      ∃ n, speculation mode fuel c = .ok none { c with nextRef := n } := by
  cases mode with
  | script => exact .inr ⟨c.nextRef, rfl⟩
  | interactive =>
    obtain ⟨e, c', hact, -⟩ | ⟨n, -, hact⟩ | ⟨c', -, hend⟩ := trailing_cases fuel c
    · exact .inl ⟨e, c', hact⟩
    · exact .inr ⟨n, hact⟩
    · exact absurd hend ((ample_grammar fuel).lasts .expression c hc c')

/-- Nothing stops a declaration but a want of fuel. -/
theorem declaration_error {g : Grammar} {fuel : Nat} {c c' : Cursor} {stop : Stop}
    (h : declaration g fuel c = .error stop c') : stop = .exhausted := by
  unfold declaration at h
  split at h <;> cases h
  rfl

theorem declaration_ok {fuel : Nat} {c : Cursor} (hc : c.rest.length < fuel) :
    ∃ s c', (grammar fuel .declaration : Parser (Option Stmt)) c = .ok s c' := by
  cases hend : (grammar fuel .declaration : Parser (Option Stmt)) c with
  | ok s c' => exact ⟨s, c', rfl⟩
  | error stop c' =>
    have hlasts := (ample_grammar fuel).lasts .declaration c hc c'
    cases fuel with
    | zero => omega
    | succ fuel =>
      cases declaration_error hend
      exact absurd hend hlasts

theorem programFrom_ok {mode : Mode} {fuel rounds : Nat} {c : Cursor} (done : List Stmt)
    (hc : c.rest.length < fuel) (hrounds : c.rest.length < rounds) :
    ∃ p c', programFrom mode fuel rounds done c = .ok p c' := by
  induction rounds generalizing done c with
  | zero => omega
  | succ rounds ih =>
    by_cases hend : c.atEnd
    · exact ⟨⟨done.reverse, none⟩, c, programFrom_atEnd mode rounds done hend⟩
    rw [programFrom_succ mode rounds done hend]
    obtain ⟨e, c₁, hact⟩ | ⟨n, hact⟩ := speculation_cases mode hc
    · rw [bind_of_ok hact]
      exact ⟨⟨done.reverse, some e⟩, c₁, rfl⟩
    · rw [bind_of_ok hact]
      -- what is left does not start at the end, so the declaration reads something
      let c₁ : Cursor := { c with nextRef := n }
      have hc₁ : c₁.rest.length < fuel := hc
      obtain ⟨s, c₂, hdeclaration⟩ := declaration_ok hc₁
      have hshorter := (ample_grammar fuel).advances c₁ s c₂ hend hdeclaration
      change c₂.rest.length < c.rest.length at hshorter
      obtain ⟨p, c₃, hlater⟩ := ih (s.toList ++ done) (c := c₂) (by omega) (by omega)
      refine ⟨p, c₃, ?_⟩
      unfold remainder
      dsimp only
      rw [bind_of_ok hdeclaration]
      exact hlater

theorem program_eq (mode : Mode) (c : Cursor) :
    program mode c = programFrom mode (c.rest.length + 1) (c.rest.length + 1) [] c := rfl

/-- Parsing ends with a program, perhaps after some diagnostics. -/
theorem program_ok (mode : Mode) (c : Cursor) : ∃ p c', program mode c = .ok p c' := by
  rw [program_eq]
  exact programFrom_ok [] (Nat.lt_succ_self _) (Nat.lt_succ_self _)

end ScriptLang.Grammar

namespace ScriptLang

/-- What is not parsed has something wrong with it. -/
theorem Program.parse_complains {tokens : List Token} {mode : Mode} {nextRef : Nat}
    {ds : List Diagnostic} (h : (Program.parse tokens mode nextRef).result = .error ds) :
    ds ≠ [] := by
  obtain ⟨p, c, hprogram⟩ := Grammar.program_ok mode (.start tokens nextRef)
  unfold Program.parse at h
  rw [hprogram] at h
  dsimp only at h
  split at h
  · cases h
  · cases h
    assumption

end ScriptLang
