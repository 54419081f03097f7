import ScriptLang.Proofs.Grammar.Following
import ScriptLang.Proofs.Grammar.Rules

/-!
# Nothing is read at the end

Where an expression cannot start none is read (`fails_of_not_starts`). So at the end of the input
no parser of a phrase has a result, unless it reports something (`Wants`): an expression needs a
first word, and a statement has an expression or a symbol in it. A declaration that is given up is
reported (`found_ne_of_declaration_none`).
-/

namespace ScriptLang.Grammar

variable {α β : Type}

/-- There is no result at the position. -/
def Fails (act : Parser α) (c : Cursor) : Prop := ∀ a c', act c ≠ .ok a c'

/-- Nothing is left, but perhaps the mark of the end. -/
def Cursor.Spent (c : Cursor) : Prop := c.rest = [] ∨ ∃ t, t.kind = .endOfInput ∧ c.rest = [t]

/-- At the end of the input there is no result, unless something is reported. -/
class Wants (act : Parser α) : Prop where
  reports : ∀ {c a c'}, c.Spent → act c = .ok a c' → c'.found ≠ c.found

namespace Cursor

variable {c c' : Cursor}

theorem Spent.kind (h : c.Spent) : c.kind = .endOfInput := by
  obtain hnil | ⟨t, ht, hone⟩ := h
  · simp [Cursor.kind, Cursor.next, hnil, Token.endOfInput]
  · simpa [Cursor.kind, Cursor.next, hone] using ht

theorem Spent.leads (h : c.Spent) (hleads : c.Leads c') : c'.Spent := by
  have hrest := hleads.rest
  obtain hnil | ⟨t, ht, hone⟩ := h
  · rw [hnil] at hrest
    exact .inl (List.suffix_nil.mp hrest)
  · rw [hone, List.suffix_cons_iff] at hrest
    rcases hrest with hsame | hnil
    · exact .inr ⟨t, ht, hsame⟩
    · exact .inl (List.suffix_nil.mp hnil)

end Cursor

section Combinators

variable {act act' : Parser α} {next : α → Parser β} {c : Cursor}

theorem Fails.of_eq (h : Fails act' c) (heq : act c = act' c) : Fails act c :=
  fun a c' hact => h a c' (heq ▸ hact)

theorem fails_bind (h : Fails act c) : Fails (act >>= next) c := by
  intro b c' hb
  obtain ⟨a, c₁, hact, -⟩ := bind_eq_ok hb
  exact h a c₁ hact

theorem fails_take {next : Token → Parser β} (h : Fails (next c.next) c.advance) :
    Fails (take >>= next) c := h

theorem fails_symbol {place : SymbolPlace} (h : c.kind ≠ .symbol place.symbol) :
    Fails (symbol place) c := by
  intro a c' hact
  unfold symbol at hact
  rw [if_neg h] at hact
  cases hact

theorem fails_identifier {place : NamePlace} (h : c.kind ≠ .identifier) :
    Fails (identifier place) c := by
  intro a c' hact
  unfold identifier at hact
  rw [if_neg h] at hact
  cases hact

theorem wants_of_fails (h : ∀ c : Cursor, c.kind = .endOfInput → Fails act c) : Wants act :=
  ⟨fun hc hact => absurd hact (h _ hc.kind _ _)⟩

instance [Steady act] [∀ a, Steady (next a)] [Wants act] : Wants (act >>= next) := by
  refine ⟨fun hc hb hfound => ?_⟩
  obtain ⟨a, c₁, hact, hsame, -⟩ := found_eq_of_bind hb hfound
  exact Wants.reports hc hact hsame

instance [Steady act] [∀ a, Steady (next a)] [∀ a, Wants (next a)] : Wants (act >>= next) := by
  refine ⟨fun hc hb hfound => ?_⟩
  obtain ⟨a, c₁, hact, hsame, hnext⟩ := found_eq_of_bind hb hfound
  exact Wants.reports (hc.leads (Steady.of_ok hact)) hnext (hfound.trans hsame.symm)

instance (place : SymbolPlace) : Wants (symbol place) :=
  wants_of_fails fun c hc => fails_symbol (by rw [hc]; exact nofun)

instance (place : NamePlace) : Wants (identifier place) :=
  wants_of_fails fun c hc => fails_identifier (by rw [hc]; exact nofun)

end Combinators

/-! ### Where nothing can start -/

section Starts

variable {g : Grammar} {fuel : Nat} {c : Cursor}

/-- An expression that cannot start at the position is not read there. -/
theorem fails_expression (hprimary : Fails (primary g fuel) c) (hop : unaryOp c.kind = none) :
    Fails (expression g fuel) c ∧ Fails (unary g fuel) c := by
  have hunary : Fails (unary g fuel) c := (fails_bind hprimary).of_eq (unary_none hop)
  -- each level starts with the next tighter one
  have hdisjunction : Fails (disjunction g fuel) c :=
    fails_bind (fails_bind (fails_bind (fails_bind (fails_bind (fails_bind hunary)))))
  have hassignment : Fails (assignment g fuel) c := fails_bind (fails_bind hdisjunction)
  exact ⟨fails_bind hassignment, hunary⟩

/-- A function without a name needs its parameters. -/
theorem fails_primary_fun (hfun : c.kind = .keyword .fun)
    (hnext : c.advance.kind ≠ .symbol .leftParen) : Fails (primary g fuel) c :=
  (fails_take (fails_bind (fails_symbol hnext))).of_eq (primary_fun hfun)

theorem fails_primary (h : startsExpression c.kind = false) : Fails (primary g fuel) c := by
  intro e c' he
  unfold primary at he
  split at he <;> rename_i hkind <;> first
    | (rw [hkind] at h; cases h)
    | cases he

theorem fails_of_not_starts (h : startsExpression c.kind = false) :
    Fails (expression g fuel) c ∧ Fails (unary g fuel) c := by
  refine fails_expression (fails_primary h) ?_
  cases hop : unaryOp c.kind with
  | none => rfl
  | some op =>
    unfold unaryOp at hop
    split at hop <;> rename_i hkind <;> first
      | (rw [hkind] at h; cases h)
      | cases hop

end Starts

/-! ### Phrases want more -/

section Phrases

variable {g : Grammar} {fuel : Nat}

instance wants_expression : Wants (expression g fuel) :=
  wants_of_fails fun c hc => (fails_of_not_starts (by rw [hc]; rfl)).1

instance wants_unary : Wants (unary g fuel) :=
  wants_of_fails fun c hc => (fails_of_not_starts (by rw [hc]; rfl)).2

instance wants_statement [∀ n, Steady (g n)] : Wants (statement g fuel) := by
  refine ⟨fun {c s c'} hc hs => ?_⟩
  have hexpression : Wants (expressionStatement g fuel) := by
    unfold expressionStatement
    infer_instance
  unfold statement at hs
  split at hs <;> rename_i hkind <;> rw [hc.kind] at hkind <;> first
    | cases hkind
    | exact Wants.reports hc hs

instance wants_strictDeclaration [∀ n, Steady (g n)] : Wants (strictDeclaration g fuel) := by
  refine ⟨fun {c s c'} hc hs => ?_⟩
  have hstatement : strictDeclaration g fuel c = statement g fuel c := by
    unfold strictDeclaration
    rw [hc.kind]
  exact Wants.reports hc (hstatement ▸ hs)

/-- A declaration that is given up is reported. -/
theorem found_ne_of_declaration_none [∀ n, Steady (g n)] {c c' : Cursor}
    (h : declaration g fuel c = .ok none c') : c'.found ≠ c.found := by
  unfold declaration at h
  cases hend : strictDeclaration g fuel c with
  | ok s c₁ =>
    rw [hend] at h
    cases h
  | error stop c₁ =>
    rw [hend] at h
    cases stop with
    | exhausted => cases h
    | fault d =>
      cases h
      have hfound : c.found <+: c₁.found := (Steady.of_error hend).found
      intro hsame
      have hlength := hfound.length_le
      rw [← hsame] at hlength
      simp only [Cursor.report, List.length_append, List.length_singleton] at hlength
      omega

theorem strictDeclaration_of_some {c c' : Cursor} {s : Stmt}
    (h : declaration g fuel c = .ok (some s) c') : strictDeclaration g fuel c = .ok s c' := by
  unfold declaration at h
  cases hend : strictDeclaration g fuel c with
  | ok s' c₁ =>
    rw [hend] at h
    cases h
    rfl
  | error stop c₁ =>
    rw [hend] at h
    cases stop <;> cases h

end Phrases

end ScriptLang.Grammar
