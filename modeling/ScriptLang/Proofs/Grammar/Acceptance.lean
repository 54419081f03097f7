import ScriptLang.Proofs.Grammar.Grammatical
import ScriptLang.Proofs.Grammar.Rules
import ScriptLang.Proofs.Source.Spelling

/-!
# Accepting words

`Accepts act c good` says what a parser reads if it ends without having reported anything: some
list of tokens without the mark of the end, and a result that is `good` for their words. Since
parsers only move forward, the words of two parsers in a row are the words of both
(`accepts_bind`). A run that reports something is not bound to anything, so what a faulty
declaration drops cannot be missing from a tree that is accepted.

What each nonterminal accepts is said in `Nonterminal.Says`: trees at the level of their place,
with the words that were read. Lists of operands and of items are read one after the other, each
with the word that joins it to those before.

Loops with clauses are left out. Their trees are those of other statements.
-/

namespace ScriptLang.Grammar

variable {α β : Type}

/-! ## Accepting -/

/-- The tokens that are still to be read are exact, and none of them is a `for`. -/
def Cursor.Plain (c : Cursor) : Prop := ∀ t ∈ c.rest, t.Exact ∧ t.kind ≠ .keyword .for

/-- A run that reports nothing reads words for which its result is `good`. The mark of the end
is never among them. -/
def Accepts (act : Parser α) (c : Cursor) (good : α → List Word → Cursor → Prop) : Prop :=
  ∀ a c', act c = .ok a c' → c'.found = c.found →
    ∃ read, c.rest = read ++ c'.rest ∧ (∀ t ∈ read, t.kind ≠ .endOfInput) ∧
      good a (read.map Token.word) c'

section Rules

variable {act : Parser α} {next : α → Parser β} {c : Cursor}
variable {good good' : α → List Word → Cursor → Prop} {after : β → List Word → Cursor → Prop}

theorem Accepts.of_eq {act' : Parser α} (h : Accepts act' c good) (heq : act c = act' c) :
    Accepts act c good := by
  intro a c' hact
  rw [heq] at hact
  exact h a c' hact

theorem Accepts.mono (h : Accepts act c good)
    (hgood : ∀ a ws c', good a ws c' → good' a ws c') : Accepts act c good' := by
  intro a c' hact hfound
  obtain ⟨read, hrest, hend, ha⟩ := h a c' hact hfound
  exact ⟨read, hrest, hend, hgood _ _ _ ha⟩

theorem accepts_pure {a : α} (h : good a [] c) : Accepts (pure a) c good := by
  intro a' c' hact _
  cases hact
  exact ⟨[], rfl, by simp, h⟩

theorem accepts_bind [Steady act] [∀ a, Steady (next a)] (hc : c.Plain)
    (hact : Accepts act c good)
    (hnext : ∀ a ws c', c'.Plain → good a ws c' →
      Accepts (next a) c' fun b ws' c'' => after b (ws ++ ws') c'') :
    Accepts (act >>= next) c after := by
  intro b c₂ h hfound
  obtain ⟨a, c₁, hact₁, hfound₁, hnext₁⟩ := found_eq_of_bind h hfound
  obtain ⟨read, hrest, hend, ha⟩ := hact a c₁ hact₁ hfound₁
  have hc₁ : c₁.Plain := fun t ht => hc t (by rw [hrest]; exact List.mem_append_right _ ht)
  obtain ⟨read', hrest', hend', hb⟩ :=
    hnext a _ c₁ hc₁ ha b c₂ hnext₁ (hfound.trans hfound₁.symm)
  refine ⟨read ++ read', by rw [hrest, hrest', List.append_assoc], fun t ht => ?_, ?_⟩
  · rcases List.mem_append.mp ht with ht | ht
    · exact hend t ht
    · exact hend' t ht
  · rw [List.map_append]
    exact hb

theorem accepts_map {f : α → β} [Steady act] (hc : c.Plain) (hact : Accepts act c good) :
    Accepts (f <$> act) c fun b ws c' => ∃ a, b = f a ∧ good a ws c' := by
  change Accepts (act >>= fun a => pure (f a)) c _
  refine accepts_bind hc hact fun a ws c' _ ha => accepts_pure ⟨a, rfl, ?_⟩
  rw [List.append_nil]
  exact ha

/-- A run that reports something is not bound to anything. -/
theorem accepts_of_report {fault : Diagnostic} {a : α} (hact : act c = .ok a (c.report fault)) :
    Accepts act c good := by
  intro a' c' h hfound
  rw [hact] at h
  cases h
  simp [Cursor.report] at hfound

theorem accepts_of_error {stop : Stop} {c' : Cursor} (hact : act c = .error stop c') :
    Accepts act c good := by
  intro a c'' h
  rw [hact] at h
  cases h

end Rules

/-! ## Single tokens -/

section Tokens

variable {c : Cursor} {good : α → List Word → Cursor → Prop}

theorem Cursor.rest_eq_cons (h : c.kind ≠ .endOfInput) : c.rest = c.next :: c.advance.rest := by
  unfold Cursor.kind Cursor.next at h
  unfold Cursor.next Cursor.advance
  cases hrest : c.rest with
  | nil => simp [hrest, Token.endOfInput] at h
  | cons t rest => rfl

theorem Cursor.Plain.next (hc : c.Plain) (h : c.kind ≠ .endOfInput) :
    c.next.Exact ∧ c.next.kind ≠ .keyword .for := by
  refine hc c.next ?_
  rw [Cursor.rest_eq_cons h]
  exact List.mem_cons_self

/-- Reading one token. -/
theorem accepts_one {act : Parser α} {a : α} (hact : act c = .ok a c.advance)
    (h : c.kind ≠ .endOfInput) (ha : good a [c.next.word] c.advance) : Accepts act c good := by
  intro a' c' hact' _
  rw [hact] at hact'
  cases hact'
  refine ⟨[c.next], Cursor.rest_eq_cons h, fun t ht => ?_, ha⟩
  rw [List.mem_singleton] at ht
  rw [ht]
  exact h

/-- Reading no token. -/
theorem accepts_none {act : Parser α} {a : α} (hact : act c = .ok a c) (ha : good a [] c) :
    Accepts act c good := by
  intro a' c' hact' _
  rw [hact] at hact'
  cases hact'
  exact ⟨[], rfl, by simp, ha⟩

theorem accepts_take (h : c.kind ≠ .endOfInput) :
    Accepts take c fun t ws c' => t = c.next ∧ ws = [c.next.word] ∧ c' = c.advance :=
  accepts_one rfl h ⟨rfl, rfl, rfl⟩

/-- Taking a token before the rest is read. -/
theorem accepts_bind_take {next : Token → Parser β} {after : β → List Word → Cursor → Prop}
    [∀ t, Steady (next t)] (hc : c.Plain) (h : c.kind ≠ .endOfInput)
    (hnext : ∀ c' : Cursor, c'.Plain →
      Accepts (next c.next) c' fun b ws c'' => after b ([c.next.word] ++ ws) c'') :
    Accepts (take >>= next) c after := by
  refine accepts_bind hc (accepts_take h) fun t ws c' hc' ht => ?_
  obtain ⟨rfl, rfl, -⟩ := ht
  exact hnext c' hc'

theorem accepts_peek : Accepts peek c fun _ ws c' => ws = [] ∧ c' = c :=
  accepts_none rfl ⟨rfl, rfl⟩

theorem accepts_looksAt {kind : Kind} :
    Accepts (looksAt kind) c fun here ws c' => ws = [] ∧ (here → c'.kind = kind) :=
  accepts_none rfl ⟨rfl, by simp⟩

theorem accepts_skip {kind : Kind} (hc : c.Plain) (hkind : kind ≠ .endOfInput) :
    Accepts (skip kind) c fun here ws c' =>
      if here then c.next.Exact ∧ c.next.kind = kind ∧ ws = [c.next.word]
      else ws = [] ∧ c'.kind ≠ kind := by
  by_cases h : c.kind = kind
  · have hend : c.kind ≠ .endOfInput := by rw [h]; exact hkind
    refine accepts_one (by rw [skip, if_pos h]) hend ?_
    exact ⟨(hc.next hend).1, h, rfl⟩
  · exact accepts_none (by rw [skip, if_neg h]) (by simpa using h)

theorem accepts_symbol {place : SymbolPlace} (hc : c.Plain) :
    Accepts (symbol place) c fun t ws _ =>
      ws = [place.symbol.word] ∧ t.lexeme.text = String.ofList place.symbol.spelling := by
  by_cases h : c.kind = .symbol place.symbol
  · have hend : c.kind ≠ .endOfInput := by rw [h]; rintro ⟨⟩
    have hexact := (hc.next hend).1
    refine accepts_one (by rw [symbol, if_pos h]) hend ⟨?_, hexact.symbol _ h⟩
    rw [hexact.word_symbol h]
  · exact accepts_of_error (by rw [symbol, if_neg h]; rfl)

theorem accepts_identifier {place : NamePlace} (hc : c.Plain) :
    Accepts (identifier place) c fun name ws _ =>
      IsFree name.text ∧ ws = [.identifier name.text] := by
  by_cases h : c.kind = .identifier
  · have hend : c.kind ≠ .endOfInput := by rw [h]; rintro ⟨⟩
    have hword : c.next.word = .identifier c.next.lexeme.text := by
      have hkind : c.next.kind = .identifier := h
      unfold Token.word
      rw [hkind]
    refine accepts_one (by rw [identifier, if_pos h]) hend ⟨(hc.next hend).1.identifier h, ?_⟩
    rw [hword]
  · exact accepts_of_error (by rw [identifier, if_neg h]; rfl)

theorem accepts_fresh {word : Lexeme} :
    Accepts (fresh word) c fun ref ws _ => ref.word = word ∧ ws = [] := by
  intro ref c' hact _
  cases hact
  exact ⟨[], rfl, by simp, rfl, rfl⟩

/-- What stands behind a token is read with that token. -/
theorem accepts_following {kind : Kind} {act : Parser α} [Steady act] (hc : c.Plain)
    (hkind : kind ≠ .endOfInput) (hact : ∀ c : Cursor, c.Plain → Accepts act c good) :
    Accepts (following kind act) c fun x ws c' => match x with
      | some a => c.next.Exact ∧ c.next.kind = kind ∧
        ∃ ws', ws = c.next.word :: ws' ∧ good a ws' c'
      | none => ws = [] ∧ c'.kind ≠ kind := by
  unfold following
  refine accepts_bind hc (accepts_skip hc hkind) fun here ws c₁ hc₁ hhere => ?_
  cases here with
  | true =>
    obtain ⟨ht, hkind, rfl⟩ := hhere
    refine (accepts_map hc₁ (hact c₁ hc₁)).mono fun x ws' c₂ hx => ?_
    obtain ⟨a, rfl, ha⟩ := hx
    exact ⟨ht, hkind, ws', rfl, ha⟩
  | false =>
    obtain ⟨rfl, hne⟩ := hhere
    exact accepts_pure ⟨rfl, hne⟩

end Tokens

/-! ## What the nonterminals accept -/

/-- An expression at a level, and its words. -/
def Operand (l : Level) (e : Expr) (ws : List Word) : Prop :=
  e.words = ws ∧ l ≤ e.level ∧ e.Grammatical

theorem Operand.mono {l l' : Level} {e : Expr} {ws : List Word} (h : Operand l e ws)
    (hle : l' ≤ l) : Operand l' e ws := ⟨h.1, hle.trans h.2.1, h.2.2⟩

/-- A statement, and its words. -/
def Spoken (s : Stmt) (ws : List Word) : Prop := s.words = ws ∧ s.Grammatical

/-- A statement that is no declaration, its words, and what may not stand behind it. -/
def Stands (s : Stmt) (ws : List Word) (c : Cursor) : Prop :=
  s.words = ws ∧ s.Grammatical ∧ s.isDeclaration = false ∧
    (s.endsOpen → c.kind ≠ .keyword .else)

/-- A tree of a nonterminal, its words, and the position behind it. -/
def Nonterminal.Says : (n : Nonterminal) → n.Tree → List Word → Cursor → Prop
  | .expression, e, ws, _ => Operand .comma e ws
  | .assignment, e, ws, _ => Operand .assignment e ws
  | .conditional, e, ws, _ => Operand .conditional e ws
  | .unary, e, ws, _ => Operand .unary e ws
  | .statement, s, ws, c => Stands s ws c
  | .declaration, s, ws, _ => ∃ s', s = some s' ∧ Spoken s' ws

/-- The parsers of a grammar accept only what the nonterminals say. -/
def Sound (g : Grammar) : Prop := ∀ n c, c.Plain → Accepts (g n) c n.Says

variable {fuel : Nat} {c : Cursor}

/-! ## Lists -/

/-- Two operands of a level are joined to an expression of that level, with the word of the
operator between theirs. The right operand has to be tighter. -/
def Composes (join : Kind → Option (Lexeme → Expr → Expr → Expr)) (l : Level) : Prop :=
  ∀ (t : Token) node, t.Exact → join t.kind = some node → ∀ left right,
    l ≤ left.level → left.Grammatical → l < right.level → right.Grammatical →
    Operand l (node t.lexeme left right) (left.words ++ t.word :: right.words)

theorem composes_rank (rank : Rank) : Composes rank.join rank.level := by
  intro t node ht hnode left right hleft hleft' hright hright'
  obtain ⟨op, hop, hkind, rfl⟩ | ⟨op, hop, hkind, rfl⟩ := Rank.join_eq_some hnode
  · refine ⟨?_, hop.ge, ⟨?_, hleft'⟩, ?_, hright'⟩
    · unfold Token.word
      rw [hkind, Expr.words]
    · rwa [hop]
    · rwa [hop]
  · refine ⟨?_, hop.ge, ⟨?_, hleft'⟩, ?_, hright'⟩
    · unfold Token.word
      rw [hkind, Expr.words]
    · rwa [hop]
    · rwa [hop]

theorem composes_comma : Composes commaJoin .comma := by
  intro t node ht hnode left right _ hleft hright hright'
  unfold commaJoin at hnode
  split at hnode
  · rename_i hkind
    cases hnode
    refine ⟨?_, le_rfl, hleft, hright, hright'⟩
    rw [ht.word_symbol hkind, Expr.words]
  · cases hnode

section Lists

variable {join : Kind → Option (Lexeme → Expr → Expr → Expr)} {operand : Parser Expr}
  [Steady operand] {l : Level}

theorem accepts_chainFrom (hjoin : Composes join l)
    (hjoins : ∀ kind node, join kind = some node → kind ≠ .endOfInput)
    (hoperand : ∀ c : Cursor, c.Plain → Accepts operand c fun e ws _ =>
      e.words = ws ∧ l < e.level ∧ e.Grammatical)
    {left : Expr} (hc : c.Plain) (hlevel : l ≤ left.level) (hleft : left.Grammatical) :
    Accepts (chainFrom join operand fuel left) c fun e ws _ => Operand l e (left.words ++ ws) := by
  induction fuel generalizing left c with
  | zero => exact accepts_of_error rfl
  | succ fuel ih =>
    cases hnode : join c.kind with
    | none =>
      refine accepts_none (chainFrom_none hnode) ⟨?_, hlevel, hleft⟩
      rw [List.append_nil]
    | some node =>
      have hend := hjoins _ _ hnode
      refine Accepts.of_eq ?_ (chainFrom_some hnode)
      refine accepts_bind_take hc hend fun c₁ hc₁ => ?_
      refine accepts_bind hc₁ (hoperand c₁ hc₁) fun right ws c₂ hc₂ hright => ?_
      obtain ⟨rfl, hlevel', hright⟩ := hright
      have hnode' := hjoin c.next node (hc.next hend).1 hnode left right hlevel hleft hlevel' hright
      refine (ih hc₂ hnode'.2.1 hnode'.2.2).mono fun e ws _ he => ?_
      rw [hnode'.1] at he
      simpa using he

theorem accepts_chain (hjoin : Composes join l)
    (hjoins : ∀ kind node, join kind = some node → kind ≠ .endOfInput)
    (hoperand : ∀ c : Cursor, c.Plain → Accepts operand c fun e ws _ =>
      e.words = ws ∧ l < e.level ∧ e.Grammatical) (hc : c.Plain) :
    Accepts (chain join operand fuel) c fun e ws _ => Operand l e ws := by
  unfold chain
  refine accepts_bind hc (hoperand c hc) fun left ws c₁ hc₁ hleft => ?_
  obtain ⟨rfl, hlevel, hleft⟩ := hleft
  exact accepts_chainFrom hjoin hjoins hoperand hc₁ hlevel.le hleft

variable {item : Parser α} [Steady item] {tooMany : GrammarFault} {closing : SymbolPlace}
  {phrase : α → List Word} {good : α → Prop}

/-- Items that were listed already are followed by a comma each. -/
theorem accepts_itemsFrom
    (hitem : ∀ c : Cursor, c.Plain → Accepts item c fun x ws _ => phrase x = ws ∧ good x)
    {listed : List α} (hc : c.Plain) (hlisted : ∀ x ∈ listed, good x) :
    Accepts (itemsFrom tooMany item fuel listed) c fun xs ws _ =>
      xs.length ≤ maxListed ∧ (∀ x ∈ xs, good x) ∧
        commaSeparated (xs.map phrase) =
          (listed.map phrase).flatMap (· ++ [Symbol.comma.word]) ++ ws := by
  induction fuel generalizing listed c with
  | zero => exact accepts_of_error rfl
  | succ fuel ih =>
    rw [itemsFrom_succ]
    by_cases hlength : maxListed ≤ listed.length
    · -- one item too many is reported
      have hreport : Accepts (reportHere tooMany) c fun _ _ _ => False := accepts_of_report rfl
      rw [if_pos hlength]
      exact accepts_bind hc hreport fun _ _ _ _ h => h.elim
    · have hnone : Accepts (pure ()) c fun _ ws _ => ws = [] := accepts_pure rfl
      rw [if_neg hlength]
      refine accepts_bind hc hnone fun _ ws c₁ hc₁ hws => ?_
      subst hws
      refine accepts_bind hc₁ (hitem c₁ hc₁) fun x ws c₂ hc₂ hx => ?_
      obtain ⟨rfl, hx⟩ := hx
      have hall : ∀ y ∈ listed ++ [x], good y := by
        intro y hy
        rcases List.mem_append.mp hy with hy | hy
        · exact hlisted y hy
        · rw [List.mem_singleton] at hy
          rwa [hy]
      refine accepts_bind hc₂ (accepts_skip hc₂ nofun) fun more ws c₃ hc₃ hmore => ?_
      cases more with
      | true =>
        obtain ⟨ht, hkind, rfl⟩ := hmore
        rw [ht.word_symbol hkind]
        refine (ih hc₃ hall).mono fun xs ws _ hxs => ⟨hxs.1, hxs.2.1, ?_⟩
        rw [hxs.2.2]
        simp
      | false =>
        obtain ⟨rfl, -⟩ := hmore
        refine accepts_pure ⟨?_, hall, ?_⟩
        · rw [List.length_append, List.length_singleton]
          omega
        · rw [List.map_append, List.map_singleton, commaSeparated_concat]
          simp

theorem accepts_items
    (hitem : ∀ c : Cursor, c.Plain → Accepts item c fun x ws _ => phrase x = ws ∧ good x)
    (hc : c.Plain) :
    Accepts (items tooMany closing item fuel) c fun xs ws _ =>
      (xs.1.length ≤ maxListed ∧ ∀ x ∈ xs.1, good x) ∧
        xs.2.lexeme.text = String.ofList closing.symbol.spelling ∧
        ws = commaSeparated (xs.1.map phrase) ++ [closing.symbol.word] := by
  have hlisted : Accepts (listedBy tooMany item fuel) c fun xs ws _ =>
      (xs.length ≤ maxListed ∧ ∀ x ∈ xs, good x) ∧ commaSeparated (xs.map phrase) = ws := by
    unfold listedBy
    refine accepts_bind hc accepts_looksAt fun closed ws c₁ hc₁ hclosed => ?_
    obtain ⟨rfl, -⟩ := hclosed
    cases closed with
    | true => exact accepts_pure ⟨⟨Nat.zero_le _, by simp⟩, rfl⟩
    | false =>
      refine (accepts_itemsFrom hitem hc₁ (by simp)).mono fun xs ws _ hxs => ?_
      exact ⟨⟨hxs.1, hxs.2.1⟩, by simpa using hxs.2.2⟩
  rw [items_eq]
  refine accepts_bind hc hlisted fun xs ws c₁ hc₁ hxs => ?_
  obtain ⟨hgood, rfl⟩ := hxs
  refine accepts_bind hc₁ (accepts_symbol hc₁) fun t ws c₂ hc₂ ht => ?_
  obtain ⟨rfl, htext⟩ := ht
  exact accepts_pure ⟨hgood, htext, by rw [List.append_nil]⟩

end Lists

end ScriptLang.Grammar
