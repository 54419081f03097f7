import ScriptLang.Proofs.Grammar.Following
import ScriptLang.Proofs.Grammar.Rules
import ScriptLang.Proofs.Program.Erasure

/-!
# Reading given words

`Gives act read rest good` says what a parser does where the words `read` come next and `rest`
behind them: it reads exactly the first, reports nothing, and ends with a result that is `good`.
Nothing but the words matters, neither lines nor numbers. The rules for it follow the way
parsers are built, as those of `Accepts` do in the other direction.

A chain of operators needs a rule of its own. Its tree leans to the left, so the loop that reads
it has already read some of its operands when it comes to the next (`Reaches`).
-/

namespace ScriptLang.Grammar

variable {α β : Type}

/-- The words that are still to be read. -/
def Cursor.words (c : Cursor) : List Word := c.rest.map Token.word

/-- Where the words `read` come next, the parser reads them and stops before `rest`. -/
def Gives (act : Parser α) (read rest : List Word) (good : α → Prop) : Prop :=
  ∀ c : Cursor, c.words = read ++ rest →
    ∃ a c', act c = .ok a c' ∧ c'.words = rest ∧ c'.found = c.found ∧ good a

section Rules

variable {act : Parser α} {next : α → Parser β} {read read' rest : List Word}
variable {good good' : α → Prop} {after : β → Prop}

theorem Gives.mono (h : Gives act read rest good) (hgood : ∀ a, good a → good' a) :
    Gives act read rest good' := by
  intro c hc
  obtain ⟨a, c', hact, hrest, hfound, ha⟩ := h c hc
  exact ⟨a, c', hact, hrest, hfound, hgood a ha⟩

theorem gives_pure {a : α} (h : good a) : Gives (pure a) [] rest good :=
  fun c hc => ⟨a, c, rfl, hc, rfl, h⟩

theorem gives_bind (hact : Gives act read (read' ++ rest) good)
    (hnext : ∀ a, good a → Gives (next a) read' rest after) :
    Gives (act >>= next) (read ++ read') rest after := by
  intro c hc
  rw [List.append_assoc] at hc
  obtain ⟨a, c₁, hact₁, hrest₁, hfound₁, ha⟩ := hact c hc
  obtain ⟨b, c₂, hnext₂, hrest₂, hfound₂, hb⟩ := hnext a ha c₁ hrest₁
  refine ⟨b, c₂, ?_, hrest₂, hfound₂.trans hfound₁, hb⟩
  rw [bind_eq_match, hact₁]
  exact hnext₂

theorem gives_map {f : α → β} (hact : Gives act read rest good) :
    Gives (f <$> act) read rest fun b => ∃ a, b = f a ∧ good a := by
  have h : Gives (act >>= fun a => pure (f a)) (read ++ []) rest fun b => ∃ a, b = f a ∧ good a :=
    gives_bind hact fun a ha => gives_pure ⟨a, rfl, ha⟩
  rw [List.append_nil] at h
  exact h

/-- A parser that does what another one does where these words come next. -/
theorem Gives.of_eq {act' : Parser α} (h : Gives act' read rest good)
    (heq : ∀ c : Cursor, c.words = read ++ rest → act c = act' c) :
    Gives act read rest good := by
  intro c hc
  rw [heq c hc]
  exact h c hc

end Rules

/-! ## Single tokens -/

section Tokens

variable {w : Word} {rest : List Word} {c : Cursor}

theorem Cursor.kind_of_words {ws : List Word} (h : c.words = ws) : c.kind = kindAt ws := by
  subst h
  unfold Cursor.kind Cursor.next Cursor.words kindAt
  cases c.rest with
  | nil => rfl
  | cons t ts => simp

theorem Cursor.secondKind_of_words {w' : Word} (h : c.words = w :: w' :: rest) :
    c.secondKind = w'.kind := by
  unfold Cursor.words at h
  unfold Cursor.secondKind
  match hrest : c.rest with
  | [] => simp [hrest] at h
  | [t] => simp [hrest] at h
  | t :: t' :: ts =>
    simp only [hrest, List.map_cons, List.cons.injEq] at h
    simp [← h.2.1]

theorem Cursor.advance_of_words (h : c.words = w :: rest) :
    c.next.word = w ∧ c.advance.words = rest := by
  unfold Cursor.words at h
  unfold Cursor.next Cursor.advance Cursor.words
  cases hrest : c.rest with
  | nil => simp [hrest] at h
  | cons t ts =>
    simp only [hrest, List.map_cons, List.cons.injEq] at h
    exact h

/-- Reading one token. -/
theorem gives_one {act : Parser α} {good : α → Prop}
    (hact : ∀ c : Cursor, c.kind = w.kind → ∃ a, act c = .ok a c.advance ∧ (c.next.word = w → good a)) :
    Gives act [w] rest good := by
  intro c hc
  have hkind : c.kind = w.kind := Cursor.kind_of_words hc
  obtain ⟨hword, hrest⟩ := Cursor.advance_of_words hc
  obtain ⟨a, heq, ha⟩ := hact c hkind
  exact ⟨a, c.advance, heq, hrest, rfl, ha hword⟩

theorem gives_take : Gives take [w] rest fun t => t.word = w :=
  gives_one fun c _ => ⟨c.next, rfl, id⟩

theorem gives_peek : Gives peek [] rest fun _ => True :=
  fun c hc => ⟨c.next, c, rfl, hc, rfl, trivial⟩

theorem gives_looksAt {kind : Kind} :
    Gives (looksAt kind) [] rest fun here => here = decide (kindAt rest = kind) := by
  intro c hc
  refine ⟨_, c, rfl, hc, rfl, ?_⟩
  rw [Cursor.kind_of_words hc]
  rfl

theorem gives_skip {kind : Kind} (h : w.kind = kind) :
    Gives (skip kind) [w] rest fun here => here = true :=
  gives_one fun _ hkind => ⟨true, if_pos (hkind.trans h), fun _ => rfl⟩

theorem gives_skip_symbol (s : Symbol) :
    Gives (skip (.symbol s)) [s.word] rest fun here => here = true := gives_skip rfl

theorem gives_skip_other {kind : Kind} (h : kindAt rest ≠ kind) :
    Gives (skip kind) [] rest fun here => here = false := by
  intro c hc
  have hkind : c.kind ≠ kind := by
    rw [Cursor.kind_of_words hc]
    exact h
  exact ⟨false, c, if_neg hkind, hc, rfl, rfl⟩

theorem gives_symbol (place : SymbolPlace) {text : String} :
    Gives (symbol place) [Word.symbol place.symbol text] rest fun t => t.lexeme.text = text :=
  gives_one fun c hkind =>
    ⟨c.next, if_pos hkind, fun hword => (Token.of_word_symbol hword).2⟩

theorem gives_identifier (place : NamePlace) {text : String} :
    Gives (identifier place) [Word.identifier text] rest fun name => name.text = text :=
  gives_one fun c hkind =>
    ⟨c.next.lexeme, if_pos hkind, fun hword => (Token.of_word_identifier hword).2⟩

theorem gives_fresh {word : Lexeme} : Gives (fresh word) [] rest fun ref => ref.word = word :=
  fun c hc => ⟨⟨c.nextRef, word⟩, { c with nextRef := c.nextRef + 1 }, rfl, hc, rfl, rfl⟩

theorem gives_following {kind : Kind} {act : Parser α} {read : List Word} {good : α → Prop}
    (h : w.kind = kind) (hact : Gives act read rest good) :
    Gives (following kind act) (w :: read) rest fun x => ∃ a, x = some a ∧ good a := by
  refine gives_bind (gives_skip h) fun here hhere => ?_
  subst hhere
  exact gives_map hact

theorem gives_following_other {kind : Kind} {act : Parser α} (h : kindAt rest ≠ kind) :
    Gives (following kind act) [] rest fun x => x = none := by
  change Gives (following kind act) ([] ++ []) rest _
  refine gives_bind (gives_skip_other h) fun here hhere => ?_
  subst hhere
  exact gives_pure rfl

end Tokens

/-! ## Loops over operands -/

/-- Where the words of an expression come next, a parser comes to a loop that has read all of
them. The loop has more fuel than there are words left. -/
def Reaches (act : Parser Expr) (loop : Nat → Expr → Parser Expr) (e : Expr)
    (rest : List Word) : Prop :=
  ∀ c : Cursor, c.words = e.words ++ rest → ∃ left fuel c', act c = loop fuel left c' ∧
    c'.words = rest ∧ c'.found = c.found ∧ left.erase = e.erase ∧ rest.length < fuel

section Loops

variable {act : Parser Expr} {loop : Nat → Expr → Parser Expr} {e left : Expr}
variable {ws rest : List Word} {fuel : Nat}

theorem reaches_first {operand : Parser Expr}
    (h : Gives operand e.words rest fun e' => e'.erase = e.erase) (hfuel : rest.length < fuel) :
    Reaches (operand >>= loop fuel) loop e rest := by
  intro c hc
  obtain ⟨e', c', hact, hrest, hfound, he⟩ := h c hc
  refine ⟨e', fuel, c', ?_, hrest, hfound, he, hfuel⟩
  rw [bind_eq_match, hact]

/-- One round of the loop reads on from a part of the expression. -/
theorem Reaches.round (h : Reaches act loop left (ws ++ rest)) (hwords : e.words = left.words ++ ws)
    (hround : ∀ fuel left' (c : Cursor), c.words = ws ++ rest → left'.erase = left.erase →
      (ws ++ rest).length < fuel →
      ∃ e' fuel' c', loop fuel left' c = loop fuel' e' c' ∧ c'.words = rest ∧
        c'.found = c.found ∧ e'.erase = e.erase ∧ rest.length < fuel') :
    Reaches act loop e rest := by
  intro c hc
  rw [hwords, List.append_assoc] at hc
  obtain ⟨left', fuel₁, c₁, hact, hrest, hfound, hleft, hfuel⟩ := h c hc
  obtain ⟨e', fuel₂, c₂, hloop, hrest', hfound', he', hfuel'⟩ :=
    hround fuel₁ left' c₁ hrest hleft hfuel
  exact ⟨e', fuel₂, c₂, hact.trans hloop, hrest', hfound'.trans hfound, he', hfuel'⟩

/-- A loop that stops has read the expression. -/
theorem Reaches.gives (h : Reaches act loop e rest)
    (hstop : ∀ fuel e' (c : Cursor), c.words = rest → rest.length < fuel →
      loop fuel e' c = .ok e' c) :
    Gives act e.words rest fun e' => e'.erase = e.erase := by
  intro c hc
  obtain ⟨e', fuel, c', hact, hrest, hfound, he', hfuel⟩ := h c hc
  exact ⟨e', c', hact.trans (hstop fuel e' c' hrest hfuel), hrest, hfound, he'⟩

end Loops

/-! ## Chains -/

/-- An expression that is joined from two operands by a word between them. -/
structure Splits (join : Kind → Option (Lexeme → Expr → Expr → Expr)) (l : Level)
    (e left right : Expr) (w : Word) (node : Lexeme → Expr → Expr → Expr) : Prop where
  joined : join w.kind = some node
  words : e.words = left.words ++ w :: right.words
  atLevel : l ≤ left.level ∧ left.Grammatical
  tighter : l < right.level ∧ right.Grammatical
  alike : ∀ t : Token, t.word = w → ∀ left' right', left'.erase = left.erase →
    right'.erase = right.erase → (node t.lexeme left' right').erase = e.erase

/-- The expressions of a level are those of tighter levels, and those that `join` makes. -/
def Decomposes (join : Kind → Option (Lexeme → Expr → Expr → Expr)) (l : Level) : Prop :=
  ∀ e : Expr, l ≤ e.level → e.Grammatical →
    l < e.level ∨ ∃ left right w node, Splits join l e left right w node

theorem decomposes_rank (rank : Rank) : Decomposes rank.join rank.level := by
  intro e hle he
  rcases hle.lt_or_eq with hlt | heq
  · exact .inl hlt
  refine .inr ?_
  -- only an operator is at the level of a rank
  cases e with
  | binary op sign left right =>
    have hop : op.level = rank.level := heq.symm
    refine ⟨left, right, .symbol op.symbol sign.text, .binary op, Rank.join_binary hop, rfl,
      ⟨hop.ge.trans he.1.1, he.1.2⟩, ⟨hop.ge.trans_lt he.2.1, he.2.2⟩, ?_⟩
    intro t ht left' right' hleft hright
    have htext := Lexeme.erase_eq_iff.mpr (Token.of_word_symbol ht).2
    rw [Expr.erase, Expr.erase, hleft, hright, htext]
  | logical op sign left right =>
    have hop : op.level = rank.level := heq.symm
    refine ⟨left, right, .keyword op.keyword sign.text, .logical op, Rank.join_logical hop, rfl,
      ⟨hop.ge.trans he.1.1, he.1.2⟩, ⟨hop.ge.trans_lt he.2.1, he.2.2⟩, ?_⟩
    intro t ht left' right' hleft hright
    have htext := Lexeme.erase_eq_iff.mpr (Token.of_word_keyword ht).2
    rw [Expr.erase, Expr.erase, hleft, hright, htext]
  | _ => cases rank <;> cases heq

theorem decomposes_comma : Decomposes commaJoin .comma := by
  intro e hle he
  rcases hle.lt_or_eq with hlt | heq
  · exact .inl hlt
  refine .inr ?_
  cases e with
  | comma left right =>
    refine ⟨left, right, Symbol.comma.word, fun _ => .comma, rfl, rfl,
      ⟨Level.comma_le _, he.1⟩, he.2, ?_⟩
    intro t _ left' right' hleft hright
    rw [Expr.erase, Expr.erase, hleft, hright]
  | binary op sign left right => cases op <;> cases heq
  | logical op sign left right => cases op <;> cases heq
  | _ => cases heq

section Chains

variable {join : Kind → Option (Lexeme → Expr → Expr → Expr)} {operand : Parser Expr}
  {l : Level} {fuel k : Nat}

/-- A chain of operators is read from the left, whatever joins its operands. The induction is
on how much there is to read. -/
theorem reaches_chain (hsplit : Decomposes join l)
    (hjoins : ∀ kind node, join kind = some node → joiningLevel kind = some l)
    (hoperand : ∀ (e : Expr) rest, l < e.level → e.Grammatical →
      (∀ l', joiningLevel (kindAt rest) = some l' → l' ≤ l) → (e.words ++ rest).length ≤ k →
      Gives operand e.words rest fun e' => e'.erase = e.erase)
    {e : Expr} {rest : List Word} (hle : l ≤ e.level) (he : e.Grammatical)
    (hrest : ∀ l', joiningLevel (kindAt rest) = some l' → l' ≤ l)
    (hlength : (e.words ++ rest).length ≤ k) (hfuel : k < fuel) :
    Reaches (chain join operand fuel) (chainFrom join operand) e rest := by
  induction hn : e.words.length using Nat.strongRecOn generalizing e rest with
  | ind n ih =>
    obtain hlt | ⟨left, right, w, node, h⟩ := hsplit e hle he
    · refine reaches_first (hoperand e rest hlt he hrest hlength) ?_
      rw [List.length_append] at hlength
      omega
    · have hwords := h.words
      rw [hwords, List.append_assoc] at hlength
      have hshorter : left.words.length < n := by
        rw [← hn, hwords, List.length_append, List.length_cons]
        omega
      have hw : joiningLevel w.kind = some l := hjoins _ _ h.joined
      have hleft : Reaches (chain join operand fuel) (chainFrom join operand) left
          (w :: right.words ++ rest) := by
        refine ih _ hshorter h.atLevel.1 h.atLevel.2 (fun l' hl' => ?_) hlength rfl
        rw [List.cons_append, kindAt_cons, hw] at hl'
        exact (Option.some.inj hl').ge
      refine hleft.round hwords fun fuel₁ left' c hc hleft' hfuel₁ => ?_
      obtain ⟨hnext, hadvance⟩ := Cursor.advance_of_words hc
      have hkind : c.kind = w.kind := Cursor.kind_of_words hc
      have hlength' : (right.words ++ rest).length ≤ k := by
        simp only [List.length_append, List.length_cons] at hlength ⊢
        omega
      obtain ⟨right', c₂, hact, hrest', hfound, hright'⟩ :=
        hoperand right rest h.tighter.1 h.tighter.2 hrest hlength' c.advance hadvance
      cases fuel₁ with
      | zero => omega
      | succ fuel₁ =>
        refine ⟨node c.next.lexeme left' right', fuel₁, c₂, ?_, hrest', hfound,
          h.alike c.next hnext left' right' hleft' hright', ?_⟩
        · have hjoin : join c.kind = some node := by
            rw [hkind]
            exact h.joined
          rw [chainFrom_some hjoin]
          change (operand >>= fun right => chainFrom join operand fuel₁
            (node c.next.lexeme left' right)) c.advance = _
          rw [bind_eq_match, hact]
        · simp only [List.length_append, List.length_cons] at hfuel₁
          omega

/-- A chain is read to its end if what follows joins at a looser level. -/
theorem gives_chain (hsplit : Decomposes join l)
    (hjoins : ∀ kind node, join kind = some node → joiningLevel kind = some l)
    (hoperand : ∀ (e : Expr) rest, l < e.level → e.Grammatical →
      (∀ l', joiningLevel (kindAt rest) = some l' → l' ≤ l) → (e.words ++ rest).length ≤ k →
      Gives operand e.words rest fun e' => e'.erase = e.erase)
    {e : Expr} {rest : List Word} (hle : l ≤ e.level) (he : e.Grammatical) (hrest : Stops l rest)
    (hlength : (e.words ++ rest).length ≤ k) (hfuel : k < fuel) :
    Gives (chain join operand fuel) e.words rest fun e' => e'.erase = e.erase := by
  have hreaches := reaches_chain hsplit hjoins hoperand hle he (fun l' hl' => (hrest l' hl').le)
    hlength hfuel
  refine hreaches.gives fun fuel₁ e' c hc hfuel₁ => ?_
  cases fuel₁ with
  | zero => omega
  | succ fuel₁ =>
    refine chainFrom_none ?_
    rw [Cursor.kind_of_words hc]
    cases hnode : join (kindAt rest) with
    | none => rfl
    | some node => exact absurd (hrest l (hjoins _ _ hnode)) (lt_irrefl l)

end Chains

/-! ## Lists -/

section Lists

variable {item : Parser α} {tooMany : GrammarFault} {closing : SymbolPlace}
  {phrase : α → List Word} {alike : α → α} {rest : List Word} {fuel k : Nat}

theorem length_le_commaSeparated (phrases : List (List Word)) :
    phrases.length ≤ (commaSeparated phrases).length + 1 := by
  induction phrases with
  | nil => exact Nat.zero_le _
  | cons first phrases ih =>
    cases phrases with
    | nil => simp
    | cons second phrases =>
      rw [commaSeparated_cons_cons]
      simp only [List.length_append, List.length_cons] at ih ⊢
      omega

/-- The items that are left, each read up to the comma behind it. -/
theorem gives_itemsFrom {xs done : List α}
    (hitem : ∀ x ∈ xs, ∀ rest', kindAt rest' = .symbol .comma ∨ kindAt rest' = kindAt rest →
      (phrase x ++ rest').length ≤ k →
      Gives item (phrase x) rest' fun y => alike y = alike x)
    (hxs : xs ≠ []) (hmost : done.length + xs.length ≤ maxListed)
    (hrest : kindAt rest ≠ .symbol .comma)
    (hlength : (commaSeparated (xs.map phrase) ++ rest).length ≤ k) (hfuel : xs.length ≤ fuel) :
    Gives (itemsFrom tooMany item fuel done) (commaSeparated (xs.map phrase)) rest
      fun ys => ys.map alike = done.map alike ++ xs.map alike := by
  induction xs generalizing done fuel with
  | nil => exact absurd rfl hxs
  | cons x xs ih =>
    cases fuel with
    | zero => simp at hfuel
    | succ fuel =>
      rw [List.length_cons] at hmost hfuel
      have hfew : ¬ maxListed ≤ done.length := by omega
      rw [itemsFrom_succ, if_neg hfew, pure_bind]
      cases xs with
      | nil =>
        have hx := hitem x List.mem_cons_self rest (.inr rfl) hlength
        have hread : phrase x = phrase x ++ ([] ++ []) := by simp
        change Gives _ (phrase x) rest _
        rw [hread]
        refine gives_bind hx fun y hy => ?_
        refine gives_bind (gives_skip_other hrest) fun more hmore => ?_
        subst hmore
        exact gives_pure (by simp [hy])
      | cons x' xs =>
        rw [List.map_cons, List.map_cons, commaSeparated_cons_cons] at hlength ⊢
        rw [List.append_assoc] at hlength
        have hx := hitem x List.mem_cons_self _ (.inl rfl) hlength
        refine gives_bind hx fun y hy => ?_
        change Gives _ ([Symbol.comma.word] ++ commaSeparated ((x' :: xs).map phrase)) rest _
        refine gives_bind (gives_skip rfl) fun more hmore => ?_
        subst hmore
        have hmost' : (done ++ [y]).length + (x' :: xs).length ≤ maxListed := by
          rw [List.length_append, List.length_singleton]
          omega
        have hlength' : (commaSeparated ((x' :: xs).map phrase) ++ rest).length ≤ k := by
          simp only [List.map_cons, List.length_append, List.length_cons] at hlength ⊢
          omega
        have hlater := ih (fun z hz => hitem z (List.mem_cons_of_mem x hz))
          (List.cons_ne_nil x' xs) hmost' hlength' (Nat.le_of_succ_le_succ hfuel)
        refine hlater.mono fun ys hys => ?_
        rw [hys]
        simp [hy]

/-- Items up to the closing parenthesis. -/
theorem gives_items {xs : List α} {text : String}
    (hitem : ∀ x ∈ xs, ∀ rest', kindAt rest' = .symbol .comma ∨ kindAt rest' = .symbol .rightParen →
      (phrase x ++ rest').length ≤ k →
      Gives item (phrase x) rest' fun y => alike y = alike x)
    (hopen : ∀ x ∈ xs, ∀ rest', kindAt (phrase x ++ rest') ≠ .symbol .rightParen)
    (hmost : xs.length ≤ maxListed) (hclosing : closing.symbol = .rightParen)
    (hlength : (commaSeparated (xs.map phrase) ++ .symbol .rightParen text :: rest).length ≤ k)
    (hfuel : k < fuel) :
    Gives (items tooMany closing item fuel)
      (commaSeparated (xs.map phrase) ++ [Word.symbol .rightParen text]) rest
      fun ys => ys.1.map alike = xs.map alike ∧ ys.2.lexeme.text = text := by
  have hlisted : Gives (listedBy tooMany item fuel) (commaSeparated (xs.map phrase))
      (.symbol .rightParen text :: rest) fun ys => ys.map alike = xs.map alike := by
    change Gives _ ([] ++ commaSeparated (xs.map phrase)) _ _
    unfold listedBy
    refine gives_bind gives_looksAt fun closed hclosed => ?_
    subst hclosed
    cases xs with
    | nil => exact gives_pure rfl
    | cons x xs =>
      have hfirst : kindAt (commaSeparated ((x :: xs).map phrase) ++
          Word.symbol .rightParen text :: rest) ≠ .symbol .rightParen := by
        cases xs with
        | nil => exact hopen x List.mem_cons_self _
        | cons x' xs =>
          rw [List.map_cons, List.map_cons, commaSeparated_cons_cons, List.append_assoc]
          exact hopen x List.mem_cons_self _
      have hcount := length_le_commaSeparated ((x :: xs).map phrase)
      rw [decide_eq_false hfirst, if_neg Bool.false_ne_true]
      simp only [List.length_append, List.length_map, List.length_cons] at hlength hcount
      refine (gives_itemsFrom hitem (List.cons_ne_nil x xs) (by simpa using hmost)
        (by simp [Word.kind]) ?_ ?_).mono fun ys hys => by simpa using hys
      · simp only [List.length_append, List.length_cons]
        omega
      · rw [List.length_cons]
        omega
  rw [items_eq]
  refine gives_bind hlisted fun ys hys => ?_
  have hclose : Gives (symbol closing) [Word.symbol .rightParen text] rest
      fun t => t.lexeme.text = text := by
    rw [← hclosing]
    exact gives_symbol closing
  change Gives _ ([Word.symbol .rightParen text] ++ []) rest _
  refine gives_bind hclose fun t ht => ?_
  exact gives_pure ⟨hys, ht⟩

end Lists

end ScriptLang.Grammar
