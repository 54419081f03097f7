import ScriptLang.Proofs.Grammar.Wants

/-!
# Parsing in front of more tokens

A phrase that is read without a fault in front of the end of the input is read in the same way in
front of other tokens, as long as the first of them does not go on with it (`agrees_grammar`). An
expression goes on with an operator or the like (`joiningLevel`), a statement with `else` only.

Two positions go together if the second one has other tokens in place of the end of the input
(`Cursor.Extends`). Before the end both look alike. What is read before something else does not stop
at the end, since nothing is read there (`Wants`). So the other tokens matter only to what
is read last (`Agrees`). More fuel changes nothing.
-/

namespace ScriptLang.Grammar

variable {α β : Type}

/-! ## Positions -/

/-- The kind of the first token. -/
def firstKind (ts : List Token) : Kind := (ts.head?.map (·.kind)).getD .endOfInput

/-- Where the input ends at the first position, other tokens come at the second one. -/
structure Cursor.Extends (tail : List Token) (c d : Cursor) : Prop where
  rest : ∃ ts last, last.kind = .endOfInput ∧ (∀ t ∈ ts, t.kind ≠ .endOfInput) ∧
    c.rest = ts ++ [last] ∧ d.rest = ts ++ tail
  nextRef : d.nextRef = c.nextRef

namespace Cursor

variable {tail : List Token} {c d : Cursor}

theorem kind_eq (c : Cursor) : c.kind = firstKind c.rest := by
  unfold Cursor.kind Cursor.next firstKind
  cases c.rest <;> rfl

theorem secondKind_eq (c : Cursor) : c.secondKind = c.advance.kind := by
  unfold Cursor.secondKind Cursor.kind Cursor.next Cursor.advance
  rcases c.rest with - | ⟨t, - | ⟨t', rest⟩⟩ <;> rfl

/-- The first position is at the end, or both have the same token next. -/
theorem Extends.cases (h : c.Extends tail d) :
    (c.Spent ∧ c.kind = .endOfInput ∧ d.kind = firstKind tail) ∨
      (¬ c.Spent ∧ c.kind ≠ .endOfInput ∧ d.next = c.next ∧ c.advance.Extends tail d.advance) := by
  obtain ⟨⟨ts, last, hlast, hts, hc, hd⟩, hnextRef⟩ := h
  cases ts with
  | nil =>
    have hspent : c.Spent := .inr ⟨last, hlast, hc⟩
    refine .inl ⟨hspent, hspent.kind, ?_⟩
    rw [kind_eq, hd, List.nil_append]
  | cons t ts =>
    have hnext : c.next = t := by simp [Cursor.next, hc]
    have hnext' : d.next = t := by simp [Cursor.next, hd]
    have hkind : c.kind ≠ .endOfInput := by
      rw [Cursor.kind, hnext]
      exact hts t List.mem_cons_self
    refine .inr ⟨fun hspent => hkind hspent.kind, hkind, by rw [hnext, hnext'], ⟨ts, last, hlast,
      fun t' ht' => hts t' (List.mem_cons_of_mem _ ht'), ?_, ?_⟩, hnextRef⟩
    · simp [Cursor.advance, hc]
    · simp [Cursor.advance, hd]

theorem Extends.advance (h : c.Extends tail d) (hkind : c.kind ≠ .endOfInput) :
    d.next = c.next ∧ c.advance.Extends tail d.advance := by
  obtain ⟨-, hend, -⟩ | ⟨-, -, hnext, hadvance⟩ := h.cases
  · exact absurd hend hkind
  · exact ⟨hnext, hadvance⟩

theorem Extends.kind (h : c.Extends tail d) (hspent : ¬ c.Spent) : d.kind = c.kind := by
  obtain ⟨hend, -⟩ | ⟨-, -, hnext, -⟩ := h.cases
  · exact absurd hend hspent
  · rw [Cursor.kind, hnext, Cursor.kind]

end Cursor

/-! ## Parsers that agree -/

/-- What the first parser reads without a fault, the second one reads, too, in front of the other
tokens; if nothing is left, as long as the condition on them holds. -/
def Agrees (tail : List Token) (stops : Prop) (act act' : Parser α) (c d : Cursor) : Prop :=
  c.Extends tail d → ∀ a c', act c = .ok a c' → c'.found = c.found → (c'.Spent → stops) →
    ∃ d', act' d = .ok a d' ∧ c'.Extends tail d' ∧ d'.found = d.found

section Combinators

variable {tail : List Token} {stops stops' : Prop} {act act' act₁ act₁' : Parser α}
  {next next' : α → Parser β} {c d : Cursor}

theorem Agrees.mono (h : Agrees tail stops' act act' c d) (hstops : stops → stops') :
    Agrees tail stops act act' c d :=
  fun hext a c' hact hfound hend => h hext a c' hact hfound fun hspent => hstops (hend hspent)

theorem Agrees.of_eq (h : Agrees tail stops act₁ act₁' c d) (heq : act c = act₁ c)
    (heq' : act' d = act₁' d) : Agrees tail stops act act' c d := by
  intro hext a c' hact hfound hend
  rw [heq'] 
  exact h hext a c' (heq ▸ hact) hfound hend

theorem agrees_pure (a : α) : Agrees tail stops (pure a) (pure a) c d := by
  intro hext a' c' hact _ _
  cases hact
  exact ⟨d, rfl, hext, rfl⟩

theorem agrees_exhausted : Agrees tail stops exhausted act' c d := by
  intro _ a c' hact
  cases hact

/-- What is read last stops where the whole does. -/
theorem agrees_bind [Steady act] [∀ a, Steady (next a)] (hact : Agrees tail stops act act' c d)
    (hnext : ∀ a c₁ d₁, Agrees tail stops (next a) (next' a) c₁ d₁) :
    Agrees tail stops (act >>= next) (act' >>= next') c d := by
  intro hext b c' hb hfound hend
  obtain ⟨a, c₁, ha, hfound₁, hb⟩ := found_eq_of_bind hb hfound
  obtain ⟨d₁, hd₁, hext₁, hsame₁⟩ :=
    hact hext a c₁ ha hfound₁ fun hspent => hend (hspent.leads (Steady.of_ok hb))
  obtain ⟨d', hd', hext', hsame⟩ := hnext a c₁ d₁ hext₁ b c' hb (hfound.trans hfound₁.symm) hend
  refine ⟨d', ?_, hext', hsame.trans hsame₁⟩
  rw [bind_of_ok hd₁, hd']

/-- What is read before something else does not stop at the end. -/
theorem agrees_before [Steady act] [∀ a, Steady (next a)] [∀ a, Wants (next a)]
    (hact : Agrees tail False act act' c d)
    (hnext : ∀ a c₁ d₁, Agrees tail stops (next a) (next' a) c₁ d₁) :
    Agrees tail stops (act >>= next) (act' >>= next') c d := by
  intro hext b c' hb hfound hend
  obtain ⟨a, c₁, ha, hfound₁, hb⟩ := found_eq_of_bind hb hfound
  have hfound' : c'.found = c₁.found := hfound.trans hfound₁.symm
  obtain ⟨d₁, hd₁, hext₁, hsame₁⟩ :=
    hact hext a c₁ ha hfound₁ fun hspent => Wants.reports hspent hb hfound'
  obtain ⟨d', hd', hext', hsame⟩ := hnext a c₁ d₁ hext₁ b c' hb hfound' hend
  refine ⟨d', ?_, hext', hsame.trans hsame₁⟩
  rw [bind_of_ok hd₁, hd']

theorem agrees_map [Steady act] {f : α → β} (hact : Agrees tail stops act act' c d) :
    Agrees tail stops (f <$> act) (f <$> act') c d := by
  change Agrees tail stops (act >>= fun a => pure (f a)) (act' >>= fun a => pure (f a)) c d
  exact agrees_bind hact fun a c₁ d₁ => agrees_pure _

theorem agrees_ite {p : Prop} [Decidable p] (htrue : p → Agrees tail stops act act' c d)
    (hfalse : ¬ p → Agrees tail stops act₁ act₁' c d) :
    Agrees tail stops (if p then act else act₁) (if p then act' else act₁') c d := by
  by_cases h : p
  · rw [if_pos h, if_pos h]
    exact htrue h
  · rw [if_neg h, if_neg h]
    exact hfalse h

/-- A parser that wants more matters only before the end, where both positions look alike. -/
theorem agrees_open [Wants act]
    (h : c.kind ≠ .endOfInput → d.kind = c.kind → Agrees tail stops act act' c d) :
    Agrees tail stops act act' c d := by
  intro hext a c' hact hfound hend
  obtain ⟨hspent, -⟩ | ⟨-, hkind, hnext, -⟩ := hext.cases
  · exact absurd hfound (Wants.reports hspent hact)
  · exact h hkind (by rw [Cursor.kind, hnext, Cursor.kind]) hext a c' hact hfound hend

/-! ### Single tokens -/

theorem agrees_take {next next' : Token → Parser β} (hkind : c.kind ≠ .endOfInput)
    (hnext : ∀ t, Agrees tail stops (next t) (next' t) c.advance d.advance) :
    Agrees tail stops (take >>= next) (take >>= next') c d := by
  intro hext b c' hb hfound hend
  obtain ⟨hsame, hadvance⟩ := hext.advance hkind
  have hd : (take >>= next') d = next' d.next d.advance := rfl
  rw [hd, hsame]
  exact hnext c.next hadvance b c' hb hfound hend

theorem agrees_symbol (place : SymbolPlace) :
    Agrees tail stops (symbol place) (symbol place) c d := by
  intro hext t c' ht _ _
  unfold symbol at ht ⊢
  split at ht
  · rename_i hkind
    cases ht
    obtain ⟨hsame, hadvance⟩ := hext.advance (by rw [hkind]; rintro ⟨⟩)
    have hkind' : d.kind = .symbol place.symbol := by rw [Cursor.kind, hsame, ← Cursor.kind, hkind]
    exact ⟨d.advance, by rw [if_pos hkind', hsame], hadvance, rfl⟩
  · cases ht

theorem agrees_identifier (place : NamePlace) :
    Agrees tail stops (identifier place) (identifier place) c d := by
  intro hext t c' ht _ _
  unfold identifier at ht ⊢
  split at ht
  · rename_i hkind
    cases ht
    obtain ⟨hsame, hadvance⟩ := hext.advance (by rw [hkind]; decide)
    have hkind' : d.kind = .identifier := by rw [Cursor.kind, hsame, ← Cursor.kind, hkind]
    exact ⟨d.advance, by rw [if_pos hkind', hsame], hadvance, rfl⟩
  · cases ht

theorem agrees_fresh (word : Lexeme) : Agrees tail stops (fresh word) (fresh word) c d := by
  intro hext ref c' href _ _
  cases href
  refine ⟨{ d with nextRef := d.nextRef + 1 }, ?_, ⟨hext.rest, ?_⟩, rfl⟩
  · rw [← hext.nextRef]
    rfl
  · exact congrArg (· + 1) hext.nextRef

theorem agrees_peek : Agrees tail False peek peek c d := by
  intro hext t c' ht _ hend
  cases ht
  obtain ⟨hspent, -⟩ | ⟨-, -, hnext, -⟩ := hext.cases
  · exact (hend hspent).elim
  · exact ⟨d, by rw [← hnext]; rfl, hext, rfl⟩

/-- What is reported is a fault. -/
theorem agrees_reportHere {fault : GrammarFault} {act' : Parser Unit} :
    Agrees tail stops (reportHere fault) act' c d := by
  intro _ u c' hu hfound
  cases hu
  have hlength := congrArg List.length hfound
  simp [Cursor.report] at hlength

theorem agrees_reportAt {token : Token} {fault : GrammarFault} {next : Unit → Parser β}
    {act' : Parser β} [∀ u, Steady (next u)] :
    Agrees tail stops (reportAt token fault >>= next) act' c d := by
  intro _ b c' hb hfound
  obtain ⟨u, c₁, hu, hsame, -⟩ := found_eq_of_bind hb hfound
  cases hu
  have hlength := congrArg List.length hsame
  simp [Cursor.report] at hlength

/-! ### Choices -/

/-- If the end is not where it stops, both positions look alike. -/
theorem agrees_inside [Steady act]
    (h : c.kind ≠ .endOfInput → d.kind = c.kind → Agrees tail False act act' c d) :
    Agrees tail False act act' c d := by
  intro hext a c' hact hfound hend
  obtain ⟨hspent, -⟩ | ⟨-, hkind, hnext, -⟩ := hext.cases
  · exact (hend (hspent.leads (Steady.of_ok hact))).elim
  · exact h hkind (by rw [Cursor.kind, hnext, Cursor.kind]) hext a c' hact hfound hend

variable {kind : Kind} {branch branch' : Bool → Parser β}

theorem agrees_looksAt [∀ b, Steady (branch b)]
    (hstops : stops → kind ≠ .endOfInput ∧ firstKind tail ≠ kind)
    (htrue : c.kind = kind → Agrees tail stops (branch true) (branch' true) c d)
    (hfalse : c.kind ≠ kind → Agrees tail stops (branch false) (branch' false) c d) :
    Agrees tail stops (looksAt kind >>= branch) (looksAt kind >>= branch') c d := by
  intro hext b c' hb hfound hend
  have hc : (looksAt kind >>= branch) c = branch (decide (c.kind = kind)) c := rfl
  have hd : (looksAt kind >>= branch') d = branch' (decide (d.kind = kind)) d := rfl
  rw [hc] at hb
  have hsame : d.kind = kind ↔ c.kind = kind := by
    obtain ⟨hspent, hkind, hkind'⟩ | ⟨-, -, hnext, -⟩ := hext.cases
    · obtain ⟨hinput, htail⟩ := hstops (hend (hspent.leads (Steady.of_ok hb)))
      rw [hkind, hkind']
      exact iff_of_false htail (Ne.symm hinput)
    · rw [Cursor.kind, hnext, Cursor.kind]
  rw [hd, decide_eq_decide.mpr hsame]
  by_cases hkind : c.kind = kind
  · rw [decide_eq_true hkind] at hb ⊢
    exact htrue hkind hext b c' hb hfound hend
  · rw [decide_eq_false hkind] at hb ⊢
    exact hfalse hkind hext b c' hb hfound hend

theorem agrees_skip [∀ b, Steady (branch b)] (hkind : kind ≠ .endOfInput)
    (hstops : stops → firstKind tail ≠ kind)
    (htrue : ∀ c d, Agrees tail stops (branch true) (branch' true) c d)
    (hfalse : Agrees tail stops (branch false) (branch' false) c d) :
    Agrees tail stops (skip kind >>= branch) (skip kind >>= branch') c d := by
  intro hext b c' hb hfound hend
  by_cases hhere : c.kind = kind
  · have hskip : skip kind c = .ok true c.advance := if_pos hhere
    obtain ⟨hnext, hadvance⟩ := hext.advance (hhere ▸ hkind)
    have hskip' : skip kind d = .ok true d.advance := by
      refine if_pos ?_
      rw [Cursor.kind, hnext]
      exact hhere
    rw [bind_of_ok hskip] at hb
    rw [bind_of_ok hskip']
    exact htrue _ _ hadvance b c' hb hfound hend
  · have hskip : skip kind c = .ok false c := if_neg hhere
    rw [bind_of_ok hskip] at hb
    have hother : d.kind ≠ kind := by
      obtain ⟨hspent, -, hkind'⟩ | ⟨-, -, hnext, -⟩ := hext.cases
      · rw [hkind']
        exact hstops (hend (hspent.leads (Steady.of_ok hb)))
      · rw [Cursor.kind, hnext]
        exact hhere
    have hskip' : skip kind d = .ok false d := if_neg hother
    rw [bind_of_ok hskip']
    exact hfalse hext b c' hb hfound hend

theorem agrees_following [Steady act] (hkind : kind ≠ .endOfInput)
    (hstops : stops → firstKind tail ≠ kind) (hact : ∀ c d, Agrees tail stops act act' c d) :
    Agrees tail stops (following kind act) (following kind act') c d := by
  unfold following
  exact agrees_skip hkind hstops (fun c d => agrees_map (hact c d)) (agrees_pure _)

end Combinators

/-! ## Lists -/

section Lists

variable {tail : List Token} {stops : Prop} {fuel fuel' : Nat} {c d : Cursor}
  {join : Kind → Option (Lexeme → Expr → Expr → Expr)} {operand operand' : Parser Expr}

theorem agrees_chainFrom [Steady operand] (hend : join .endOfInput = none)
    (hstops : stops → join (firstKind tail) = none) (hle : fuel ≤ fuel')
    (hoperand : ∀ c d, Agrees tail stops operand operand' c d) (left : Expr) :
    Agrees tail stops (chainFrom join operand fuel left) (chainFrom join operand' fuel' left)
      c d := by
  induction fuel generalizing fuel' left c d with
  | zero => exact agrees_exhausted
  | succ fuel ih =>
    obtain ⟨fuel', rfl⟩ : ∃ k, fuel' = k + 1 := ⟨fuel' - 1, by omega⟩
    intro hext e c' he hfound hstop
    cases hnode : join c.kind with
    | none =>
      rw [chainFrom_none hnode] at he
      cases he
      have hnode' : join d.kind = none := by
        obtain ⟨hspent, -, hkind⟩ | ⟨-, -, hnext, -⟩ := hext.cases
        · rw [hkind]
          exact hstops (hstop hspent)
        · rw [Cursor.kind, hnext]
          exact hnode
      exact ⟨d, chainFrom_none hnode', hext, rfl⟩
    | some node =>
      have hkind : c.kind ≠ .endOfInput := by
        intro hkind
        rw [hkind, hend] at hnode
        cases hnode
      have hnode' : join d.kind = some node := by
        rw [Cursor.kind, (hext.advance hkind).1]
        exact hnode
      rw [chainFrom_some hnode] at he
      rw [chainFrom_some hnode']
      have hrest : Agrees tail stops
          (take >>= fun word => operand >>= fun right =>
            chainFrom join operand fuel (node word.lexeme left right))
          (take >>= fun word => operand' >>= fun right =>
            chainFrom join operand' fuel' (node word.lexeme left right)) c d :=
        agrees_take hkind fun word => agrees_bind (hoperand _ _) fun right c₁ d₁ =>
          ih (by omega) _
      exact hrest hext e c' he hfound hstop

theorem agrees_chain [Steady operand] (hend : join .endOfInput = none)
    (hstops : stops → join (firstKind tail) = none) (hle : fuel ≤ fuel')
    (hoperand : ∀ c d, Agrees tail stops operand operand' c d) :
    Agrees tail stops (chain join operand fuel) (chain join operand' fuel') c d := by
  unfold chain
  exact agrees_bind (hoperand c d) fun left c₁ d₁ =>
    agrees_chainFrom hend hstops hle hoperand left

variable {item item' : Parser α} {tooMany : GrammarFault} {closing : SymbolPlace}

theorem agrees_itemsFrom [Steady item] (hle : fuel ≤ fuel')
    (hitem : ∀ c d, Agrees tail False item item' c d) (listed : List α) :
    Agrees tail False (itemsFrom tooMany item fuel listed) (itemsFrom tooMany item' fuel' listed)
      c d := by
  induction fuel generalizing fuel' listed c d with
  | zero => exact agrees_exhausted
  | succ fuel ih =>
    obtain ⟨fuel', rfl⟩ : ∃ k, fuel' = k + 1 := ⟨fuel' - 1, by omega⟩
    rw [itemsFrom_succ, itemsFrom_succ]
    refine agrees_bind (agrees_ite (fun _ => agrees_reportHere) fun _ => agrees_pure _)
      fun _ c₁ d₁ => ?_
    refine agrees_bind (hitem c₁ d₁) fun x c₂ d₂ => ?_
    exact agrees_skip (by decide) False.elim (fun c₃ d₃ => ih (by omega) _) (agrees_pure _)

/-- A list ends with its closing parenthesis, whatever comes next. -/
theorem agrees_items [Steady item] (hle : fuel ≤ fuel')
    (hitem : ∀ c d, Agrees tail False item item' c d) :
    Agrees tail stops (items tooMany closing item fuel) (items tooMany closing item' fuel')
      c d := by
  have hlisted : Agrees tail False (listedBy tooMany item fuel) (listedBy tooMany item' fuel')
      c d :=
    agrees_looksAt False.elim (fun _ => agrees_pure _) fun _ => agrees_itemsFrom hle hitem []
  rw [items_eq, items_eq]
  refine agrees_before hlisted fun listed c₁ d₁ => ?_
  exact agrees_bind (agrees_symbol _) fun close c₂ d₂ => agrees_pure _

end Lists

/-! ## The rules -/

/-- A token of the kind does not go on with a phrase of the nonterminal. -/
def Nonterminal.StopsAt : Nonterminal → Kind → Prop
  | .expression, kind | .assignment, kind | .conditional, kind | .unary, kind =>
    joiningLevel kind = none
  | .statement, kind | .declaration, kind => kind ≠ .keyword .else

instance : (n : Nonterminal) → (kind : Kind) → Decidable (n.StopsAt kind)
  | .expression, kind | .assignment, kind | .conditional, kind | .unary, kind =>
    inferInstanceAs (Decidable (joiningLevel kind = none))
  | .statement, kind | .declaration, kind =>
    inferInstanceAs (Decidable (kind ≠ .keyword .else))

theorem join_of_joiningLevel {rank : Rank} {kind : Kind} (h : joiningLevel kind = none) :
    rank.join kind = none := by
  cases hnode : rank.join kind with
  | none => rfl
  | some node =>
    rw [joiningLevel_of_join hnode] at h
    cases h

theorem commaJoin_of_joiningLevel {kind : Kind} (h : joiningLevel kind = none) :
    commaJoin kind = none := by
  cases hnode : commaJoin kind with
  | none => rfl
  | some node =>
    rw [joiningLevel_of_commaJoin hnode] at h
    cases h

theorem ne_of_joiningLevel {kind kind' : Kind} (h : joiningLevel kind = none)
    (h' : (joiningLevel kind').isSome) : kind ≠ kind' := by
  rintro rfl
  rw [h] at h'
  cases h'

section Rules

variable {g g' : Grammar} [∀ n, Steady (g n)] {tail : List Token}
  {stops : Prop} {fuel fuel' : Nat} {c d : Cursor}
  (hg : ∀ n c d, Agrees tail (n.StopsAt (firstKind tail)) (g n) (g' n) c d)
  (hle : fuel ≤ fuel')

include hg hle

theorem agrees_declarationsFrom (done : List Stmt) :
    Agrees tail False (declarationsFrom g fuel done) (declarationsFrom g' fuel' done) c d := by
  induction fuel generalizing fuel' done c d with
  | zero => exact agrees_exhausted
  | succ fuel ih =>
    obtain ⟨fuel', rfl⟩ : ∃ k, fuel' = k + 1 := ⟨fuel' - 1, by omega⟩
    refine agrees_inside fun hkind hsame => ?_
    have hclosed : d.kind = .symbol .rightBrace ∨ d.atEnd ↔
        c.kind = .symbol .rightBrace ∨ c.atEnd := by
      unfold Cursor.atEnd
      rw [hsame]
    by_cases h : c.kind = .symbol .rightBrace ∨ c.atEnd
    · exact (agrees_pure done.reverse).of_eq (declarationsFrom_closed h)
        (declarationsFrom_closed (hclosed.mpr h))
    · refine Agrees.of_eq ?_ (declarationsFrom_open h) (declarationsFrom_open (mt hclosed.mp h))
      exact agrees_bind ((hg .declaration c d).mono False.elim) fun s c₁ d₁ => ih (by omega) _

theorem agrees_block : Agrees tail stops (block g fuel) (block g' fuel') c d := by
  unfold block
  refine agrees_before (agrees_declarationsFrom hg hle []) fun body c₁ d₁ => ?_
  exact agrees_bind (agrees_symbol _) fun _ c₂ d₂ => agrees_pure _

theorem agrees_routine (kind : RoutineKind) :
    Agrees tail stops (routine g fuel kind) (routine g' fuel' kind) c d := by
  rw [routine_eq, routine_eq]
  refine agrees_bind (agrees_items hle fun c d => agrees_identifier _) fun listed c₁ d₁ => ?_
  refine agrees_bind (agrees_symbol _) fun _ c₂ d₂ => ?_
  exact agrees_bind (agrees_block hg hle) fun body c₃ d₃ => agrees_pure _

/-! ### Expressions -/

theorem agrees_primary : Agrees tail stops (primary g fuel) (primary g' fuel') c d := by
  intro hext e c' he hfound hend
  by_cases hstart : startsExpression c.kind = false
  · exact absurd he (fails_primary hstart e c')
  have hkind : c.kind ≠ .endOfInput := by
    intro hkind
    rw [hkind] at hstart
    exact hstart rfl
  obtain ⟨hnext, hadvance⟩ := hext.advance hkind
  have hsame : d.kind = c.kind := by rw [Cursor.kind, hnext, Cursor.kind]
  unfold primary at he ⊢
  rw [hsame, hnext]
  revert he
  split <;> intro he
  · cases he
    exact ⟨d.advance, rfl, hadvance, rfl⟩
  · cases he
    exact ⟨d.advance, rfl, hadvance, rfl⟩
  · cases he
    exact ⟨d.advance, rfl, hadvance, rfl⟩
  · cases he
    exact ⟨d.advance, rfl, hadvance, rfl⟩
  · cases he
    exact ⟨d.advance, rfl, hadvance, rfl⟩
  · refine agrees_take hkind (fun word => ?_) hext e c' he hfound hend
    exact agrees_bind (agrees_fresh _) fun ref c₁ d₁ => agrees_pure _
  · refine agrees_take hkind (fun word => ?_) hext e c' he hfound hend
    exact agrees_bind (agrees_fresh _) fun ref c₁ d₁ => agrees_pure _
  · refine agrees_take hkind (fun word => ?_) hext e c' he hfound hend
    refine agrees_bind (agrees_symbol _) fun _ c₁ d₁ => ?_
    refine agrees_bind (agrees_identifier _) fun method c₂ d₂ => ?_
    exact agrees_bind (agrees_fresh _) fun ref c₃ d₃ => agrees_pure _
  · refine agrees_take hkind (fun _ => ?_) hext e c' he hfound hend
    refine agrees_bind (agrees_symbol _) fun _ c₁ d₁ => ?_
    exact agrees_bind (agrees_routine hg hle _) fun r c₂ d₂ => agrees_pure _
  · refine agrees_take hkind (fun _ => ?_) hext e c' he hfound hend
    refine agrees_before ((hg .expression _ _).mono False.elim) fun inner c₁ d₁ => ?_
    exact agrees_bind (agrees_symbol _) fun _ c₂ d₂ => agrees_pure _
  · cases he

theorem agrees_suffixesFrom (hstops : stops → joiningLevel (firstKind tail) = none) (e : Expr) :
    Agrees tail stops (suffixesFrom g fuel e) (suffixesFrom g' fuel' e) c d := by
  induction fuel generalizing fuel' e c d with
  | zero => exact agrees_exhausted
  | succ fuel ih =>
    obtain ⟨fuel', rfl⟩ : ∃ k, fuel' = k + 1 := ⟨fuel' - 1, by omega⟩
    rw [suffixesFrom_succ, suffixesFrom_succ]
    refine agrees_skip (by decide) (fun h => ne_of_joiningLevel (hstops h) rfl) (fun c₁ d₁ => ?_) ?_
    · refine agrees_bind (agrees_items (by omega) fun c d => (hg .assignment c d).mono False.elim)
        fun listed c₂ d₂ => ih (by omega) _
    · refine agrees_skip (by decide) (fun h => ne_of_joiningLevel (hstops h) rfl) (fun c₁ d₁ => ?_)
        (agrees_pure e)
      exact agrees_bind (agrees_identifier _) fun property c₂ d₂ => ih (by omega) _

theorem agrees_unary (hstops : stops → joiningLevel (firstKind tail) = none) :
    Agrees tail stops (unary g fuel) (unary g' fuel') c d := by
  refine agrees_open fun hkind hsame => ?_
  cases hop : unaryOp c.kind with
  | none =>
    refine Agrees.of_eq ?_ (unary_none hop) (unary_none (hsame ▸ hop))
    unfold call
    exact agrees_bind (agrees_primary hg hle) fun e c₁ d₁ => agrees_suffixesFrom hg hle hstops e
  | some op =>
    refine Agrees.of_eq ?_ (unary_some hop) (unary_some (hsame ▸ hop))
    refine agrees_take hkind fun word => ?_
    exact agrees_bind ((hg .unary _ _).mono hstops) fun operand c₁ d₁ => agrees_pure _

theorem agrees_disjunction (hstops : stops → joiningLevel (firstKind tail) = none) :
    Agrees tail stops (disjunction g fuel) (disjunction g' fuel') c d := by
  have hjoin (rank : Rank) (h : stops) : rank.join (firstKind tail) = none :=
    join_of_joiningLevel (hstops h)
  have hunary (c d : Cursor) : Agrees tail stops (unary g fuel) (unary g' fuel') c d :=
    agrees_unary hg hle hstops
  have hproduct (c d : Cursor) : Agrees tail stops (product g fuel) (product g' fuel') c d :=
    agrees_chain rfl (hjoin .product) hle hunary
  have hsum (c d : Cursor) : Agrees tail stops (sum g fuel) (sum g' fuel') c d :=
    agrees_chain rfl (hjoin .sum) hle hproduct
  have hcomparison (c d : Cursor) :
      Agrees tail stops (comparison g fuel) (comparison g' fuel') c d :=
    agrees_chain rfl (hjoin .comparison) hle hsum
  have hequality (c d : Cursor) : Agrees tail stops (equality g fuel) (equality g' fuel') c d :=
    agrees_chain rfl (hjoin .equality) hle hcomparison
  have hconjunction (c d : Cursor) :
      Agrees tail stops (conjunction g fuel) (conjunction g' fuel') c d :=
    agrees_chain rfl (hjoin .conjunction) hle hequality
  exact agrees_chain rfl (hjoin .disjunction) hle hconjunction

theorem agrees_conditional (hstops : stops → joiningLevel (firstKind tail) = none) :
    Agrees tail stops (conditional g fuel) (conditional g' fuel') c d := by
  unfold conditional
  refine agrees_bind (agrees_disjunction hg hle hstops) fun condition c₁ d₁ => ?_
  refine agrees_skip (by decide) (fun h => ne_of_joiningLevel (hstops h) rfl) (fun c₂ d₂ => ?_)
    (agrees_pure condition)
  refine agrees_before ((hg .expression c₂ d₂).mono False.elim) fun whenTrue c₃ d₃ => ?_
  refine agrees_bind (agrees_symbol _) fun _ c₄ d₄ => ?_
  exact agrees_bind ((hg .conditional c₄ d₄).mono hstops) fun whenFalse c₅ d₅ => agrees_pure _

theorem agrees_assignment (hstops : stops → joiningLevel (firstKind tail) = none) :
    Agrees tail stops (assignment g fuel) (assignment g' fuel') c d := by
  have hassigned := steady_assigned
  unfold assignment
  refine agrees_bind (agrees_conditional hg hle hstops) fun target c₁ d₁ => ?_
  refine agrees_looksAt (fun h => ⟨by decide, ne_of_joiningLevel (hstops h) rfl⟩) (fun hkind => ?_)
    fun _ => agrees_pure target
  refine agrees_take (by rw [hkind]; decide) fun equals => ?_
  refine agrees_bind ((hg .assignment _ _).mono hstops) fun value c₂ d₂ => ?_
  cases assignTo? target value with
  | some e => exact agrees_pure e
  | none => exact agrees_reportAt

theorem agrees_expression (hstops : stops → joiningLevel (firstKind tail) = none) :
    Agrees tail stops (expression g fuel) (expression g' fuel') c d :=
  agrees_chain rfl (fun h => commaJoin_of_joiningLevel (hstops h)) hle
    fun _ _ => agrees_assignment hg hle hstops

/-! ### Statements -/

theorem agrees_declaratorsFrom (ds : List Declarator) :
    Agrees tail False (declaratorsFrom g fuel ds) (declaratorsFrom g' fuel' ds) c d := by
  induction fuel generalizing fuel' ds c d with
  | zero => exact agrees_exhausted
  | succ fuel ih =>
    obtain ⟨fuel', rfl⟩ : ∃ k, fuel' = k + 1 := ⟨fuel' - 1, by omega⟩
    have hdeclarator (c d : Cursor) : Agrees tail False (declarator g) (declarator g') c d := by
      unfold declarator
      refine agrees_bind (agrees_identifier _) fun name c₁ d₁ => ?_
      refine agrees_bind ?_ fun initializer c₂ d₂ => agrees_pure _
      exact agrees_following (by decide) False.elim fun c d => (hg .assignment c d).mono False.elim
    rw [declaratorsFrom_succ, declaratorsFrom_succ]
    refine agrees_bind agrees_peek fun token c₁ d₁ => ?_
    refine agrees_bind (hdeclarator c₁ d₁) fun x c₂ d₂ => ?_
    refine agrees_bind (agrees_ite (fun _ => agrees_reportAt) fun _ => agrees_pure _)
      fun ds c₃ d₃ => ?_
    exact agrees_skip (by decide) False.elim (fun c₄ d₄ => ih (by omega) ds) (agrees_pure ds)

theorem agrees_varDeclaration (hkind : c.kind ≠ .endOfInput) :
    Agrees tail stops (varDeclaration g fuel) (varDeclaration g' fuel') c d := by
  unfold varDeclaration
  refine agrees_take hkind fun _ => ?_
  refine agrees_before (agrees_declaratorsFrom hg hle []) fun ds c₁ d₁ => ?_
  exact agrees_bind (agrees_symbol _) fun _ c₂ d₂ => agrees_pure _

theorem agrees_expressionStatement :
    Agrees tail stops (expressionStatement g fuel) (expressionStatement g' fuel') c d := by
  unfold expressionStatement
  refine agrees_before (agrees_expression hg hle False.elim) fun e c₁ d₁ => ?_
  exact agrees_bind (agrees_symbol _) fun _ c₂ d₂ => agrees_pure _

omit hle in
theorem agrees_clauseUpTo (s : Symbol) :
    Agrees tail False (clauseUpTo g s) (clauseUpTo g' s) c d := by
  unfold clauseUpTo
  exact agrees_looksAt False.elim (fun _ => agrees_pure none) fun _ =>
    agrees_map ((hg .expression c d).mono False.elim)

theorem agrees_forInitializer :
    Agrees tail False (forInitializer g fuel) (forInitializer g' fuel') c d := by
  unfold forInitializer
  refine agrees_skip (by decide) False.elim (fun c₁ d₁ => agrees_pure none) ?_
  refine agrees_looksAt False.elim (fun hkind => ?_) fun _ => ?_
  · exact agrees_map (agrees_varDeclaration hg hle (by rw [hkind]; decide))
  · exact agrees_map (agrees_expressionStatement hg hle)

theorem agrees_forStatement (hkind : c.kind ≠ .endOfInput)
    (hstops : stops → firstKind tail ≠ .keyword .else) :
    Agrees tail stops (forStatement g fuel) (forStatement g' fuel') c d := by
  unfold forStatement
  refine agrees_take hkind fun _ => ?_
  refine agrees_bind (agrees_symbol _) fun _ c₁ d₁ => ?_
  refine agrees_before (agrees_forInitializer hg hle) fun initializer c₂ d₂ => ?_
  refine agrees_before (agrees_clauseUpTo hg _) fun condition c₃ d₃ => ?_
  refine agrees_bind (agrees_symbol _) fun _ c₄ d₄ => ?_
  refine agrees_before (agrees_clauseUpTo hg _) fun increment c₅ d₅ => ?_
  refine agrees_bind (agrees_symbol _) fun _ c₆ d₆ => ?_
  exact agrees_bind ((hg .statement c₆ d₆).mono hstops) fun body c₇ d₇ => agrees_pure _

omit hle in
theorem agrees_ifStatement (hkind : c.kind ≠ .endOfInput)
    (hstops : stops → firstKind tail ≠ .keyword .else) :
    Agrees tail stops (ifStatement g) (ifStatement g') c d := by
  rw [ifStatement_eq, ifStatement_eq]
  refine agrees_take hkind fun _ => ?_
  refine agrees_bind (agrees_symbol _) fun _ c₁ d₁ => ?_
  refine agrees_before ((hg .expression c₁ d₁).mono False.elim) fun condition c₂ d₂ => ?_
  refine agrees_bind (agrees_symbol _) fun _ c₃ d₃ => ?_
  have hstatement (c d : Cursor) : Agrees tail stops (g .statement) (g' .statement) c d :=
    (hg .statement c d).mono hstops
  refine agrees_bind (hstatement c₃ d₃) fun whenTrue c₄ d₄ => ?_
  have hother (c d : Cursor) : Agrees tail stops (following (.keyword .else) (g .statement))
      (following (.keyword .else) (g' .statement)) c d :=
    agrees_following (by decide) hstops hstatement
  exact agrees_bind (hother c₄ d₄) fun whenFalse c₅ d₅ => agrees_pure _

omit hle in
theorem agrees_whileStatement (hkind : c.kind ≠ .endOfInput)
    (hstops : stops → firstKind tail ≠ .keyword .else) :
    Agrees tail stops (whileStatement g) (whileStatement g') c d := by
  unfold whileStatement
  refine agrees_take hkind fun _ => ?_
  refine agrees_bind (agrees_symbol _) fun _ c₁ d₁ => ?_
  refine agrees_before ((hg .expression c₁ d₁).mono False.elim) fun condition c₂ d₂ => ?_
  refine agrees_bind (agrees_symbol _) fun _ c₃ d₃ => ?_
  exact agrees_bind ((hg .statement c₃ d₃).mono hstops) fun body c₄ d₄ => agrees_pure _

/-- Only a statement that ends in another one can be gone on with. -/
theorem agrees_statement (hstops : stops → firstKind tail ≠ .keyword .else) :
    Agrees tail stops (statement g fuel) (statement g' fuel') c d := by
  refine agrees_open fun hkind hsame => ?_
  unfold statement
  intro hext s c' hs hfound hend
  dsimp only at hs ⊢
  rw [hsame]
  revert hs
  split <;> intro hs
  · refine agrees_take hkind (fun keyword => ?_) hext s c' hs hfound hend
    exact agrees_bind (agrees_symbol _) fun _ c₁ d₁ => agrees_pure _
  · exact agrees_forStatement hg hle hkind hstops hext s c' hs hfound hend
  · exact agrees_ifStatement hg hkind hstops hext s c' hs hfound hend
  · refine agrees_take hkind (fun _ => ?_) hext s c' hs hfound hend
    refine agrees_before ((hg .expression _ _).mono False.elim) fun e c₁ d₁ => ?_
    exact agrees_bind (agrees_symbol _) fun _ c₂ d₂ => agrees_pure _
  · refine agrees_take hkind (fun keyword => ?_) hext s c' hs hfound hend
    refine agrees_before (agrees_clauseUpTo hg _) fun value c₁ d₁ => ?_
    exact agrees_bind (agrees_symbol _) fun _ c₂ d₂ => agrees_pure _
  · exact agrees_whileStatement hg hkind hstops hext s c' hs hfound hend
  · refine agrees_take hkind (fun _ => ?_) hext s c' hs hfound hend
    exact agrees_bind (agrees_block hg hle) fun body c₁ d₁ => agrees_pure _
  · exact agrees_expressionStatement hg hle hext s c' hs hfound hend

/-! ### Declarations -/

theorem agrees_namedRoutine (kind : RoutineKind) :
    Agrees tail stops (namedRoutine g fuel kind) (namedRoutine g' fuel' kind) c d := by
  unfold namedRoutine
  refine agrees_bind (agrees_identifier _) fun name c₁ d₁ => ?_
  refine agrees_bind (agrees_symbol _) fun _ c₂ d₂ => ?_
  exact agrees_bind (agrees_routine hg hle kind) fun r c₃ d₃ => agrees_pure _

theorem agrees_methodsFrom (done : List Method) :
    Agrees tail False (methodsFrom g fuel done) (methodsFrom g' fuel' done) c d := by
  induction fuel generalizing fuel' done c d with
  | zero => exact agrees_exhausted
  | succ fuel ih =>
    obtain ⟨fuel', rfl⟩ : ∃ k, fuel' = k + 1 := ⟨fuel' - 1, by omega⟩
    have hmethod : Agrees tail False
        (namedRoutine g fuel .method >>= fun m => methodsFrom g fuel (m :: done))
        (namedRoutine g' fuel' .method >>= fun m => methodsFrom g' fuel' (m :: done)) c d :=
      agrees_bind (agrees_namedRoutine hg (by omega) .method) fun m c₁ d₁ => ih (by omega) _
    have hmore (closed : Bool) : Agrees tail False
        (looksAt .endOfInput >>= fun ended => if closed || ended then pure done.reverse
          else namedRoutine g fuel .method >>= fun m => methodsFrom g fuel (m :: done))
        (looksAt .endOfInput >>= fun ended => if closed || ended then pure done.reverse
          else namedRoutine g' fuel' .method >>= fun m => methodsFrom g' fuel' (m :: done)) c d :=
      agrees_looksAt False.elim (fun _ => agrees_ite (fun _ => agrees_pure _) fun _ => hmethod)
        fun _ => agrees_ite (fun _ => agrees_pure _) fun _ => hmethod
    rw [methodsFrom, methodsFrom]
    exact agrees_looksAt False.elim (fun _ => hmore true) fun _ => hmore false

theorem agrees_classDeclaration (hkind : c.kind ≠ .endOfInput) :
    Agrees tail stops (classDeclaration g fuel) (classDeclaration g' fuel') c d := by
  have hsuperclass (c d : Cursor) : Agrees tail False (identifier .superclass >>= fresh)
      (identifier .superclass >>= fresh) c d :=
    agrees_bind (agrees_identifier _) fun word c₁ d₁ => agrees_fresh word
  rw [classDeclaration_eq, classDeclaration_eq]
  refine agrees_take hkind fun _ => ?_
  refine agrees_bind (agrees_identifier _) fun name c₁ d₁ => ?_
  refine agrees_before (agrees_following (by decide) False.elim hsuperclass)
    fun superclass c₂ d₂ => ?_
  refine agrees_bind (agrees_symbol _) fun _ c₃ d₃ => ?_
  refine agrees_before (agrees_methodsFrom hg hle []) fun members c₄ d₄ => ?_
  exact agrees_bind (agrees_symbol _) fun _ c₅ d₅ => agrees_pure _

theorem agrees_strictDeclaration (hstops : stops → firstKind tail ≠ .keyword .else) :
    Agrees tail stops (strictDeclaration g fuel) (strictDeclaration g' fuel') c d := by
  refine agrees_open fun hkind hsame => ?_
  intro hext s c' hs hfound hend
  unfold strictDeclaration at hs ⊢
  rw [hsame]
  revert hs
  split <;> intro hs
  · exact agrees_classDeclaration hg hle hkind hext s c' hs hfound hend
  · exact agrees_varDeclaration hg hle hkind hext s c' hs hfound hend
  · next hfun =>
    obtain ⟨-, hadvance⟩ := hext.advance hkind
    by_cases hspent : c.advance.Spent
    · -- nothing more than the word is left, and that is no expression
      have hsecond : c.secondKind = .endOfInput := c.secondKind_eq.trans hspent.kind
      have hparen : c.advance.kind ≠ .symbol .leftParen := by
        rw [hspent.kind]
        decide
      have hfails : Fails (expressionStatement g fuel) c :=
        fails_bind (fails_expression (fails_primary_fun hfun hparen) (by rw [hfun]; rfl)).1
      rw [hsecond, if_neg (by decide)] at hs
      unfold statement at hs
      rw [hfun] at hs
      exact absurd hs (hfails s c')
    · have hsecond : d.secondKind = c.secondKind := by
        rw [d.secondKind_eq, c.secondKind_eq, hadvance.kind hspent]
      rw [hsecond]
      revert hs
      split <;> intro hs
      · refine agrees_take hkind (fun _ => ?_) hext s c' hs hfound hend
        exact agrees_bind (agrees_namedRoutine hg hle _) fun m c₁ d₁ => agrees_pure _
      · exact agrees_statement hg hle hstops hext s c' hs hfound hend
  · exact agrees_statement hg hle hstops hext s c' hs hfound hend

theorem agrees_declaration (hstops : stops → firstKind tail ≠ .keyword .else) :
    Agrees tail stops (declaration g fuel) (declaration g' fuel') c d := by
  intro hext s c' hs hfound hend
  cases s with
  | none => exact absurd hfound (found_ne_of_declaration_none hs)
  | some s =>
    obtain ⟨d', hd', hext', hsame⟩ := agrees_strictDeclaration hg hle hstops hext s c'
      (strictDeclaration_of_some hs) hfound hend
    refine ⟨d', ?_, hext', hsame⟩
    unfold declaration
    rw [hd']

end Rules

/-! ## The grammar -/

/-- **What follows a phrase does not matter, unless it goes on with it.** What is read without a
fault in front of the end of the input is read in the same way in front of other tokens. -/
theorem agrees_grammar {tail : List Token} {fuel fuel' : Nat} (hle : fuel ≤ fuel')
    (n : Nonterminal) (c d : Cursor) :
    Agrees tail (n.StopsAt (firstKind tail)) (grammar fuel n) (grammar fuel' n) c d := by
  induction fuel generalizing fuel' n c d with
  | zero =>
    intro _ a c' hact
    cases n <;> cases hact
  | succ fuel ih =>
    obtain ⟨fuel', rfl⟩ : ∃ k, fuel' = k + 1 := ⟨fuel' - 1, by omega⟩
    have hg (n : Nonterminal) (c d : Cursor) :
        Agrees tail (n.StopsAt (firstKind tail)) (grammar fuel n) (grammar fuel' n) c d :=
      ih (by omega) n c d
    cases n with
    | expression => exact agrees_expression hg hle id
    | assignment => exact agrees_assignment hg hle id
    | conditional => exact agrees_conditional hg hle id
    | unary => exact agrees_unary hg hle id
    | statement => exact agrees_statement hg hle id
    | declaration => exact agrees_declaration hg hle id

end ScriptLang.Grammar
