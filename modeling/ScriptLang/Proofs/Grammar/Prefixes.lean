import ScriptLang.Proofs.Grammar.Interactive
import ScriptLang.Proofs.Grammar.Rounds

/-!
# What stands behind a correct program

A program without a fault is read in the same rounds whatever stands behind it, as long as that
does not start with `else` (`Course.split`). An attempt at a prompt to read up to the new end fails
while the program is read, since the semicolon or brace of a declaration is no part of an
expression. So what stands behind is read as if it stood alone, up to the numbers of references
(`Course.alike`), and with what is reported there.
-/

namespace ScriptLang.Grammar

/-- The round without numbers. -/
def Round.unnumbered (r : Round) : Round := ⟨r.statement.map Stmt.unnumbered, r.reported⟩

theorem reported_unnumbered (rounds : List Round) :
    (rounds.map Round.unnumbered).flatMap Round.reported = rounds.flatMap Round.reported := by
  rw [List.flatMap_map]
  rfl

theorem statements_unnumbered (rounds : List Round) :
    (rounds.map Round.unnumbered).filterMap Round.statement =
      (rounds.filterMap Round.statement).map Stmt.unnumbered := by
  rw [List.filterMap_map, List.map_filterMap]
  rfl

/-! ## Positions with another number -/

section Alike

variable {n : Nonterminal} {t : n.Tree} {e e' : Option Expr} {c c' c'' : Cursor} {mode : Mode}
  {rounds rounds' : List Round}

theorem Parses.alike (h : Parses grammar n c t c') (k : Nat) :
    ∃ t' k', Parses grammar n { c with nextRef := k } t' { c' with nextRef := k' } ∧
      n.unnumbered t' = n.unnumbered t := by
  obtain ⟨fuel, hread⟩ := h
  obtain ⟨t', k', hread', hsame⟩ := grammar_alike hread k
  exact ⟨t', k', ⟨fuel, hread'⟩, hsame⟩

theorem ReachesEnd.alike {e : Expr} (h : ReachesEnd grammar c e c') (k : Nat) :
    ∃ e' k', ReachesEnd grammar { c with nextRef := k } e' { c' with nextRef := k' } ∧
      e'.unnumbered = e.unnumbered := by
  obtain ⟨hread, hend, hfound⟩ := h
  obtain ⟨e', k', hread', hsame⟩ := hread.alike k
  exact ⟨e', k', ⟨hread', hend, hfound⟩, hsame⟩

/-- Two courses from one place are the same up to numbers. -/
theorem Course.alike {k : Nat} (h : Course grammar mode c rounds e c')
    (h' : Course grammar mode { c with nextRef := k } rounds' e' c'') :
    rounds'.map Round.unnumbered = rounds.map Round.unnumbered ∧
      e'.map Expr.unnumbered = e.map Expr.unnumbered := by
  induction h generalizing k rounds' e' c'' with
  | ended hend =>
    cases h' with
    | ended => exact ⟨rfl, rfl⟩
    | expression _ hopen => exact absurd hend hopen
    | declaration hopen => exact absurd hend hopen
  | @expression c e c' hmode hopen hreaches =>
    obtain ⟨e₁, k', hreaches₁, hsame⟩ := hreaches.alike k
    cases h' with
    | ended hend => exact absurd hend hopen
    | expression _ _ hreaches' =>
      obtain ⟨rfl, rfl⟩ := hreaches'.1.unique hreaches₁.1
      exact ⟨rfl, congrArg some hsame⟩
    | declaration _ _ hattempt => exact absurd hreaches₁ (hattempt hmode _ _)
  | @declaration c k₀ s c₁ ds rounds e c' hopen hscript hattempt hread hreported hrest ih =>
    cases h' with
    | ended hend => exact absurd hend hopen
    | @expression _ e₁ c₂ hmode _ hreaches =>
      obtain ⟨e₂, k', hreaches₂, -⟩ := hreaches.alike c.nextRef
      exact absurd hreaches₂ (hattempt hmode _ _)
    | @declaration _ k₁ s' c₂ ds' _ _ _ _ _ _ hread' hreported' hrest' =>
      obtain ⟨s₁, k', hread₁, hsame⟩ := hread.alike k₁
      obtain ⟨rfl, rfl⟩ := hread'.unique hread₁
      obtain ⟨hrounds, hexpression⟩ := ih hrest'
      have hds : ds' = ds := List.append_cancel_left (hreported'.symm.trans hreported)
      have hround : Round.unnumbered ⟨s', ds'⟩ = Round.unnumbered ⟨s, ds⟩ := by
        unfold Round.unnumbered
        rw [hds]
        exact congrArg (Round.mk · ds) hsame
      refine ⟨?_, hexpression⟩
      rw [List.map_cons, List.map_cons, hround, hrounds]

end Alike

/-! ## Other tokens behind a program -/

section Split

variable {tail : List Token} {mode : Mode} {c c' d d' : Cursor} {rounds all : List Round}
  {e e' : Option Expr}

/-- A declaration that is read without a report in front of the end is read, too, in front of other
tokens, and no expression reaches from its start to the end of these. -/
theorem Parses.extends {s : Option Stmt} (h : Parses grammar .declaration c s c')
    (hfound : c'.found = c.found) (helse : firstKind tail ≠ .keyword .else)
    (hext : { c with nextRef := d.nextRef }.Extends tail d) :
    ∃ s' d', Parses grammar .declaration d s' d' ∧
      s'.map Stmt.unnumbered = s.map Stmt.unnumbered ∧
      { c' with nextRef := d'.nextRef }.Extends tail d' ∧ d'.found = d.found ∧
      ∀ e d₁, ¬ ReachesEnd grammar d e d₁ := by
  obtain ⟨fuel, hread⟩ := h
  obtain ⟨s', d', hread', hsame, hext', hfound'⟩ :=
    grammar_extends (Nat.le_refl fuel) hext hread hfound fun _ => helse
  refine ⟨s', d', ⟨fuel, hread'⟩, hsame, hext', hfound', ?_⟩
  rintro e d₁ ⟨⟨fuel₁, hexpression⟩, hend, -⟩
  -- behind such an expression the declaration would miss its semicolon
  have hkind : d₁.kind = .endOfInput := of_decide_eq_true hend
  have hopen : d₁.kind ≠ .symbol .semicolon := by
    rw [hkind]
    decide
  obtain ⟨x, d₂, hread₂, hreported⟩ := declaration_of_open hexpression hopen
  have hgrows : d.found <+: d₁.found := (Parses.leads ⟨fuel₁, hexpression⟩).found
  obtain ⟨-, rfl⟩ := Parses.unique ⟨fuel, hread'⟩ ⟨fuel₁, hread₂⟩
  have hlength := hgrows.length_le
  rw [← hfound', hreported, List.length_append, List.length_singleton] at hlength
  omega

/-- **Courses split.** Where a whole program is read without a report, and other tokens stand in
place of its end, the rounds of the program come first, up to numbers, and then those of the other
tokens. -/
theorem Course.split (h : Course grammar .script c rounds e c')
    (hclean : rounds.flatMap Round.reported = []) (helse : firstKind tail ≠ .keyword .else)
    (hext : { c with nextRef := d.nextRef }.Extends tail d)
    (h' : Course grammar mode d all e' d') :
    ∃ front back k, all = front ++ back ∧
      front.map Round.unnumbered = rounds.map Round.unnumbered ∧
      Course grammar mode { d with rest := tail, nextRef := k } back e' d' := by
  induction h generalizing d all with
  | ended hend =>
    have hrest : d.rest = tail := hext.rest_of_end hend
    subst hrest
    exact ⟨[], all, d.nextRef, rfl, rfl, h'⟩
  | expression hmode => cases hmode
  | @declaration c k s c₁ ds rounds e c' hopen hscript hattempt hread hreported hrest ih =>
    rw [List.flatMap_cons, List.append_eq_nil_iff] at hclean
    obtain ⟨hnone, hlater⟩ := hclean
    have hds : ds = [] := hnone
    subst hds
    rw [List.append_nil] at hreported
    -- the declaration from `d`, with any number
    have hfirst (k' : Nat) := hread.extends (d := { d with nextRef := k' }) hreported helse
      ⟨hext.rest, rfl⟩
    cases h' with
    | ended hend => exact absurd hend (hext.not_atEnd hopen)
    | expression _ _ hreaches =>
      obtain ⟨-, -, -, -, -, -, hnot⟩ := hfirst d.nextRef
      exact absurd hreaches (hnot _ _)
    | @declaration _ k' s' d₁ ds' _ _ _ _ _ _ hread' hreported' hrest' =>
      obtain ⟨s₁, d₂, hread₁, hsame, hext₁, hfound₁, -⟩ := hfirst k'
      obtain ⟨rfl, rfl⟩ := hread'.unique hread₁
      have hds : ds' = [] := List.append_right_eq_self.mp (hreported'.symm.trans hfound₁)
      subst hds
      obtain ⟨front, back, k₁, rfl, hfront, hback⟩ := ih hlater hext₁ hrest'
      refine ⟨⟨s', []⟩ :: front, back, k₁, rfl, ?_, ?_⟩
      · have hround : Round.unnumbered ⟨s', []⟩ = Round.unnumbered ⟨s, []⟩ :=
          congrArg (Round.mk · []) hsame
        rw [List.map_cons, List.map_cons, hround, hfront]
      · have hline : d₁.lastLine = d.lastLine := hread'.leads.lastLine
        have hnothing : d₁.found = d.found := hfound₁
        rwa [hline, hnothing] at hback

end Split

end ScriptLang.Grammar

namespace ScriptLang

open Grammar

theorem Program.unnumbered_mk (statements : List Stmt) (e : Option Expr) :
    Program.unnumbered ⟨statements, e⟩ =
      ⟨statements.map Stmt.unnumbered, e.map Expr.unnumbered⟩ := by
  change Program.mk (Stmt.relabelAll _ _ statements) _ = _
  rw [Stmt.relabelAll_eq_map]

section Results

variable {front back : List Token} {end₁ end₂ : Token} {mode : Mode}

theorem Grammar.Cursor.lastLine_start (tokens : List Token) (last : Token) (n : Nat) :
    (Cursor.start (tokens ++ [last]) n).lastLine = last.line := by
  unfold Cursor.start
  rw [List.getLast?_concat]
  rfl

/-- The rounds of both parts, behind one another. -/
theorem Program.rounds_of_append (hend₁ : end₁.kind = .endOfInput) (hend₂ : end₂.kind = .endOfInput)
    (hfront : ∀ t ∈ front, t.kind ≠ .endOfInput) (hback : ∀ t ∈ back.head?, t.kind ≠ .keyword .else)
    {n j k : Nat} {rounds rounds₂ all : List Round} {e e₂ e' : Option Expr} {c c₂ c' : Cursor}
    (h : Course grammar .script (.start (front ++ [end₁]) n) rounds e c)
    (hclean : rounds.flatMap Round.reported = [])
    (h₂ : Course grammar mode (.start (back ++ [end₂]) k) rounds₂ e₂ c₂)
    (h' : Course grammar mode (.start (front ++ back ++ [end₂]) j) all e' c') :
    all.map Round.unnumbered = (rounds ++ rounds₂).map Round.unnumbered ∧
      e'.map Expr.unnumbered = e₂.map Expr.unnumbered := by
  have helse : firstKind (back ++ [end₂]) ≠ .keyword .else := by
    cases back with
    | nil =>
      change end₂.kind ≠ _
      rw [hend₂]
      decide
    | cons t back => exact hback t rfl
  have hrest : front ++ back ++ [end₂] = front ++ (back ++ [end₂]) := List.append_assoc _ _ _
  have hext : { Cursor.start (front ++ [end₁]) n with nextRef := j }.Extends (back ++ [end₂])
      (.start (front ++ back ++ [end₂]) j) := ⟨⟨front, end₁, hend₁, hfront, rfl, hrest⟩, rfl⟩
  obtain ⟨first, later, k', rfl, hfirst, hlater⟩ := h.split hclean helse hext h'
  -- what is left is the second part alone, but for the number
  have hstart : { Cursor.start (front ++ back ++ [end₂]) j with
      rest := back ++ [end₂], nextRef := k' } =
        { Cursor.start (back ++ [end₂]) k with nextRef := k' } := by
    dsimp only
    rw [Cursor.lastLine_start, Cursor.lastLine_start]
    rfl
  rw [hstart] at hlater
  obtain ⟨hsecond, hexpression⟩ := h₂.alike hlater
  refine ⟨?_, hexpression⟩
  rw [List.map_append, List.map_append, hfirst, hsecond]

end Results

/-- **A correct program in front changes nothing behind it.** Let some tokens be a whole program
without a fault, and let those behind them not start with `else`. Then both together are parsed as
the first part followed by the second one, up to the numbers of references, and what is reported is
what is reported of the second part alone. -/
theorem correct_prefix_is_parsed_apart (front back : List Token) (end₁ end₂ : Token)
    (hend₁ : end₁.kind = .endOfInput) (hend₂ : end₂.kind = .endOfInput)
    (hfront : ∀ t ∈ front, t.kind ≠ .endOfInput) (hback : ∀ t ∈ back.head?, t.kind ≠ .keyword .else)
    (p : Program) (n : Nat) (hp : (Program.parse (front ++ [end₁]) .script n).result = .ok p)
    (mode : Mode) (j k : Nat) :
    (∀ q, (Program.parse (back ++ [end₂]) mode k).result = .ok q →
      ∃ r, (Program.parse (front ++ back ++ [end₂]) mode j).result = .ok r ∧
        r.unnumbered = Program.unnumbered ⟨p.statements ++ q.statements, q.trailing⟩) ∧
    ∀ ds, (Program.parse (back ++ [end₂]) mode k).result = .error ds →
      (Program.parse (front ++ back ++ [end₂]) mode j).result = .error ds := by
  obtain ⟨rounds₁, e₁, c₁, h₁, -, -, hresult₁⟩ := Program.parse_course (front ++ [end₁]) .script n
  obtain ⟨rounds₂, e₂, c₂, h₂, -, -, hresult₂⟩ := Program.parse_course (back ++ [end₂]) mode k
  obtain ⟨all, e, c, h, -, -, hresult⟩ := Program.parse_course (front ++ back ++ [end₂]) mode j
  rw [hp] at hresult₁
  by_cases hclean : rounds₁.flatMap Round.reported = []
  · rw [if_pos hclean] at hresult₁
    cases hresult₁
    obtain ⟨hrounds, hexpression⟩ :=
      Program.rounds_of_append hend₁ hend₂ hfront hback h₁ hclean h₂ h
    have hreported : all.flatMap Round.reported = rounds₂.flatMap Round.reported := by
      rw [← reported_unnumbered, hrounds, reported_unnumbered, List.flatMap_append, hclean,
        List.nil_append]
    rw [hresult, hresult₂, hreported]
    by_cases hright : rounds₂.flatMap Round.reported = []
    · rw [if_pos hright, if_pos hright]
      refine ⟨fun q hq => ⟨_, rfl, ?_⟩, nofun⟩
      cases hq
      rw [Program.unnumbered_mk, ← statements_unnumbered, hrounds, hexpression,
        statements_unnumbered, List.filterMap_append, ← Program.unnumbered_mk]
    · rw [if_neg hright, if_neg hright]
      refine ⟨nofun, fun ds hds => ?_⟩
      cases hds
      rfl
  · rw [if_neg hclean] at hresult₁
    cases hresult₁

/-- Behind `a;`, the name `b` is left over at a prompt, and a parenthesis that closes nothing is
reported as it is reported alone. -/
theorem name_in_front_of_name :
    let a : Token := ⟨.identifier, ⟨"a", 1⟩, .nil⟩
    let b : Token := ⟨.identifier, ⟨"b", 1⟩, .nil⟩
    let semicolon : Token := ⟨.symbol .semicolon, ⟨";", 1⟩, .nil⟩
    let paren : Token := ⟨.symbol .rightParen, ⟨")", 1⟩, .nil⟩
    (Token.endOfInput 1).kind = .endOfInput ∧ (∀ t ∈ [a, semicolon], t.kind ≠ .endOfInput) ∧
      (∀ t ∈ [b].head?, t.kind ≠ .keyword .else) ∧ (∀ t ∈ [paren].head?, t.kind ≠ .keyword .else) ∧
      (Program.parse [a, semicolon, .endOfInput 1] .script 0).result =
        .ok ⟨[.expression (.variable ⟨0, a.lexeme⟩)], none⟩ ∧
      (∃ r, (Program.parse [a, semicolon, b, .endOfInput 1] .interactive 0).result = .ok r ∧
        r.unnumbered =
          ⟨[.expression (.variable ⟨0, a.lexeme⟩)], some (.variable ⟨0, b.lexeme⟩)⟩) ∧
      (Program.parse [a, semicolon, paren, .endOfInput 1] .interactive 0).result =
        .error [.grammar paren .missingExpression] := by
  intro a b semicolon paren
  have hend : (Token.endOfInput 1).kind = .endOfInput := rfl
  have hfront : ∀ t ∈ [a, semicolon], t.kind ≠ .endOfInput := by decide
  have hname : ∀ t ∈ [b].head?, t.kind ≠ .keyword .else := by decide
  have hparen : ∀ t ∈ [paren].head?, t.kind ≠ .keyword .else := by decide
  have hp : (Program.parse [a, semicolon, .endOfInput 1] .script 0).result =
      .ok ⟨[.expression (.variable ⟨0, a.lexeme⟩)], none⟩ := rfl
  have hq : (Program.parse [b, .endOfInput 1] .interactive 0).result =
      .ok ⟨[], some (.variable ⟨0, b.lexeme⟩)⟩ := rfl
  have hds : (Program.parse [paren, .endOfInput 1] .interactive 0).result =
      .error [.grammar paren .missingExpression] := rfl
  refine ⟨hend, hfront, hname, hparen, hp, ?_, ?_⟩
  · exact (correct_prefix_is_parsed_apart _ [b] _ _ hend hend hfront hname _ 0 hp .interactive
      0 0).1 _ hq
  · exact (correct_prefix_is_parsed_apart _ [paren] _ _ hend hend hfront hparen _ 0 hp .interactive
      0 0).2 _ hds

end ScriptLang
