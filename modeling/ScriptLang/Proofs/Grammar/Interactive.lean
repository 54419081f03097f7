import ScriptLang.Proofs.Grammar.Alike
import ScriptLang.Proofs.Grammar.Progress

/-!
# Input at a prompt

At a prompt the parser does what it does for a whole program, but for the attempts to read an
expression up to the end. An attempt that fails leaves nothing behind but other numbers, so both
parsers stand at the same place after every declaration (`programFrom_lockstep`). Where one
succeeds, the other parser reads the same expression and misses its semicolon. With a semicolon at
the end, it reads an expression statement there (`programFrom_closed`).
-/

namespace ScriptLang.Grammar

variable {fuel fuel' rounds rounds' : Nat} {c c' c₁ c₂ : Cursor} {e : Expr} {p p' : Program}

/-! ## Declarations that start as an expression -/

/-- What is read as an expression is no declaration of another sort. -/
theorem strictDeclaration_of_expression {g : Grammar} (h : expression g fuel c = .ok e c') :
    strictDeclaration g fuel c = expressionStatement g fuel c := by
  have hstart : startsExpression c.kind := by
    by_contra hnot
    exact (fails_of_not_starts (Bool.eq_false_iff.mpr hnot)).1 e c' h
  have hstatement : statement g fuel c = expressionStatement g fuel c := by
    unfold statement
    split <;> rename_i hkind <;> first
      | (rw [hkind] at hstart; cases hstart)
      | rfl
  unfold strictDeclaration
  split
  · next hkind =>
    rw [hkind] at hstart
    cases hstart
  · next hkind =>
    rw [hkind] at hstart
    cases hstart
  · next hkind =>
    have hanonymous : c.secondKind ≠ .identifier := by
      intro hsecond
      have hname : c.advance.kind ≠ .symbol .leftParen := by
        rw [← c.secondKind_eq, hsecond]
        decide
      exact (fails_expression (fails_primary_fun hkind hname) (by rw [hkind]; rfl)).1 e c' h
    rw [if_neg hanonymous]
    exact hstatement
  · exact hstatement

/-- An expression with a semicolon behind it is a declaration. -/
theorem declaration_of_closed (h : grammar fuel .expression c = .ok e c')
    (hkind : c'.kind = .symbol .semicolon) :
    grammar fuel .declaration c = .ok (some (.expression e)) c'.advance := by
  cases fuel with
  | zero => cases h
  | succ fuel =>
    have hexpression : expression (grammar fuel) (fuel + 1) c = .ok e c' := h
    have hsymbol : symbol .afterExpressionStatement c' = .ok c'.next c'.advance := if_pos hkind
    have hstrict : strictDeclaration (grammar fuel) (fuel + 1) c =
        .ok (.expression e) c'.advance := by
      rw [strictDeclaration_of_expression hexpression]
      unfold expressionStatement
      rw [bind_of_ok hexpression, bind_of_ok hsymbol]
      rfl
    change declaration (grammar fuel) (fuel + 1) c = _
    unfold declaration
    rw [hstrict]

/-- Without one, the semicolon is missed. -/
theorem declaration_of_open (h : grammar fuel .expression c = .ok e c')
    (hkind : c'.kind ≠ .symbol .semicolon) :
    ∃ d c₁, grammar fuel .declaration c = .ok none c₁ ∧ c₁.found = c'.found ++ [d] := by
  cases fuel with
  | zero => cases h
  | succ fuel =>
    have hexpression : expression (grammar fuel) (fuel + 1) c = .ok e c' := h
    have hsymbol : symbol .afterExpressionStatement c' =
        .error (.fault (.grammar c'.next (.missingSymbol .afterExpressionStatement))) c' :=
      if_neg hkind
    have hstrict : strictDeclaration (grammar fuel) (fuel + 1) c =
        .error (.fault (.grammar c'.next (.missingSymbol .afterExpressionStatement))) c' := by
      rw [strictDeclaration_of_expression hexpression]
      unfold expressionStatement
      rw [bind_of_ok hexpression, bind_eq_match, hsymbol]
    refine ⟨.grammar c'.next (.missingSymbol .afterExpressionStatement),
      { c'.report _ with rest := resume c'.rest }, ?_, rfl⟩
    change declaration (grammar fuel) (fuel + 1) c = _
    unfold declaration
    rw [hstrict]

/-! ## Rounds -/

/-- A program goes on with the declaration that comes next. -/
theorem programFrom_script (hopen : ¬ c.atEnd) {s : Option Stmt}
    (hdeclaration : grammar fuel .declaration c = .ok s c₁) (done : List Stmt) :
    programFrom .script fuel (rounds + 1) done c =
      programFrom .script fuel rounds (s.toList ++ done) c₁ := by
  have htried : speculation .script fuel c = .ok none c := rfl
  rw [programFrom_open .script rounds done hopen, htried]
  dsimp only
  rw [hdeclaration]

/-- A round at a prompt ends with an expression or goes on with the declaration that comes next. -/
theorem programFrom_interactive (hopen : ¬ c.atEnd) {done : List Stmt}
    (hp : programFrom .interactive fuel (rounds + 1) done c = .ok p c') :
    (∃ e, grammar fuel .expression c = .ok e c' ∧ c'.atEnd ∧ c'.found = c.found ∧
        p = ⟨done.reverse, some e⟩) ∨
      ∃ n s c₁, grammar fuel .declaration { c with nextRef := n } = .ok s c₁ ∧
        programFrom .interactive fuel rounds (s.toList ++ done) c₁ = .ok p c' := by
  have hspeculation : speculation .interactive fuel c = trailing fuel c := rfl
  rw [programFrom_open .interactive rounds done hopen, hspeculation] at hp
  obtain ⟨e, c₁, htried, hexpression, hend, hfound⟩ | ⟨n, -, htried⟩ | ⟨c₁, htried, -⟩ :=
    trailing_cases fuel c
  · rw [htried] at hp
    cases hp
    exact .inl ⟨e, hexpression, hend, hfound, rfl⟩
  · rw [htried] at hp
    dsimp only at hp
    cases hdeclaration : grammar fuel .declaration { c with nextRef := n } with
    | ok s c₁ =>
      rw [hdeclaration] at hp
      exact .inr ⟨n, s, c₁, hdeclaration, hp⟩
    | error stop c₁ =>
      rw [hdeclaration] at hp
      cases hp
  · rw [htried] at hp
    cases hp

/-- What is read in one round keeps both lists the same. -/
theorem unnumbered_more {s s' : Option Stmt} {done done' : List Stmt}
    (hs : s'.map Stmt.unnumbered = s.map Stmt.unnumbered)
    (hdone : done'.map Stmt.unnumbered = done.map Stmt.unnumbered) :
    (s'.toList ++ done').map Stmt.unnumbered = (s.toList ++ done).map Stmt.unnumbered := by
  rw [List.map_append, List.map_append, ← Option.toList_map, ← Option.toList_map, hs, hdone]

/-- **Both parsers in step.** They read the same and report the same, unless an expression at the
end is left over. Then the parser of whole programs has something more to report. -/
theorem programFrom_lockstep {done done' : List Stmt} {k : Nat}
    (hdone : done'.map Stmt.unnumbered = done.map Stmt.unnumbered)
    (hp : programFrom .interactive fuel rounds done c = .ok p c₁)
    (hp' : programFrom .script fuel rounds done' { c with nextRef := k } = .ok p' c₂) :
    (p.trailing = none ∧ p'.unnumbered = p.unnumbered ∧ c₂.found = c₁.found) ∨
      (p.trailing ≠ none ∧ ∃ d more, c₂.found = c₁.found ++ d :: more) := by
  induction rounds generalizing done done' c k with
  | zero => cases hp
  | succ rounds ih =>
    by_cases hend : c.atEnd
    · rw [programFrom_atEnd .interactive rounds done hend] at hp
      rw [programFrom_atEnd (c := { c with nextRef := k }) .script rounds done' hend] at hp'
      cases hp
      cases hp'
      refine .inl ⟨rfl, ?_, rfl⟩
      rw [Program.unnumbered_reverse, Program.unnumbered_reverse, hdone]
    · obtain ⟨e, hexpression, hatEnd, hfound, rfl⟩ | ⟨n, s, c₃, hdeclaration, hp⟩ :=
        programFrom_interactive hend hp
      · -- the expression is read once more, and its semicolon is missed
        obtain ⟨e', k', hexpression', -⟩ := grammar_alike hexpression k
        have hkind : { c₁ with nextRef := k' }.kind ≠ .symbol .semicolon := by
          have hkind : c₁.kind = .endOfInput := of_decide_eq_true hatEnd
          change c₁.kind ≠ _
          rw [hkind]
          decide
        obtain ⟨d, c₃, hdeclaration, hreported⟩ := declaration_of_open hexpression' hkind
        rw [programFrom_script (c := { c with nextRef := k }) hend hdeclaration] at hp'
        have hleads : c₃.Leads c₂ := Steady.of_ok hp'
        obtain ⟨more, hmore⟩ := hleads.found
        refine .inr ⟨Option.some_ne_none _, d, more, ?_⟩
        rw [← hmore, hreported, List.append_assoc]
        rfl
      · obtain ⟨s', k', hdeclaration', hsame⟩ := grammar_alike hdeclaration k
        rw [programFrom_script (c := { c with nextRef := k }) hend hdeclaration'] at hp'
        exact ih (unnumbered_more hsame hdone) hp hp'

/-! ## A semicolon at the end -/

variable {tail : List Token} {d : Cursor}

/-- Where the input ends, the other tokens are left. -/
theorem Cursor.Extends.rest_of_end (h : c.Extends tail d) (hend : c.atEnd) : d.rest = tail := by
  obtain ⟨ts, last, -, hts, hc, hd⟩ := h.rest
  cases ts with
  | nil => exact hd
  | cons t ts =>
    have hkind : c.kind = t.kind := by
      rw [Cursor.kind_eq, hc]
      rfl
    exact absurd (hkind ▸ of_decide_eq_true hend) (hts t List.mem_cons_self)

theorem Cursor.Extends.not_atEnd (h : c.Extends tail d) (hopen : ¬ c.atEnd) : ¬ d.atEnd := by
  obtain ⟨-, hkind, -⟩ | ⟨-, hkind, hnext, -⟩ := h.cases
  · exact absurd (decide_eq_true hkind) hopen
  · unfold Cursor.atEnd Cursor.kind
    rw [hnext]
    exact fun hend => hkind (of_decide_eq_true hend)

variable {semicolon last : Token} (hsemicolon : semicolon.kind = .symbol .semicolon)
  (hlast : last.kind = .endOfInput)

include hsemicolon

/-- No phrase is gone on with by a semicolon. -/
theorem stopsAt_semicolon (n : Nonterminal) : n.StopsAt (firstKind [semicolon, last]) := by
  have hkind : firstKind [semicolon, last] = .symbol .semicolon := hsemicolon
  rw [hkind]
  cases n <;> decide

include hlast

/-- An expression up to the end is the last statement of a program if a semicolon stands before
the end. -/
theorem programFrom_last (hle : fuel ≤ fuel') (hopen : ¬ c.atEnd)
    (hext : { c with nextRef := d.nextRef }.Extends [semicolon, last] d)
    (hexpression : grammar fuel .expression c = .ok e c') (hatEnd : c'.atEnd)
    (hfound : c'.found = c.found) (done : List Stmt) :
    ∃ e' d', programFrom .script fuel' (rounds + 2) done d =
        .ok ⟨(.expression e' :: done).reverse, none⟩ d' ∧
      e'.unnumbered = e.unnumbered ∧ d'.found = d.found := by
  obtain ⟨e', d₁, hd₁, hsame, hext₁, hfound₁⟩ :=
    grammar_extends hle hext hexpression hfound fun _ => stopsAt_semicolon hsemicolon .expression
  have hrest : d₁.rest = [semicolon, last] := hext₁.rest_of_end hatEnd
  have hkind : d₁.kind = .symbol .semicolon := by
    rw [Cursor.kind_eq, hrest]
    exact hsemicolon
  have hatEnd' : d₁.advance.atEnd := by
    refine decide_eq_true ?_
    rw [Cursor.kind_eq, Cursor.advance, hrest]
    exact hlast
  refine ⟨e', d₁.advance, ?_, hsame, hfound₁⟩
  rw [programFrom_script (hext.not_atEnd hopen) (declaration_of_closed hd₁ hkind)]
  exact programFrom_atEnd .script rounds (.expression e' :: done) hatEnd'

/-- With a semicolon before the end, the expression that is left over at a prompt is the last
statement of a program. -/
theorem programFrom_closed {done done' : List Stmt} (hle : fuel ≤ fuel')
    (hrounds : rounds < rounds')
    (hdone : done'.map Stmt.unnumbered = done.map Stmt.unnumbered)
    (hext : { c with nextRef := d.nextRef }.Extends [semicolon, last] d)
    (hp : programFrom .interactive fuel rounds done c = .ok p c') (hfound : c'.found = c.found)
    (he : p.trailing = some e) :
    ∃ p' d', programFrom .script fuel' rounds' done' d = .ok p' d' ∧ d'.found = d.found ∧
      p'.unnumbered = Program.unnumbered ⟨p.statements ++ [.expression e], none⟩ := by
  obtain ⟨rounds', rfl⟩ : ∃ r, rounds' = r + 1 := ⟨rounds' - 1, by omega⟩
  induction rounds generalizing rounds' done done' c d with
  | zero => cases hp
  | succ rounds ih =>
    obtain ⟨rounds', rfl⟩ : ∃ r, rounds' = r + 1 := ⟨rounds' - 1, by omega⟩
    by_cases hend : c.atEnd
    · rw [programFrom_atEnd .interactive rounds done hend] at hp
      cases hp
      cases he
    · obtain ⟨e, hexpression, hatEnd, -, rfl⟩ | ⟨n, s, c₁, hdeclaration, hp⟩ :=
        programFrom_interactive hend hp
      · cases he
        obtain ⟨e', d', hd', hsame, hfound'⟩ := programFrom_last hsemicolon hlast hle hend hext
          hexpression hatEnd hfound done'
        refine ⟨_, d', hd', hfound', ?_⟩
        have hstatement : (Stmt.expression e').unnumbered = (Stmt.expression e).unnumbered :=
          congrArg Stmt.expression hsame
        rw [← List.reverse_cons, Program.unnumbered_reverse, Program.unnumbered_reverse,
          List.map_cons, List.map_cons, hdone, hstatement]
      · have hsteady : Steady (grammar fuel .declaration : Parser (Option Stmt)) :=
          steady_grammar fuel .declaration
        -- nothing is taken back, so nothing is reported in this round either
        have hprefix : c.found <+: c₁.found := (hsteady.of_ok hdeclaration).found
        have hprefix' : c₁.found <+: c.found := hfound ▸ (Steady.of_ok hp).found
        have hfound₁ : c₁.found = c.found := hprefix'.eq_of_length_le hprefix.length_le
        obtain ⟨s', d₁, hd₁, hsame, hext₁, hfound₂⟩ :=
          grammar_extends (c := { c with nextRef := n }) hle hext hdeclaration hfound₁
            fun _ => stopsAt_semicolon hsemicolon .declaration
        obtain ⟨p', d', hd', hfound', hp'⟩ := ih (unnumbered_more hsame hdone) hext₁ hp
          (hfound.trans hfound₁.symm) rounds' (by omega)
        refine ⟨p', d', ?_, hfound'.trans hfound₂, hp'⟩
        rw [programFrom_script (hext.not_atEnd hend) hd₁]
        exact hd'

end ScriptLang.Grammar

namespace ScriptLang

/-! ## Results -/

section Results

variable {tokens : List Token} {mode : Mode} {nextRef : Nat}

theorem Program.parse_of_program {p : Program} {c : Grammar.Cursor}
    (h : Grammar.program mode (.start tokens nextRef) = .ok p c) :
    (Program.parse tokens mode nextRef).result =
      if c.found = [] then .ok p else .error c.found := by
  unfold Program.parse
  rw [h]

theorem Program.program_of_parse {p : Program}
    (h : (Program.parse tokens mode nextRef).result = .ok p) :
    ∃ c, Grammar.program mode (.start tokens nextRef) = .ok p c ∧ c.found = [] := by
  obtain ⟨q, c, hprogram⟩ := Grammar.program_ok mode (.start tokens nextRef)
  rw [parse_of_program hprogram] at h
  split at h
  · next hfound =>
    cases h
    exact ⟨c, hprogram, hfound⟩
  · cases h

/-- Both results are alike, unless an expression is left over at a prompt. -/
theorem Program.parse_in_step (tokens : List Token) (n k : Nat) :
    (∃ p q, (Program.parse tokens .script n).result = .ok p ∧
        (Program.parse tokens .interactive k).result = .ok q ∧ q.trailing = none ∧
        p.unnumbered = q.unnumbered) ∨
      (∃ ds q, (Program.parse tokens .script n).result = .error ds ∧
        (Program.parse tokens .interactive k).result = .ok q ∧ q.trailing ≠ none) ∨
      ∃ ds more, (Program.parse tokens .script n).result = .error (ds ++ more) ∧
        (Program.parse tokens .interactive k).result = .error ds := by
  obtain ⟨p, c, hp⟩ := Grammar.program_ok .script (.start tokens n)
  obtain ⟨q, d, hq⟩ := Grammar.program_ok .interactive (.start tokens k)
  rw [parse_of_program hp, parse_of_program hq]
  have hstep : (q.trailing = none ∧ p.unnumbered = q.unnumbered ∧ c.found = d.found) ∨
      (q.trailing ≠ none ∧ ∃ x more, c.found = d.found ++ x :: more) :=
    Grammar.programFrom_lockstep rfl hq hp
  obtain ⟨hclosed, hsame, hfound⟩ | ⟨hopen, x, more, hfound⟩ := hstep
  · rw [hfound]
    by_cases hnil : d.found = []
    · rw [if_pos hnil, if_pos hnil]
      exact .inl ⟨p, q, rfl, rfl, hclosed, hsame⟩
    · rw [if_neg hnil, if_neg hnil]
      exact .inr (.inr ⟨d.found, [], by rw [List.append_nil], rfl⟩)
  · have hcons : c.found ≠ [] := by
      rw [hfound]
      exact List.append_ne_nil_of_right_ne_nil _ (List.cons_ne_nil x more)
    rw [if_neg hcons]
    by_cases hnil : d.found = []
    · rw [if_pos hnil]
      exact .inr (.inl ⟨c.found, q, rfl, rfl, hopen⟩)
    · rw [if_neg hnil]
      exact .inr (.inr ⟨d.found, x :: more, by rw [hfound], rfl⟩)

/-- A semicolon makes the expression that is left over the last statement. -/
theorem Program.parse_closed {tokens : List Token} {semicolon last : Token}
    (hsemicolon : semicolon.kind = .symbol .semicolon) (hlast : last.kind = .endOfInput)
    (htokens : ∀ t ∈ tokens, t.kind ≠ .endOfInput) (n k : Nat) {q : Program} {e : Expr}
    (hq : (Program.parse (tokens ++ [last]) .interactive k).result = .ok q)
    (he : q.trailing = some e) :
    ∃ p, (Program.parse (tokens ++ [semicolon, last]) .script n).result = .ok p ∧
      p.unnumbered = Program.unnumbered ⟨q.statements ++ [.expression e], none⟩ := by
  obtain ⟨d, hprogram, hfound⟩ := program_of_parse hq
  have hext : Grammar.Cursor.Extends [semicolon, last] (.start (tokens ++ [last]) n)
      (.start (tokens ++ [semicolon, last]) n) :=
    ⟨⟨tokens, last, hlast, htokens, rfl, rfl⟩, rfl⟩
  have hlength : (tokens ++ [last]).length < (tokens ++ [semicolon, last]).length := by simp
  have hnone : ([] : List Stmt).map Stmt.unnumbered = [].map Stmt.unnumbered := rfl
  obtain ⟨p, c, hp, hfound', hsame⟩ := Grammar.programFrom_closed hsemicolon hlast
    (Nat.succ_le_succ (Nat.le_of_lt hlength)) (Nat.succ_lt_succ hlength) hnone
    (d := .start (tokens ++ [semicolon, last]) n) hext hprogram hfound he
  have hclean : c.found = [] := hfound'
  refine ⟨p, ?_, hsame⟩
  rw [parse_of_program hp, if_pos hclean]

end Results

/-- **At a prompt, a program may end in an expression.** On a list of tokens with one mark of the
end, parsing a whole program and parsing what is typed at a prompt have the same result, up to the
numbers of references, unless an expression is left over at the end. Then a semicolon behind it
makes it the last statement of a program. What is reported at a prompt is reported first in a
program, too. -/
theorem interactive_is_script_with_trailing (tokens : List Token) (last : Token)
    (hlast : last.kind = .endOfInput) (htokens : ∀ t ∈ tokens, t.kind ≠ .endOfInput) (n k : Nat) :
    (∀ p, (Program.parse (tokens ++ [last]) .script n).result = .ok p →
      ∃ q, (Program.parse (tokens ++ [last]) .interactive k).result = .ok q ∧
        q.trailing = none ∧ q.unnumbered = p.unnumbered) ∧
    (∀ q, (Program.parse (tokens ++ [last]) .interactive k).result = .ok q → q.trailing = none →
      ∃ p, (Program.parse (tokens ++ [last]) .script n).result = .ok p ∧
        p.unnumbered = q.unnumbered) ∧
    (∀ q e, (Program.parse (tokens ++ [last]) .interactive k).result = .ok q →
      q.trailing = some e → ∀ semicolon : Token, semicolon.kind = .symbol .semicolon →
      ∃ p, (Program.parse (tokens ++ [semicolon, last]) .script n).result = .ok p ∧
        p.unnumbered = Program.unnumbered ⟨q.statements ++ [.expression e], none⟩) ∧
    ∀ ds, (Program.parse (tokens ++ [last]) .interactive k).result = .error ds →
      ∃ more, (Program.parse (tokens ++ [last]) .script n).result = .error (ds ++ more) := by
  have hclosed (q : Program) (e : Expr)
      (hq : (Program.parse (tokens ++ [last]) .interactive k).result = .ok q)
      (he : q.trailing = some e) (semicolon : Token) (hs : semicolon.kind = .symbol .semicolon) :=
    Program.parse_closed hs hlast htokens n k hq he
  obtain ⟨p, q, hp, hq, hnone, hsame⟩ | ⟨ds, q, hp, hq, hsome⟩ | ⟨ds, more, hp, hq⟩ :=
    Program.parse_in_step (tokens ++ [last]) n k
  · refine ⟨fun p' hp' => ?_, fun q' hq' _ => ?_, hclosed, fun ds hds => ?_⟩
    · cases hp.symm.trans hp'
      exact ⟨q, hq, hnone, hsame.symm⟩
    · cases hq.symm.trans hq'
      exact ⟨p, hp, hsame⟩
    · cases hq.symm.trans hds
  · refine ⟨fun p' hp' => ?_, fun q' hq' hnone => ?_, hclosed, fun ds' hds => ?_⟩
    · cases hp.symm.trans hp'
    · cases hq.symm.trans hq'
      exact absurd hnone hsome
    · cases hq.symm.trans hds
  · refine ⟨fun p' hp' => ?_, fun q' hq' _ => ?_, hclosed, fun ds' hds => ?_⟩
    · cases hp.symm.trans hp'
    · cases hq.symm.trans hq'
    · cases hq.symm.trans hds
      exact ⟨more, hp⟩

/-- What is typed as `a; b` is the program `a; b;`. -/
theorem last_name_becomes_statement :
    let a : Token := ⟨.identifier, ⟨"a", 1⟩, .nil⟩
    let b : Token := ⟨.identifier, ⟨"b", 1⟩, .nil⟩
    let semicolon : Token := ⟨.symbol .semicolon, ⟨";", 1⟩, .nil⟩
    (Token.endOfInput 1).kind = .endOfInput ∧ (∀ t ∈ [a, semicolon, b], t.kind ≠ .endOfInput) ∧
      ∃ p, (Program.parse [a, semicolon, b, semicolon, .endOfInput 1] .script 0).result = .ok p ∧
        p.unnumbered = ⟨[.expression (.variable ⟨0, ⟨"a", 1⟩⟩),
          .expression (.variable ⟨0, ⟨"b", 1⟩⟩)], none⟩ := by
  intro a b semicolon
  have hlast : (Token.endOfInput 1).kind = .endOfInput := rfl
  have htokens : ∀ t ∈ [a, semicolon, b], t.kind ≠ .endOfInput := by decide
  obtain ⟨-, -, hclosed, -⟩ :=
    interactive_is_script_with_trailing [a, semicolon, b] (.endOfInput 1) hlast htokens 0 0
  -- the numbers 0 and 1 go to the first name, once in an attempt that fails
  have hparse : (Program.parse [a, semicolon, b, .endOfInput 1] .interactive 0).result =
      .ok ⟨[.expression (.variable ⟨1, a.lexeme⟩)], some (.variable ⟨2, b.lexeme⟩)⟩ := rfl
  exact ⟨hlast, htokens, hclosed _ _ hparse rfl semicolon rfl⟩

end ScriptLang
