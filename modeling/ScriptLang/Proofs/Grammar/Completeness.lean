import ScriptLang.Proofs.Grammar.Completeness.Statements

/-!
# Completeness of the grammar

Every grammatical tree is read back from its words. The rules give back the trees of their
nonterminals if the nonterminals in them do, so by induction on the fuel the grammar does
(`complete_grammar`). A grammatical program is therefore parsed from any tokens with its words,
and it is the only one that is, up to the lines of its words and the numbers of its references
(`Program.parse_of_words`).
-/

namespace ScriptLang.Grammar

/-- The grammar gives every tree back where fewer words are left than it has fuel. -/
theorem complete_grammar (fuel : Nat) : Complete (grammar fuel) fuel := by
  induction fuel with
  | zero => exact fun n t rest _ hlength => absurd hlength (Nat.not_lt_zero _)
  | succ fuel ih =>
    intro n t rest ht hlength
    have hlength' : (n.words t ++ rest).length ≤ fuel := Nat.le_of_lt_succ hlength
    have hfuel : fuel < fuel + 1 := Nat.lt_succ_self fuel
    cases n with
    | expression => exact gives_expression ih hfuel t rest (Level.comma_le _) ht.1 ht.2 hlength'
    | assignment => exact gives_assignment ih hfuel t rest ht.1 ht.2.1 ht.2.2 hlength'
    | conditional => exact gives_conditional ih hfuel t rest ht.1 ht.2.1 ht.2.2 hlength'
    | unary => exact gives_unary ih hfuel t rest ht.1 ht.2.1 ht.2.2 hlength'
    | statement => exact gives_statement ih ht.1 ht.2.1 ht.2.2 hlength' hfuel
    | declaration =>
      obtain ⟨s, rfl, hs, hrest⟩ := ht
      exact gives_declaration ih hs hrest hlength' hfuel

/-! ## Programs -/

/-- The declarations of a script that are left, up to the end of the input. -/
theorem gives_programFrom {fuel rounds : Nat} {body done : List Stmt} {rest : List Word}
    (hbody : Stmt.AllGrammatical body) (hrest : kindAt rest = .endOfInput)
    (hlength : (Stmt.listWords body ++ rest).length < fuel) (hrounds : body.length < rounds) :
    Gives (programFrom .script fuel rounds done) (Stmt.listWords body) rest fun p =>
      Stmt.eraseAll p.statements = Stmt.eraseAll (done.reverse ++ body) ∧ p.trailing = none := by
  induction body generalizing done rounds with
  | nil =>
    cases rounds with
    | zero => simp at hrounds
    | succ rounds =>
      intro c hc
      have hend : c.atEnd := by simpa [Cursor.atEnd, Cursor.kind_of_words hc] using hrest
      exact ⟨⟨done.reverse, none⟩, c, if_pos hend, hc, rfl, by rw [List.append_nil], rfl⟩
  | cons s body ih =>
    cases rounds with
    | zero => simp at hrounds
    | succ rounds =>
      obtain ⟨w, ws, hws, hstart⟩ := startsStatement_words s
      -- what follows is another statement or the end
      have hnext : kindAt (Stmt.listWords body ++ rest) ≠ .keyword .else := by
        obtain hstart' | ⟨-, heq⟩ := kindAt_listWords body rest
        · exact (ne_of_startsStatement hstart').2.2
        · rw [heq, hrest]
          rintro ⟨⟩
      rw [Stmt.listWords, List.append_assoc] at hlength
      have hs : Gives (grammar fuel .declaration) s.words (Stmt.listWords body ++ rest)
          fun s' => s'.map Stmt.erase = some s.erase :=
        complete_grammar fuel .declaration (some s) _ ⟨s, rfl, hbody.1, fun _ => hnext⟩ hlength
      have hread : Gives ((grammar fuel .declaration : Parser (Option Stmt)) >>= fun s' =>
          programFrom .script fuel rounds (s'.toList ++ done)) (s.words ++ Stmt.listWords body) rest
          fun p => Stmt.eraseAll p.statements = Stmt.eraseAll (done.reverse ++ s :: body) ∧
            p.trailing = none := by
        refine gives_bind hs fun s' hs' => ?_
        obtain ⟨s', rfl, halike⟩ := Option.map_eq_some_iff.mp hs'
        have hlength' : (Stmt.listWords body ++ rest).length < fuel := by
          rw [List.length_append] at hlength
          omega
        refine (ih hbody.2 hlength' (Nat.lt_of_succ_lt_succ hrounds)).mono fun p hp => ?_
        refine ⟨hp.1.trans ?_, hp.2⟩
        simp [Stmt.eraseAll_eq_map, halike]
      refine hread.of_eq fun c hc => ?_
      rw [hws] at hc
      have hkind : c.kind = w.kind := Cursor.kind_of_words hc
      have hopen : ¬ c.atEnd := by
        simpa [Cursor.atEnd, hkind] using (ne_of_startsStatement hstart).2.1
      exact programFrom_succ .script rounds done hopen

end ScriptLang.Grammar

namespace ScriptLang

open Grammar

/-- A script is parsed from any tokens with the words of its statements. -/
theorem Program.parse_statements {p : Program} (hp : p.Grammatical) (hclosed : p.trailing = none)
    {tokens : List Token} (line nextRef : Nat) (hwords : tokens.map Token.word = p.words) :
    ∃ p', (Program.parse (tokens ++ [.endOfInput line]) .script nextRef).result = .ok p' ∧
      p'.erase = p.erase := by
  obtain ⟨body, trailing⟩ := p
  cases hclosed
  let c := Cursor.start (tokens ++ [.endOfInput line]) nextRef
  have hc : c.words = Stmt.listWords body ++ [Word.endOfInput] := by
    have hread : c.words = tokens.map Token.word ++ [Word.endOfInput] := by
      simp [c, Cursor.words, Cursor.start, Token.word, Token.endOfInput]
    rw [hread, hwords]
    simp [Program.words]
  have hlength : c.rest.length = (Stmt.listWords body ++ [Word.endOfInput]).length := by
    rw [← hc, Cursor.words, List.length_map]
  have hcount := length_le_listWords body
  rw [List.length_append] at hlength
  have hread : Gives (programFrom .script (c.rest.length + 1) (c.rest.length + 1) [])
      (Stmt.listWords body) [Word.endOfInput] fun p =>
        Stmt.eraseAll p.statements = Stmt.eraseAll body ∧ p.trailing = none :=
    gives_programFrom hp.1 rfl (by rw [List.length_append]; omega) (by omega)
  obtain ⟨p', c', hact, -, hfound, hstatements, htrailing⟩ := hread c hc
  refine ⟨p', ?_, ?_⟩
  · have hprogram : program .script c = .ok p' c' := hact
    have hnone : c'.found = [] := hfound
    unfold Program.parse
    rw [hprogram]
    change (if c'.found = [] then Except.ok p' else .error c'.found) = .ok p'
    exact if_pos hnone
  · rw [Program.erase, Program.erase, hstatements, htrailing, Option.map_none]

/-- **What can be written is parsed.** A grammatical program without a trailing expression is
parsed as a script from any tokens with its words and a mark of their end, and comes back as it
was, up to the lines of its words and the numbers of its references. So no other grammatical
program has the same words. -/
theorem Program.parse_of_words (p : Program) (hp : p.Grammatical) (hclosed : p.trailing = none) :
    (∀ (tokens : List Token) (line nextRef : Nat), tokens.map Token.word = p.words →
      ∃ p', (Program.parse (tokens ++ [.endOfInput line]) .script nextRef).result = .ok p' ∧
        p'.erase = p.erase) ∧
    ∀ q : Program, q.Grammatical → q.trailing = none → q.words = p.words → q.erase = p.erase := by
  refine ⟨fun tokens line nextRef => Program.parse_statements hp hclosed line nextRef, ?_⟩
  intro q hq hopen hwords
  have htokens : (p.words.map Word.token).map Token.word = p.words := by
    rw [List.map_map]
    exact List.map_id'' Word.word_token p.words
  obtain ⟨p', hparse, hp'⟩ := Program.parse_statements hp hclosed 0 0 htokens
  obtain ⟨q', hparse', hq'⟩ := Program.parse_statements hq hopen 0 0 (htokens.trans hwords.symm)
  cases hparse.symm.trans hparse'
  exact hq'.symm.trans hp'

/-- An assignment of a conditional as a branch of a choice. -/
theorem Program.parse_of_assigned_conditional :
    ∃ p : Program, p.statements = [.ifElse (.variable ⟨0, ⟨"a", 0⟩⟩)
        (.expression (.assign ⟨0, ⟨"b", 0⟩⟩ (.conditional (.variable ⟨0, ⟨"c", 0⟩⟩)
          (.get (.variable ⟨0, ⟨"d", 0⟩⟩) ⟨"e", 0⟩) (.unary .negate ⟨"-", 0⟩ (.literal .nil)))))
        (some (.breakLoop ⟨"break", 0⟩))] ∧
      ∃ p', (Program.parse ((Source.tokens "if (a) b = c ? d.e : -nil; else break;").dropLast ++
        [.endOfInput 1]) .script 0).result = .ok p' ∧ p'.erase = p.erase := by
  refine ⟨⟨_, none⟩, rfl, (Program.parse_of_words _ ⟨?_, by simp⟩ rfl).1 _ 1 0 rfl⟩
  simp only [Stmt.AllGrammatical, Stmt.Grammatical, Expr.Grammatical, Stmt.isDeclaration,
    Stmt.endsOpen, Expr.level]
  decide

end ScriptLang
