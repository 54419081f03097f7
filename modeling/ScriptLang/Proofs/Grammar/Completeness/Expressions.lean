import ScriptLang.Proofs.Grammar.Yielding

/-!
# Giving expressions back

Every grammatical expression is read back from its words. Every rule of the grammar gives back
the trees of its nonterminal if the nonterminals in it do, as long as there is fuel for the words
that are left (`Complete`). Here are the rules for expressions, and those for blocks and
routines, which expressions contain.

Whether an expression is read to its end depends on what follows it: that must not be an
operator of its own level or a tighter one (`Restores`).
-/

namespace ScriptLang.Grammar

/-! ## What the nonterminals give back -/

/-- The tree may stand in front of the words `rest`. -/
def Nonterminal.Allows : (n : Nonterminal) → n.Tree → List Word → Prop
  | .expression, e, rest => e.Grammatical ∧ Stops .comma rest
  | .assignment, e, rest => Level.assignment ≤ e.level ∧ e.Grammatical ∧ Stops .assignment rest
  | .conditional, e, rest => Level.conditional ≤ e.level ∧ e.Grammatical ∧ Stops .conditional rest
  | .unary, e, rest => Level.unary ≤ e.level ∧ e.Grammatical ∧ Stops .unary rest
  | .statement, s, rest =>
    s.Grammatical ∧ s.isDeclaration = false ∧ (s.endsOpen → kindAt rest ≠ .keyword .else)
  | .declaration, s, rest =>
    ∃ s', s = some s' ∧ s'.Grammatical ∧ (s'.endsOpen → kindAt rest ≠ .keyword .else)

/-- The words of a tree. -/
def Nonterminal.words : (n : Nonterminal) → n.Tree → List Word
  | .expression, e | .assignment, e | .conditional, e | .unary, e => e.words
  | .statement, s => s.words
  | .declaration, s => (s.map Stmt.words).getD []

/-- The tree without lines and numbers. -/
def Nonterminal.erase : (n : Nonterminal) → n.Tree → n.Tree
  | .expression, e | .assignment, e | .conditional, e | .unary, e => e.erase
  | .statement, s => s.erase
  | .declaration, s => s.map Stmt.erase

/-- The parsers of a grammar give every tree back where fewer than `k` words are left. -/
def Complete (g : Grammar) (k : Nat) : Prop :=
  ∀ n t rest, n.Allows t rest → (n.words t ++ rest).length < k →
    Gives (g n) (n.words t) rest fun t' => n.erase t' = n.erase t

/-- The parser reads every expression of the level where at most `k` words are left. -/
def Restores (act : Parser Expr) (l : Level) (k : Nat) : Prop :=
  ∀ (e : Expr) rest, l ≤ e.level → e.Grammatical → Stops l rest → (e.words ++ rest).length ≤ k →
    Gives act e.words rest fun e' => e'.erase = e.erase

variable {g : Grammar} {fuel k : Nat} {rest : List Word}

theorem Complete.mono {k' : Nat} (hg : Complete g k) (hle : k' ≤ k) : Complete g k' :=
  fun n t rest ht hlength => hg n t rest ht (hlength.trans_le hle)

theorem Complete.expression (hg : Complete g k) {e : Expr} (he : e.Grammatical)
    (hrest : Stops .comma rest) (hlength : (e.words ++ rest).length < k) :
    Gives (g .expression) e.words rest fun e' => e'.erase = e.erase :=
  hg .expression e rest ⟨he, hrest⟩ hlength

theorem Complete.assignment (hg : Complete g k) {e : Expr} (hle : Level.assignment ≤ e.level)
    (he : e.Grammatical) (hrest : Stops .assignment rest)
    (hlength : (e.words ++ rest).length < k) :
    Gives (g .assignment) e.words rest fun e' => e'.erase = e.erase :=
  hg .assignment e rest ⟨hle, he, hrest⟩ hlength

theorem Complete.statement (hg : Complete g k) {s : Stmt} (hs : s.Grammatical)
    (hplain : s.isDeclaration = false) (hrest : s.endsOpen → kindAt rest ≠ .keyword .else)
    (hlength : (s.words ++ rest).length < k) :
    Gives (g .statement) s.words rest fun s' => s'.erase = s.erase :=
  hg .statement s rest ⟨hs, hplain, hrest⟩ hlength

/-- A symbol with its usual spelling. -/
theorem gives_spelled (place : SymbolPlace) :
    Gives (symbol place) [place.symbol.word] rest
      fun t => t.lexeme.text = String.ofList place.symbol.spelling :=
  gives_symbol place

/-! ## Blocks and routines -/

theorem length_le_listWords (body : List Stmt) : body.length ≤ (Stmt.listWords body).length := by
  induction body with
  | nil => exact Nat.le_refl _
  | cons s body ih =>
    obtain ⟨w, ws, hws, -⟩ := startsStatement_words s
    rw [Stmt.listWords, hws]
    simp only [List.length_append, List.length_cons]
    omega

theorem ne_of_startsStatement {kind : Kind} (h : startsStatement kind) :
    kind ≠ .symbol .rightBrace ∧ kind ≠ .endOfInput ∧ kind ≠ .keyword .else := by
  refine ⟨?_, ?_, ?_⟩ <;> rintro rfl <;> cases h

theorem gives_declarationsFrom (hg : Complete g k) {body done : List Stmt}
    (hbody : Stmt.AllGrammatical body) (hrest : kindAt rest = .symbol .rightBrace)
    (hlength : (Stmt.listWords body ++ rest).length < k) (hfuel : body.length < fuel) :
    Gives (declarationsFrom g fuel done) (Stmt.listWords body) rest
      fun out => Stmt.eraseAll out = Stmt.eraseAll (done.reverse ++ body) := by
  induction body generalizing done fuel with
  | nil =>
    cases fuel with
    | zero => simp at hfuel
    | succ fuel =>
      intro c hc
      have hkind : c.kind = .symbol .rightBrace := (Cursor.kind_of_words hc).trans hrest
      exact ⟨_, c, declarationsFrom_closed (.inl hkind), hc, rfl, by rw [List.append_nil]⟩
  | cons s body ih =>
    cases fuel with
    | zero => simp at hfuel
    | succ fuel =>
      obtain ⟨w, ws, hws, hstart⟩ := startsStatement_words s
      -- what follows is another statement or the closing brace
      have hnext : kindAt (Stmt.listWords body ++ rest) ≠ .keyword .else := by
        obtain hstart' | ⟨-, heq⟩ := kindAt_listWords body rest
        · exact (ne_of_startsStatement hstart').2.2
        · rw [heq, hrest]
          exact nofun
      rw [Stmt.listWords, List.append_assoc] at hlength
      have hs := hg .declaration (some s) (Stmt.listWords body ++ rest)
        ⟨s, rfl, hbody.1, fun _ => hnext⟩ hlength
      refine Gives.of_eq ?_ fun c hc => declarationsFrom_open ?_
      · rw [Stmt.listWords]
        refine gives_bind hs fun s' hs' => ?_
        obtain ⟨s', rfl, halike⟩ := Option.map_eq_some_iff.mp hs'
        have hlength' : (Stmt.listWords body ++ rest).length < k := by
          rw [List.length_append] at hlength
          omega
        refine (ih hbody.2 hlength' (Nat.lt_of_succ_lt_succ hfuel)).mono fun out hout => ?_
        rw [hout]
        simp [Stmt.eraseAll_eq_map, halike]
      · rw [Stmt.listWords, hws] at hc
        have hkind : c.kind = w.kind := Cursor.kind_of_words hc
        have hne := ne_of_startsStatement hstart
        rw [← hkind] at hne
        rintro (h | h)
        · exact hne.1 h
        · exact hne.2.1 (by simpa [Cursor.atEnd] using h)

theorem gives_block (hg : Complete g k) {body : List Stmt} (hbody : Stmt.AllGrammatical body)
    (hlength : (Stmt.listWords body ++ Symbol.rightBrace.word :: rest).length < k)
    (hfuel : k ≤ fuel) :
    Gives (block g fuel) (Stmt.listWords body ++ [Symbol.rightBrace.word]) rest
      fun out => Stmt.eraseAll out = Stmt.eraseAll body := by
  have hcount := length_le_listWords body
  have hlength' := hlength
  rw [List.length_append] at hlength'
  unfold block
  refine gives_bind (gives_declarationsFrom hg hbody rfl hlength (by omega)) fun out hout => ?_
  change Gives _ ([Symbol.rightBrace.word] ++ []) rest _
  refine gives_bind (gives_spelled .afterBlock) fun _ _ => ?_
  exact gives_pure hout

theorem gives_parameters {tooMany : GrammarFault} {closing : SymbolPlace} {place : NamePlace}
    {params : List Lexeme} (hparams : Parameters params) (hclosing : closing.symbol = .rightParen)
    (hlength : (nameWords params ++ Symbol.rightParen.word :: rest).length ≤ k) (hfuel : k < fuel) :
    Gives (items tooMany closing (identifier place) fuel)
      (nameWords params ++ [Symbol.rightParen.word]) rest
      fun out => out.1.map Lexeme.erase = params.map Lexeme.erase := by
  have hitem (p : Lexeme) (rest' : List Word) :
      Gives (identifier place) [Word.identifier p.text] rest' fun q => q.erase = p.erase :=
    (gives_identifier place).mono fun q hq => Lexeme.erase_eq_iff.mpr hq
  exact (gives_items (fun p _ rest' _ _ => hitem p rest') (fun p _ rest' => nofun) hparams.1
    hclosing hlength hfuel).mono fun out hout => hout.1

/-- The parameters and the body, behind the opening parenthesis. -/
theorem gives_routine (hg : Complete g k) {kind : RoutineKind} {r : Routine}
    (hr : r.Grammatical) {ws : List Word} (hwords : r.words = Symbol.leftParen.word :: ws)
    (hlength : (ws ++ rest).length < k) (hfuel : k ≤ fuel) :
    Gives (routine g fuel kind) ws rest fun r' => r'.erase = r.erase := by
  have hws : ws = nameWords r.params ++ [Symbol.rightParen.word] ++
      ([Symbol.leftBrace.word] ++ (Stmt.listWords r.body ++ [Symbol.rightBrace.word] ++ [])) := by
    have htail := (List.cons.inj hwords).2
    rw [← htail]
    simp
  have hopening : (SymbolPlace.beforeRoutineBody kind).symbol = .leftBrace := rfl
  rw [hws] at hlength ⊢
  simp only [List.length_append, List.length_cons] at hlength
  rw [routine_eq]
  refine gives_bind (gives_parameters (k := k - 1) hr.1 rfl ?_ ?_) fun params hparams => ?_
  · simp only [List.length_append, List.length_cons]
    omega
  · omega
  refine gives_bind (gives_spelled (.beforeRoutineBody kind)) fun _ _ => ?_
  refine gives_bind (gives_block hg hr.2 ?_ hfuel) fun body hbody => ?_
  · simp only [List.length_append, List.length_cons]
    omega
  · refine gives_pure ?_
    rw [Routine.erase, Routine.erase, hparams, hbody]

/-! ## Expressions -/

/-- A constant is read as a single token. -/
theorem gives_literal (value : Literal) :
    Gives (primary g fuel) (Expr.literal value).words rest
      fun e => e.erase = (Expr.literal value).erase := by
  rw [Expr.words]
  refine gives_one fun c hkind => ?_
  cases value with
  | nil => exact ⟨.literal .nil, by unfold primary; rw [hkind]; rfl, fun _ => rfl⟩
  | bool b =>
    cases b with
    | true => exact ⟨.literal (.bool true), by unfold primary; rw [hkind]; rfl, fun _ => rfl⟩
    | false => exact ⟨.literal (.bool false), by unfold primary; rw [hkind]; rfl, fun _ => rfl⟩
  | number x =>
    refine ⟨.literal c.next.literal, by unfold primary; rw [hkind]; rfl, fun hword => ?_⟩
    have hkind' : c.next.kind = .number := hkind
    rw [Token.word, hkind', Literal.word] at hword
    rw [Word.number.inj hword]
  | string s =>
    refine ⟨.literal c.next.literal, by unfold primary; rw [hkind]; rfl, fun hword => ?_⟩
    have hkind' : c.next.kind = .string := hkind
    rw [Token.word, hkind', Literal.word] at hword
    rw [Word.string.inj hword]

/-- A reference is numbered where it is read. -/
theorem gives_reference {w : Word} {node : Ref → Expr} {ref : Ref}
    (hnode : ∀ ref' : Ref, ref'.erase = ref.erase → (node ref').erase = (node ref).erase)
    (htext : ∀ t : Token, t.word = w → t.lexeme.text = ref.word.text) :
    Gives (take >>= fun word => fresh word.lexeme >>= fun ref => pure (node ref)) [w] rest
      fun e => e.erase = (node ref).erase := by
  change Gives _ ([w] ++ ([] ++ [])) rest _
  refine gives_bind gives_take fun t ht => ?_
  refine gives_bind gives_fresh fun ref' href' => ?_
  refine gives_pure (hnode ref' (Ref.erase_eq_iff.mpr ?_))
  rw [href', htext t ht]

theorem gives_super (ref : Ref) (method : Lexeme) :
    Gives (primary g fuel) (Expr.super ref method).words rest
      fun e => e.erase = (Expr.super ref method).erase := by
  refine Gives.of_eq ?_ fun c hc => primary_super (Cursor.kind_of_words hc)
  change Gives _ ([Word.keyword .super ref.word.text] ++ ([Symbol.dot.word] ++
    ([Word.identifier method.text] ++ ([] ++ [])))) rest _
  refine gives_bind gives_take fun t ht => ?_
  refine gives_bind (gives_spelled .afterSuper) fun _ _ => ?_
  refine gives_bind (gives_identifier _) fun name hname => ?_
  refine gives_bind gives_fresh fun ref' href' => gives_pure ?_
  have hword : ref'.erase = ref.erase := by
    rw [Ref.erase_eq_iff, href', (Token.of_word_keyword ht).2]
  rw [Expr.erase, Expr.erase, hword, Lexeme.erase_eq_iff.mpr hname]

theorem gives_function (hg : Complete g k) {r : Routine} (hr : r.Grammatical)
    (hlength : ((Expr.function r).words ++ rest).length ≤ k) (hfuel : k ≤ fuel) :
    Gives (primary g fuel) (Expr.function r).words rest
      fun e => e.erase = (Expr.function r).erase := by
  obtain ⟨params, body⟩ := r
  obtain ⟨ws, hws⟩ : ∃ ws, Routine.words ⟨params, body⟩ = Symbol.leftParen.word :: ws := ⟨_, rfl⟩
  have hwords : (Expr.function ⟨params, body⟩).words =
      [Keyword.fun.word] ++ ([Symbol.leftParen.word] ++ (ws ++ [])) := by
    rw [List.append_nil]
    exact congrArg (Keyword.fun.word :: ·) hws
  refine Gives.of_eq ?_ fun c hc => primary_fun (Cursor.kind_of_words hc)
  rw [hwords] at hlength ⊢
  refine gives_bind gives_take fun _ _ => ?_
  refine gives_bind (gives_spelled .afterFun) fun _ _ => ?_
  refine gives_bind (gives_routine hg hr hws ?_ hfuel) fun r hr' => gives_pure ?_
  · simp only [List.length_append, List.length_cons] at hlength ⊢
    omega
  · obtain ⟨params', body'⟩ := r
    exact congrArg Expr.function hr'

theorem gives_grouping (hg : Complete g k) {inner : Expr} (hinner : inner.Grammatical)
    (hlength : ((Expr.grouping inner).words ++ rest).length ≤ k) :
    Gives (primary g fuel) (Expr.grouping inner).words rest
      fun e => e.erase = (Expr.grouping inner).erase := by
  have hwords : (Expr.grouping inner).words =
      [Symbol.leftParen.word] ++ (inner.words ++ ([Symbol.rightParen.word] ++ [])) := by
    simp
  refine Gives.of_eq ?_ fun c hc => primary_leftParen (Cursor.kind_of_words hc)
  rw [hwords] at hlength ⊢
  refine gives_bind gives_take fun _ _ => ?_
  refine gives_bind (hg.expression hinner (stops_of_none rfl) ?_) fun inner' hinner' => ?_
  · simp only [List.length_append, List.length_cons] at hlength ⊢
    omega
  · refine gives_bind (gives_spelled .afterGrouping) fun _ _ => gives_pure ?_
    rw [Expr.erase, Expr.erase, hinner']

/-- What starts and ends with tokens of its own is read to its end, whatever follows. -/
theorem gives_primary (hg : Complete g k) {e : Expr} (hle : Level.primary ≤ e.level)
    (he : e.Grammatical) (hlength : (e.words ++ rest).length ≤ k) (hfuel : k ≤ fuel) :
    Gives (primary g fuel) e.words rest fun e' => e'.erase = e.erase := by
  have heq : e.level = .primary := le_antisymm (Level.le_primary _) hle
  cases e with
  | literal value => exact gives_literal value
  | «variable» ref =>
    refine Gives.of_eq ?_ fun c hc => primary_identifier (Cursor.kind_of_words hc)
    exact gives_reference (fun ref' h => by rw [Expr.erase, Expr.erase, h])
      fun t ht => (Token.of_word_identifier ht).2
  | this ref =>
    refine Gives.of_eq ?_ fun c hc => primary_this (Cursor.kind_of_words hc)
    exact gives_reference (fun ref' h => by rw [Expr.erase, Expr.erase, h])
      fun t ht => (Token.of_word_keyword ht).2
  | super ref method => exact gives_super ref method
  | function r =>
    obtain ⟨params, body⟩ := r
    exact gives_function hg he hlength hfuel
  | grouping inner => exact gives_grouping hg he hlength
  | binary op sign left right => cases op <;> cases heq
  | logical op sign left right => cases op <;> cases heq
  | _ => cases heq

/-- The first argument does not look like the end of the arguments. -/
theorem kindAt_ne_rightParen (e : Expr) (rest : List Word) :
    kindAt (e.words ++ rest) ≠ .symbol .rightParen := by
  obtain ⟨w, ws, hws, hstart, -⟩ := (starts_words e).append rest
  rw [hws, kindAt_cons]
  intro hkind
  rw [hkind] at hstart
  cases hstart

theorem gives_arguments (hg : Complete g k) {tooMany : GrammarFault} {closing : SymbolPlace}
    {arguments : List Expr} {text : String} (hmost : arguments.length ≤ maxListed)
    (hall : Expr.AllGrammatical arguments) (hclosing : closing.symbol = .rightParen)
    (hlength : (commaSeparated (Expr.phrases arguments) ++
      Word.symbol .rightParen text :: rest).length < k) (hfuel : k ≤ fuel) :
    Gives (items tooMany closing (g .assignment) fuel)
      (commaSeparated (Expr.phrases arguments) ++ [Word.symbol .rightParen text]) rest
      fun out => Expr.eraseAll out.1 = Expr.eraseAll arguments ∧ out.2.lexeme.text = text := by
  rw [Expr.phrases_eq_map] at hlength ⊢
  simp only [Expr.eraseAll_eq_map]
  refine gives_items (k := k - 1) (fun e he rest' hrest' hlength' => ?_)
    (fun e _ rest' => kindAt_ne_rightParen e rest') hmost hclosing (by omega) (by omega)
  obtain ⟨hle, hgrammatical⟩ := Expr.allGrammatical_iff.mp hall e he
  refine hg.assignment hle hgrammatical ?_ (by omega)
  obtain hcomma | hparen := hrest'
  · exact stops_of_joins (l := .comma) (by rw [hcomma]; rfl) (by decide)
  · exact stops_of_none (by rw [hparen]; rfl)

/-- The loop over calls and properties goes on with a call. -/
theorem suffixesFrom_call (hg : Complete g k) {left : Expr} {arguments : List Expr}
    {text : String} {c : Cursor}
    (hc : c.words = [Symbol.leftParen.word] ++
      (commaSeparated (Expr.phrases arguments) ++ [Word.symbol .rightParen text] ++ rest))
    (hmost : arguments.length ≤ maxListed) (hall : Expr.AllGrammatical arguments)
    (hlength : c.words.length ≤ k) (hfuel : c.words.length ≤ fuel) :
    ∃ arguments' closing c',
      suffixesFrom g (fuel + 1) left c = suffixesFrom g fuel (.call left arguments' closing) c' ∧
      c'.words = rest ∧ c'.found = c.found ∧
        Expr.eraseAll arguments' = Expr.eraseAll arguments ∧ closing.text = text := by
  have hlist : Gives (items .tooManyArguments .afterArguments (g .assignment) fuel)
      (commaSeparated (Expr.phrases arguments) ++ [Word.symbol .rightParen text]) rest
      fun out => Expr.eraseAll out.1 = Expr.eraseAll arguments ∧ out.2.lexeme.text = text := by
    refine gives_arguments (hg.mono hlength) hmost hall rfl ?_ hfuel
    rw [hc]
    simp only [List.length_append, List.length_cons]
    omega
  obtain ⟨called, c₁, hskip, hrest₁, hfound₁, rfl⟩ :=
    gives_skip_symbol .leftParen c hc
  obtain ⟨out, c₂, hitems, hrest₂, hfound₂, hout⟩ := hlist c₁ hrest₁
  refine ⟨out.1, out.2.lexeme, c₂, ?_, hrest₂, hfound₂.trans hfound₁, hout⟩
  rw [suffixesFrom_succ, bind_of_ok hskip, if_pos rfl, bind_of_ok hitems]

/-- The loop over calls and properties goes on with a property. -/
theorem suffixesFrom_get {left : Expr} {text : String} {c : Cursor}
    (hc : c.words = [Symbol.dot.word] ++ ([Word.identifier text] ++ rest)) :
    ∃ property c', suffixesFrom g (fuel + 1) left c = suffixesFrom g fuel (.get left property) c' ∧
      c'.words = rest ∧ c'.found = c.found ∧ property.text = text := by
  have hnone : Gives (skip (.symbol .leftParen)) [] ([Symbol.dot.word] ++ ([Word.identifier text] ++ rest))
      fun here => here = false := gives_skip_other nofun
  obtain ⟨called, c₁, hskip, hrest₁, hfound₁, rfl⟩ := hnone c hc
  obtain ⟨dotted, c₂, hskip', hrest₂, hfound₂, rfl⟩ :=
    gives_skip_symbol .dot c₁ hrest₁
  obtain ⟨property, c₃, hname, hrest₃, hfound₃, htext⟩ :=
    gives_identifier .property c₂ hrest₂
  refine ⟨property, c₃, ?_, hrest₃, hfound₃.trans (hfound₂.trans hfound₁), htext⟩
  rw [suffixesFrom_succ, bind_of_ok hskip, if_neg Bool.false_ne_true, bind_of_ok hskip',
    if_pos rfl, bind_of_ok hname]

/-- The loop over calls and properties stops where neither follows. -/
theorem suffixesFrom_stop {e : Expr} {c : Cursor} (hrest : Stops .call c.words) :
    suffixesFrom g (fuel + 1) e c = .ok e c := by
  have hother (s : Symbol) (hs : joiningLevel (.symbol s) = some .call) :
      skip (.symbol s) c = .ok false c := by
    refine if_neg fun hkind => ?_
    rw [Cursor.kind_of_words rfl] at hkind
    exact lt_irrefl _ (hrest .call (by rw [hkind, hs]))
  rw [suffixesFrom_succ, bind_of_ok (hother .leftParen rfl), if_neg Bool.false_ne_true,
    bind_of_ok (hother .dot rfl), if_neg Bool.false_ne_true]
  rfl

/-- Calls and properties are read after what they apply to. The induction is on how much there
is to read. -/
theorem reaches_call (hg : Complete g k) {e : Expr} (hle : Level.call ≤ e.level)
    (he : e.Grammatical) (hlength : (e.words ++ rest).length ≤ k) (hfuel : k < fuel) :
    Reaches (call g fuel) (suffixesFrom g) e rest := by
  induction hn : e.words.length using Nat.strongRecOn generalizing e rest with
  | ind n ih =>
    rcases hle.lt_or_eq with hlt | heq
    · have hprimary : Level.primary ≤ e.level := (Level.lt_iff_le rfl).mp hlt
      refine reaches_first (gives_primary hg hprimary he hlength hfuel.le) ?_
      rw [List.length_append] at hlength
      omega
    cases e with
    | call callee arguments closing =>
      have hwords : (Expr.call callee arguments closing).words = callee.words ++
          ([Symbol.leftParen.word] ++ (commaSeparated (Expr.phrases arguments) ++
            [Word.symbol .rightParen closing.text])) := by
        simp
      rw [hwords, List.append_assoc] at hlength
      have hshorter : callee.words.length < n := by
        rw [← hn, hwords]
        simp only [List.length_append, List.length_cons]
        omega
      have hcallee := ih _ hshorter he.1.1 he.1.2 hlength rfl
      refine hcallee.round hwords fun fuel₁ left' c hc hleft' hfuel₁ => ?_
      rw [← hc] at hfuel₁
      have hshort : c.words.length ≤ k := by
        rw [hc]
        rw [List.length_append] at hlength
        omega
      cases fuel₁ with
      | zero => omega
      | succ fuel₁ =>
        have hfuel₂ := Nat.le_of_lt_succ hfuel₁
        rw [List.append_assoc] at hc
        obtain ⟨arguments', closing', c', hact, hrest, hfound, hall, htext⟩ :=
          suffixesFrom_call hg hc he.2.1 he.2.2 hshort hfuel₂
        refine ⟨_, fuel₁, c', hact, hrest, hfound, ?_, ?_⟩
        · rw [Expr.erase, Expr.erase, hleft', hall, Lexeme.erase_eq_iff.mpr htext]
        · rw [hc] at hfuel₂
          simp only [List.length_append, List.length_cons] at hfuel₂
          omega
    | get object property =>
      have hwords : (Expr.get object property).words =
          object.words ++ ([Symbol.dot.word] ++ [Word.identifier property.text]) := by
        simp
      rw [hwords, List.append_assoc] at hlength
      have hshorter : object.words.length < n := by
        rw [← hn, hwords]
        simp only [List.length_append, List.length_cons]
        omega
      have hobject := ih _ hshorter he.1.1 he.1.2 hlength rfl
      refine hobject.round hwords fun fuel₁ left' c hc hleft' hfuel₁ => ?_
      rw [List.append_assoc] at hc
      cases fuel₁ with
      | zero => omega
      | succ fuel₁ =>
        obtain ⟨property', c', hact, hrest, hfound, htext⟩ := suffixesFrom_get hc
        refine ⟨_, fuel₁, c', hact, hrest, hfound, ?_, ?_⟩
        · rw [Expr.erase, Expr.erase, hleft', Lexeme.erase_eq_iff.mpr htext]
        · simp only [List.length_append, List.length_cons] at hfuel₁
          omega
    | binary op sign left right => cases op <;> cases heq
    | logical op sign left right => cases op <;> cases heq
    | _ => cases heq

theorem gives_call (hg : Complete g k) {e : Expr} (hle : Level.call ≤ e.level)
    (he : e.Grammatical) (hrest : Stops .call rest) (hlength : (e.words ++ rest).length ≤ k)
    (hfuel : k < fuel) :
    Gives (call g fuel) e.words rest fun e' => e'.erase = e.erase := by
  refine (reaches_call hg hle he hlength hfuel).gives fun fuel₁ e' c hc hfuel₁ => ?_
  cases fuel₁ with
  | zero => omega
  | succ fuel₁ => exact suffixesFrom_stop (by rw [hc]; exact hrest)

/-- A call starts with no operator. The induction is down what is called. -/
theorem unaryOp_none_of_call : (e : Expr) → Level.call ≤ e.level → e.Grammatical →
    ∃ w ws, e.words = w :: ws ∧ unaryOp w.kind = none
  | .literal value, _, _ => by
    refine ⟨value.word, [], rfl, ?_⟩
    cases value with
    | bool b => cases b <;> rfl
    | _ => rfl
  | .variable _, _, _ | .grouping _, _, _ | .this _, _, _ | .super _ _, _, _ => ⟨_, _, rfl, rfl⟩
  | .function ⟨_, _⟩, _, _ => ⟨_, _, rfl, rfl⟩
  | .call callee _ _, _, he => by
    obtain ⟨w, ws, hws, hop⟩ := unaryOp_none_of_call callee he.1.1 he.1.2
    rw [Expr.words, hws]
    exact ⟨w, _, rfl, hop⟩
  | .get object _, _, he => by
    obtain ⟨w, ws, hws, hop⟩ := unaryOp_none_of_call object he.1.1 he.1.2
    rw [Expr.words, hws]
    exact ⟨w, _, rfl, hop⟩
  | .binary op _ _ _, hle, _ => absurd hle (not_le.mpr (op.level_lt_unary.trans (by decide)))
  | .logical op _ _ _, hle, _ => absurd hle (not_le.mpr (op.level_lt_unary.trans (by decide)))
  | .assign _ _, hle, _ | .set _ _ _, hle, _ => absurd hle (by decide : ¬ Level.call ≤ .assignment)
  | .unary _ _ _, hle, _ => absurd hle (by decide : ¬ Level.call ≤ .unary)
  | .comma _ _, hle, _ => absurd hle (by decide : ¬ Level.call ≤ .comma)
  | .conditional _ _ _, hle, _ => absurd hle (by decide : ¬ Level.call ≤ .conditional)

theorem gives_unary (hg : Complete g k) (hfuel : k < fuel) : Restores (unary g fuel) .unary k := by
  intro e rest hle he hrest hlength
  rcases hle.lt_or_eq with hlt | heq
  · have hcall : Level.call ≤ e.level := (Level.lt_iff_le rfl).mp hlt
    obtain ⟨w, ws, hws, hop⟩ := unaryOp_none_of_call e hcall he
    refine (gives_call hg hcall he (hrest.mono (by decide)) hlength hfuel).of_eq fun c hc => ?_
    rw [hws] at hc
    have hkind : c.kind = w.kind := Cursor.kind_of_words hc
    exact unary_none (by rw [hkind, hop])
  cases e with
  | unary op sign operand =>
    have hop : unaryOp (.symbol op.symbol) = some op := by cases op <;> rfl
    have hwords : (Expr.unary op sign operand).words =
        [Word.symbol op.symbol sign.text] ++ (operand.words ++ []) := by
      simp
    have hunary (c : Cursor) (hc : c.words = (Expr.unary op sign operand).words ++ rest) :
        unary g fuel c = (take >>= fun word => g .unary >>= fun operand =>
          pure (.unary op word.lexeme operand)) c := by
      have hkind : c.kind = .symbol op.symbol := Cursor.kind_of_words hc
      exact unary_some (by rw [hkind, hop])
    refine Gives.of_eq ?_ hunary
    rw [hwords] at hlength ⊢
    refine gives_bind gives_take fun t ht => ?_
    refine gives_bind (hg .unary operand rest ⟨he.1, he.2, hrest⟩ ?_) fun e' he' => gives_pure ?_
    · simp only [List.length_append, List.length_cons] at hlength
      change (operand.words ++ rest).length < k
      rw [List.length_append]
      omega
    · have halike : e'.erase = operand.erase := he'
      rw [Expr.erase, Expr.erase, halike, Lexeme.erase_eq_iff.mpr (Token.of_word_symbol ht).2]
  | binary op sign left right => cases op <;> cases heq
  | logical op sign left right => cases op <;> cases heq
  | _ => cases heq

/-! ## Operators with two operands -/

/-- The operators of a rank are read if their operands are. -/
theorem gives_rank (rank : Rank) {l : Level} (hl : l.depth = rank.level.depth + 1)
    {operand : Parser Expr} (hoperand : Restores operand l k) (hfuel : k < fuel) :
    Restores (chain rank.join operand fuel) rank.level k := by
  intro e rest hle he hrest hlength
  refine gives_chain (decomposes_rank rank) (fun _ _ => joiningLevel_of_join) ?_ hle he hrest
    hlength hfuel
  intro e rest hle he hrest hlength
  have hlt : rank.level < l := (Level.lt_iff_le hl).mpr (le_refl l)
  exact hoperand e rest ((Level.lt_iff_le hl).mp hle) he (fun l' hl' => (hrest l' hl').trans_lt hlt)
    hlength

theorem gives_disjunction (hg : Complete g k) (hfuel : k < fuel) :
    Restores (disjunction g fuel) .disjunction k := by
  have hproduct : Restores (product g fuel) .product k :=
    gives_rank .product rfl (gives_unary hg hfuel) hfuel
  have hsum : Restores (sum g fuel) .sum k :=
    gives_rank .sum rfl hproduct hfuel
  have hcomparison : Restores (comparison g fuel) .comparison k :=
    gives_rank .comparison rfl hsum hfuel
  have hequality : Restores (equality g fuel) .equality k :=
    gives_rank .equality rfl hcomparison hfuel
  have hconjunction : Restores (conjunction g fuel) .conjunction k :=
    gives_rank .conjunction rfl hequality hfuel
  exact gives_rank .disjunction rfl hconjunction hfuel

/-- What does not go on with an expression is not the word that would. -/
theorem Stops.ne {l : Level} (h : Stops l rest) {kind : Kind} (hkind : joiningLevel kind = some l) :
    kindAt rest ≠ kind := by
  rintro rfl
  exact lt_irrefl l (h l hkind)

theorem gives_conditional (hg : Complete g k) (hfuel : k < fuel) :
    Restores (conditional g fuel) .conditional k := by
  intro e rest hle he hrest hlength
  unfold conditional
  rcases hle.lt_or_eq with hlt | heq
  · have hdisjunction : Level.disjunction ≤ e.level := (Level.lt_iff_le rfl).mp hlt
    have hread : e.words = e.words ++ ([] ++ []) := by simp
    change Gives _ e.words rest _
    rw [hread]
    refine gives_bind (gives_disjunction hg hfuel e rest hdisjunction he (hrest.mono (by decide))
      hlength) fun e' he' => ?_
    refine gives_bind (gives_skip_other (hrest.ne rfl)) fun more hmore => ?_
    subst hmore
    exact gives_pure he'
  cases e with
  | conditional condition whenTrue whenFalse =>
    have hwords : (Expr.conditional condition whenTrue whenFalse).words =
        condition.words ++ ([Symbol.question.word] ++ (whenTrue.words ++
          ([Symbol.colon.word] ++ (whenFalse.words ++ [])))) := by
      simp
    obtain ⟨⟨hlevel₁, he₁⟩, he₂, hlevel₃, he₃⟩ := he
    rw [hwords] at hlength ⊢
    simp only [List.length_append, List.length_cons] at hlength
    refine gives_bind (gives_disjunction hg hfuel condition _ ?_ he₁ ?_ ?_) fun e₁ halike₁ => ?_
    · exact (Level.lt_iff_le rfl).mp hlevel₁
    · exact stops_of_joins (l := .conditional) rfl (by decide)
    · simp only [List.length_append, List.length_cons]
      omega
    refine gives_bind (gives_skip_symbol .question) fun more hmore => ?_
    subst hmore
    rw [if_pos rfl]
    refine gives_bind (hg.expression he₂ (stops_of_none rfl) ?_) fun e₂ halike₂ => ?_
    · simp only [List.length_append, List.length_cons]
      omega
    refine gives_bind (gives_spelled .afterThenBranch) fun _ _ => ?_
    refine gives_bind (hg .conditional whenFalse rest ⟨hlevel₃, he₃, hrest⟩ ?_)
      fun e₃ halike₃ => gives_pure ?_
    · change (whenFalse.words ++ rest).length < k
      rw [List.length_append]
      omega
    · have halike₃' : e₃.erase = whenFalse.erase := halike₃
      rw [Expr.erase, Expr.erase, halike₁, halike₂, halike₃']
  | binary op sign left right => cases op <;> cases heq
  | logical op sign left right => cases op <;> cases heq
  | _ => cases heq

/-! ## Assignments -/

theorem eq_variable_of_erase {e : Expr} {ref : Ref} (h : e.erase = (Expr.variable ref).erase) :
    ∃ ref', e = .variable ref' ∧ ref'.erase = ref.erase := by
  cases e with
  | «variable» ref' => exact ⟨ref', rfl, Expr.variable.inj h⟩
  | function r =>
    obtain ⟨params, body⟩ := r
    cases h
  | _ => cases h

theorem eq_get_of_erase {e object : Expr} {property : Lexeme}
    (h : e.erase = (Expr.get object property).erase) :
    ∃ object' property', e = .get object' property' ∧ object'.erase = object.erase ∧
      property'.erase = property.erase := by
  cases e with
  | get object' property' => exact ⟨object', property', rfl, Expr.get.inj h⟩
  | function r =>
    obtain ⟨params, body⟩ := r
    cases h
  | _ => cases h

/-- An assignment is read as its target first, which then turns out to be one. -/
theorem gives_assigned (hg : Complete g k) (hfuel : k < fuel) {e target value : Expr}
    (hwords : e.words = target.words ++ ([Symbol.equal.word] ++ (value.words ++ [])))
    (htarget : Level.conditional ≤ target.level ∧ target.Grammatical)
    (hvalue : Level.assignment ≤ value.level ∧ value.Grammatical)
    (hassign : ∀ target' value', target'.erase = target.erase → value'.erase = value.erase →
      ∃ e', assignTo? target' value' = some e' ∧ e'.erase = e.erase)
    (hrest : Stops .assignment rest) (hlength : (e.words ++ rest).length ≤ k) :
    Gives (assignment g fuel) e.words rest fun e' => e'.erase = e.erase := by
  unfold assignment
  rw [hwords] at hlength ⊢
  simp only [List.length_append, List.length_cons] at hlength
  refine gives_bind (gives_conditional hg hfuel target _ htarget.1 htarget.2 ?_ ?_)
    fun target' htarget' => ?_
  · exact stops_of_joins (l := .assignment) rfl (by decide)
  · simp only [List.length_append, List.length_cons]
    omega
  change Gives _ ([] ++ _) rest _
  refine gives_bind gives_looksAt fun here hhere => ?_
  have hhere' : here = true := hhere.trans (decide_eq_true rfl)
  subst hhere'
  rw [if_pos rfl]
  refine gives_bind gives_take fun _ _ => ?_
  refine gives_bind (hg.assignment hvalue.1 hvalue.2 hrest ?_) fun value' hvalue' => ?_
  · simp only [List.length_append]
    omega
  obtain ⟨e', hsome, he'⟩ := hassign target' value' htarget' hvalue'
  rw [hsome]
  exact gives_pure he'

theorem gives_assignment (hg : Complete g k) (hfuel : k < fuel) :
    Restores (assignment g fuel) .assignment k := by
  intro e rest hle he hrest hlength
  rcases hle.lt_or_eq with hlt | heq
  · have hconditional : Level.conditional ≤ e.level := (Level.lt_iff_le rfl).mp hlt
    have hread : e.words = e.words ++ ([] ++ []) := by simp
    unfold assignment
    rw [hread]
    refine gives_bind (gives_conditional hg hfuel e rest hconditional he (hrest.mono (by decide))
      hlength) fun e' he' => ?_
    refine gives_bind gives_looksAt fun here hhere => ?_
    have hhere' : here = false := hhere.trans (decide_eq_false (hrest.ne rfl))
    subst hhere'
    exact gives_pure he'
  cases e with
  | assign ref value =>
    have hwords : (Expr.assign ref value).words =
        (Expr.variable ref).words ++ ([Symbol.equal.word] ++ (value.words ++ [])) := by
      simp
    refine gives_assigned hg hfuel hwords ⟨Level.le_primary _, he.1⟩ he.2 ?_ hrest hlength
    intro target' value' htarget hvalue
    obtain ⟨ref', rfl, href⟩ := eq_variable_of_erase htarget
    exact ⟨_, rfl, by rw [Expr.erase, Expr.erase, href, hvalue]⟩
  | set object property value =>
    have hwords : (Expr.set object property value).words =
        (Expr.get object property).words ++ ([Symbol.equal.word] ++ (value.words ++ [])) := by
      simp
    refine gives_assigned hg hfuel hwords
      ⟨(by decide : Level.conditional ≤ .call), he.1, he.2.1⟩ he.2.2 ?_ hrest hlength
    intro target' value' htarget hvalue
    obtain ⟨object', property', rfl, hobject, hproperty⟩ := eq_get_of_erase htarget
    exact ⟨_, rfl, by rw [Expr.erase, Expr.erase, hobject, hproperty, hvalue]⟩
  | binary op sign left right => cases op <;> cases heq
  | logical op sign left right => cases op <;> cases heq
  | _ => cases heq

theorem gives_expression (hg : Complete g k) (hfuel : k < fuel) :
    Restores (expression g fuel) .comma k := by
  intro e rest hle he hrest hlength
  refine gives_chain decomposes_comma (fun _ _ => joiningLevel_of_commaJoin) ?_ hle he hrest
    hlength hfuel
  intro e rest hlt he hrest hlength
  have hle : Level.assignment ≤ e.level := (Level.lt_iff_le rfl).mp hlt
  exact gives_assignment hg hfuel e rest hle he (fun l' hl' => (hrest l' hl').trans_lt (by decide))
    hlength

end ScriptLang.Grammar
