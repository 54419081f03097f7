import ScriptLang.Proofs.Grammar.Completeness.Expressions

/-!
# Giving statements back

The rules for statements and declarations give back the trees of their nonterminals, as those
for expressions do. The first word of a statement tells which rule reads it. A statement that
ends in a choice without an `else` must not be followed by an `else`, which that choice would
take.
-/

namespace ScriptLang.Grammar

variable {g : Grammar} {fuel k : Nat} {rest : List Word}

/-! ## Declared variables -/

theorem gives_declarator (hg : Complete g k) {d : Declarator}
    (hd : Declarator.AllGrammatical [d])
    (hrest : kindAt rest = .symbol .comma ∨ kindAt rest = .symbol .semicolon)
    (hlength : (d.phrase ++ rest).length < k) :
    Gives (declarator g) d.phrase rest fun d' => d'.erase = d.erase := by
  obtain ⟨name, initializer⟩ := d
  unfold declarator
  cases initializer with
  | none =>
    have hother : kindAt rest ≠ .symbol .equal := by
      intro hequal
      rw [hequal] at hrest
      obtain h | h := hrest <;> cases h
    change Gives _ ([Word.identifier name.text] ++ ([] ++ [])) rest _
    refine gives_bind (gives_identifier .variable) fun name' hname => ?_
    refine gives_bind (gives_following_other hother) fun initializer' hnone => ?_
    subst hnone
    exact gives_pure (by rw [Declarator.erase, Declarator.erase, Lexeme.erase_eq_iff.mpr hname])
  | some e =>
    have hstops : Stops .assignment rest := by
      obtain hcomma | hsemicolon := hrest
      · exact stops_of_joins (l := .comma) (by rw [hcomma]; rfl) (by decide)
      · exact stops_of_none (by rw [hsemicolon]; rfl)
    obtain ⟨-, ⟨hle, he⟩, -⟩ := hd
    have hphrase : Declarator.phrase ⟨name, some e⟩ =
        [Word.identifier name.text] ++ (Symbol.equal.word :: e.words ++ []) := by
      simp [Declarator.phrase]
    rw [hphrase] at hlength ⊢
    simp only [List.length_append, List.length_cons] at hlength
    refine gives_bind (gives_identifier .variable) fun name' hname => ?_
    refine gives_bind (gives_following rfl (hg.assignment hle he hstops ?_))
      fun initializer' hsome => ?_
    · simp only [List.length_append]
      omega
    · obtain ⟨e', rfl, he'⟩ := hsome
      refine gives_pure ?_
      rw [Declarator.erase, Declarator.erase, Lexeme.erase_eq_iff.mpr hname, Option.map_some,
        Option.map_some, he']

/-- The variables that are left, each read up to the comma behind it. None of them is dropped,
as their names differ. -/
theorem gives_declaratorsFrom (hg : Complete g k) {ds done : List Declarator} (hds : ds ≠ [])
    (hgrammatical : Declarator.AllGrammatical ds)
    (hnames : ((done ++ ds).map (·.name.text)).Nodup) (hrest : kindAt rest = .symbol .semicolon)
    (hlength : (commaSeparated (ds.map Declarator.phrase) ++ rest).length < k)
    (hfuel : ds.length ≤ fuel) :
    Gives (declaratorsFrom g fuel done) (commaSeparated (ds.map Declarator.phrase)) rest
      fun ds' => ds'.map Declarator.erase = (done ++ ds).map Declarator.erase := by
  induction ds generalizing done fuel with
  | nil => exact absurd rfl hds
  | cons d ds ih =>
    cases fuel with
    | zero => simp at hfuel
    | succ fuel =>
      have hsplit : Declarator.AllGrammatical ([d] ++ ds) := hgrammatical
      obtain ⟨hd, hlater⟩ := Declarator.allGrammatical_append.mp hsplit
      have hnew (d' : Declarator) (halike : d'.erase = d.erase) :
          d'.name.text = d.name.text ∧ done.any (·.name.text = d'.name.text) = false := by
        have htext : d'.name.text = d.name.text :=
          Lexeme.erase_eq_iff.mp (congrArg Declarator.name halike)
        refine ⟨htext, ?_⟩
        rw [List.map_append, List.nodup_append] at hnames
        rw [List.any_eq_false, htext]
        intro x hx
        simpa using hnames.2.2 _ (List.mem_map_of_mem hx) d.name.text (by simp)
      rw [declaratorsFrom_succ]
      change Gives _ ([] ++ _) rest _
      refine gives_bind gives_peek fun token _ => ?_
      cases ds with
      | nil =>
        have hread : commaSeparated ([d].map Declarator.phrase) = d.phrase ++ ([] ++ []) := by
          simp [commaSeparated]
        have hother : kindAt rest ≠ .symbol .comma := by
          rw [hrest]
          exact nofun
        rw [hread]
        refine gives_bind (gives_declarator hg hd (.inr hrest) hlength) fun d' halike => ?_
        rw [(hnew d' halike).2, if_neg Bool.false_ne_true, pure_bind]
        refine gives_bind (gives_skip_other hother) fun more hmore => ?_
        subst hmore
        exact gives_pure (by simp [halike])
      | cons second ds =>
        rw [List.map_cons, List.map_cons, commaSeparated_cons_cons] at hlength ⊢
        rw [List.append_assoc] at hlength
        refine gives_bind (gives_declarator hg hd (.inl rfl) hlength) fun d' halike => ?_
        rw [(hnew d' halike).2, if_neg Bool.false_ne_true, pure_bind]
        change Gives _ ([Symbol.comma.word] ++ commaSeparated ((second :: ds).map Declarator.phrase))
          rest _
        refine gives_bind (gives_skip_symbol .comma) fun more hmore => ?_
        subst hmore
        have hnames' : ((done ++ [d'] ++ second :: ds).map (·.name.text)).Nodup := by
          simpa [(hnew d' halike).1] using hnames
        have hlength' : (commaSeparated ((second :: ds).map Declarator.phrase) ++ rest).length < k := by
          simp only [List.map_cons, List.length_append, List.length_cons] at hlength ⊢
          omega
        have hread := ih (List.cons_ne_nil second ds) hlater hnames' hlength'
          (Nat.le_of_succ_le_succ hfuel)
        refine hread.mono fun ds' hds' => ?_
        rw [hds']
        simp [halike]

theorem gives_varDeclaration (hg : Complete g k) {ds : List Declarator}
    (hds : (Stmt.vars ds).Grammatical) (hlength : ((Stmt.vars ds).words ++ rest).length ≤ k)
    (hfuel : k ≤ fuel) :
    Gives (varDeclaration g fuel) (Stmt.vars ds).words rest
      fun s => s.erase = (Stmt.vars ds).erase := by
  have hwords : (Stmt.vars ds).words = [Keyword.var.word] ++
      (commaSeparated (ds.map Declarator.phrase) ++ ([Symbol.semicolon.word] ++ [])) := by
    simp [Declarator.phrases_eq_map]
  have hcount := length_le_commaSeparated (ds.map Declarator.phrase)
  rw [hwords] at hlength ⊢
  simp only [List.length_append, List.length_cons] at hlength
  rw [List.length_map] at hcount
  unfold varDeclaration
  refine gives_bind gives_take fun _ _ => ?_
  refine gives_bind (gives_declaratorsFrom hg hds.1 hds.2.2 hds.2.1 rfl ?_ ?_) fun ds' hds' => ?_
  · simp only [List.length_append, List.length_cons]
    omega
  · omega
  refine gives_bind (gives_spelled .afterVariables) fun _ _ => gives_pure ?_
  rw [Stmt.erase, Stmt.erase, Declarator.eraseAll_eq_map, hds', Declarator.eraseAll_eq_map]
  rfl

/-! ## Statements -/

theorem gives_expressionStatement (hg : Complete g k) {e : Expr} (he : e.Grammatical)
    (hlength : ((Stmt.expression e).words ++ rest).length ≤ k) (hfuel : k < fuel) :
    Gives (expressionStatement g fuel) (Stmt.expression e).words rest
      fun s => s.erase = (Stmt.expression e).erase := by
  have hwords : (Stmt.expression e).words = e.words ++ ([Symbol.semicolon.word] ++ []) := by simp
  rw [hwords, List.append_assoc] at hlength
  rw [hwords]
  unfold expressionStatement
  refine gives_bind (gives_expression hg hfuel e _ (Level.comma_le _) he (stops_of_none rfl)
    hlength) fun e' he' => ?_
  refine gives_bind (gives_spelled .afterExpressionStatement) fun _ _ => gives_pure ?_
  rw [Stmt.erase, Stmt.erase, he']

theorem gives_printStatement (hg : Complete g k) {e : Expr} (he : e.Grammatical)
    (hlength : ((Stmt.print e).words ++ rest).length ≤ k) :
    Gives (printStatement g) (Stmt.print e).words rest
      fun s => s.erase = (Stmt.print e).erase := by
  have hwords : (Stmt.print e).words =
      [Keyword.print.word] ++ (e.words ++ ([Symbol.semicolon.word] ++ [])) := by
    simp
  rw [hwords] at hlength ⊢
  simp only [List.length_append, List.length_cons] at hlength
  unfold printStatement
  refine gives_bind gives_take fun _ _ => ?_
  refine gives_bind (hg.expression he (stops_of_none rfl) ?_) fun e' he' => ?_
  · simp only [List.length_append, List.length_cons]
    omega
  refine gives_bind (gives_spelled .afterPrinted) fun _ _ => gives_pure ?_
  rw [Stmt.erase, Stmt.erase, he']

theorem gives_breakStatement (keyword : Lexeme) :
    Gives breakStatement (Stmt.breakLoop keyword).words rest
      fun s => s.erase = (Stmt.breakLoop keyword).erase := by
  unfold breakStatement
  change Gives _ ([Word.keyword .break keyword.text] ++ ([Symbol.semicolon.word] ++ [])) rest _
  refine gives_bind gives_take fun t ht => ?_
  refine gives_bind (gives_spelled .afterBreak) fun _ _ => gives_pure ?_
  rw [Stmt.erase, Stmt.erase, Lexeme.erase_eq_iff.mpr (Token.of_word_keyword ht).2]

/-- What a `return` gives back, if anything, stands before a semicolon. -/
theorem gives_returned (hg : Complete g k) {value : Option Expr}
    (hvalue : ∀ e ∈ value, e.Grammatical)
    (hlength : ((value.map Expr.words).getD [] ++ Symbol.semicolon.word :: rest).length < k) :
    Gives (clauseUpTo g .semicolon) ((value.map Expr.words).getD [])
      (Symbol.semicolon.word :: rest) fun value' => value'.map Expr.erase = value.map Expr.erase := by
  unfold clauseUpTo
  change Gives _ ([] ++ _) _ _
  refine gives_bind gives_looksAt fun missing hmissing => ?_
  subst hmissing
  cases value with
  | none => exact gives_pure rfl
  | some e =>
    have hpresent : kindAt (e.words ++ Symbol.semicolon.word :: rest) ≠ .symbol .semicolon := by
      obtain ⟨w, ws, hws, hstart, -⟩ := (starts_words e).append (Symbol.semicolon.word :: rest)
      rw [hws, kindAt_cons]
      intro hkind
      rw [hkind] at hstart
      cases hstart
    change Gives (if decide (kindAt (e.words ++ _) = _) then _ else _) e.words _ _
    rw [decide_eq_false hpresent, if_neg Bool.false_ne_true]
    refine (gives_map (hg.expression (hvalue e rfl) (stops_of_none rfl) hlength)).mono ?_
    rintro value' ⟨e', rfl, he'⟩
    rw [Option.map_some, he', Option.map_some]

theorem gives_returnStatement (hg : Complete g k) {keyword : Lexeme} {value : Option Expr}
    (hvalue : (Stmt.returnFrom keyword value).Grammatical)
    (hlength : ((Stmt.returnFrom keyword value).words ++ rest).length ≤ k) :
    Gives (returnStatement g) (Stmt.returnFrom keyword value).words rest
      fun s => s.erase = (Stmt.returnFrom keyword value).erase := by
  have hwords : (Stmt.returnFrom keyword value).words = [Word.keyword .return keyword.text] ++
      ((value.map Expr.words).getD [] ++ ([Symbol.semicolon.word] ++ [])) := by
    cases value <;> simp
  have herase (keyword : Lexeme) (value : Option Expr) : (Stmt.returnFrom keyword value).erase =
      .returnFrom keyword.erase (value.map Expr.erase) := by
    cases value <;> rfl
  have hgrammatical : ∀ e ∈ value, e.Grammatical := by
    rintro e rfl
    exact hvalue
  rw [hwords] at hlength ⊢
  simp only [List.length_append, List.length_cons] at hlength
  have hshort : ((value.map Expr.words).getD [] ++ Symbol.semicolon.word :: rest).length < k := by
    simp only [List.length_append, List.length_cons]
    omega
  unfold returnStatement
  refine gives_bind gives_take fun t ht => ?_
  refine gives_bind (gives_returned hg hgrammatical hshort) fun value' hvalue' => ?_
  refine gives_bind (gives_spelled .afterReturned) fun _ _ => gives_pure ?_
  rw [herase, herase, hvalue', Lexeme.erase_eq_iff.mpr (Token.of_word_keyword ht).2]

theorem gives_blockStatement (hg : Complete g k) {body : List Stmt}
    (hbody : Stmt.AllGrammatical body)
    (hlength : ((Stmt.block body).words ++ rest).length ≤ k) (hfuel : k ≤ fuel) :
    Gives (blockStatement g fuel) (Stmt.block body).words rest
      fun s => s.erase = (Stmt.block body).erase := by
  have hwords : (Stmt.block body).words = [Symbol.leftBrace.word] ++
      (Stmt.listWords body ++ [Symbol.rightBrace.word] ++ []) := by
    simp
  rw [hwords] at hlength ⊢
  simp only [List.length_append, List.length_cons] at hlength
  unfold blockStatement
  refine gives_bind gives_take fun _ _ => ?_
  refine gives_bind (gives_block hg hbody ?_ hfuel) fun body' hbody' => gives_pure ?_
  · simp only [List.length_append, List.length_cons]
    omega
  · rw [Stmt.erase, Stmt.erase, hbody']

theorem gives_whileStatement (hg : Complete g k) {condition : Expr} {body : Stmt}
    (hs : (Stmt.whileLoop condition body).Grammatical)
    (hrest : body.endsOpen → kindAt rest ≠ .keyword .else)
    (hlength : ((Stmt.whileLoop condition body).words ++ rest).length ≤ k) :
    Gives (whileStatement g) (Stmt.whileLoop condition body).words rest
      fun s => s.erase = (Stmt.whileLoop condition body).erase := by
  have hwords : (Stmt.whileLoop condition body).words = [Keyword.while.word] ++
      ([Symbol.leftParen.word] ++ (condition.words ++ ([Symbol.rightParen.word] ++
        (body.words ++ [])))) := by
    simp
  rw [hwords] at hlength ⊢
  simp only [List.length_append, List.length_cons] at hlength
  unfold whileStatement
  refine gives_bind gives_take fun _ _ => ?_
  refine gives_bind (gives_spelled .afterWhile) fun _ _ => ?_
  refine gives_bind (hg.expression hs.1 (stops_of_none rfl) ?_) fun condition' hcondition => ?_
  · simp only [List.length_append, List.length_cons]
    omega
  refine gives_bind (gives_spelled .afterCondition) fun _ _ => ?_
  refine gives_bind (hg.statement hs.2.1 hs.2.2 hrest ?_) fun body' hbody => gives_pure ?_
  · simp only [List.length_append]
    omega
  · rw [Stmt.erase, Stmt.erase, hcondition, hbody]

/-- The words of an `else` branch. -/
def elseWords : Option Stmt → List Word
  | none => []
  | some s => Keyword.else.word :: s.words

theorem erase_ifElse (condition : Expr) (whenTrue : Stmt) (whenFalse : Option Stmt) :
    (Stmt.ifElse condition whenTrue whenFalse).erase =
      .ifElse condition.erase whenTrue.erase (whenFalse.map Stmt.erase) := by
  cases whenFalse <;> rfl

/-- An `else` is read if it comes next, and belongs to the choice in front of it. -/
theorem gives_ifStatement (hg : Complete g k) {condition : Expr} {whenTrue : Stmt}
    {whenFalse : Option Stmt} (hcondition : condition.Grammatical)
    (htrue : whenTrue.Grammatical ∧ whenTrue.isDeclaration = false)
    (hopen : whenTrue.endsOpen → kindAt (elseWords whenFalse ++ rest) ≠ .keyword .else)
    (hfalse : Gives (following (.keyword .else) (g .statement)) (elseWords whenFalse) rest
      fun s => s.map Stmt.erase = whenFalse.map Stmt.erase)
    (hlength : ((Stmt.ifElse condition whenTrue whenFalse).words ++ rest).length ≤ k) :
    Gives (ifStatement g) (Stmt.ifElse condition whenTrue whenFalse).words rest
      fun s => s.erase = (Stmt.ifElse condition whenTrue whenFalse).erase := by
  have hwords : (Stmt.ifElse condition whenTrue whenFalse).words = [Keyword.if.word] ++
      ([Symbol.leftParen.word] ++ (condition.words ++ ([Symbol.rightParen.word] ++
        (whenTrue.words ++ (elseWords whenFalse ++ []))))) := by
    cases whenFalse <;> simp [elseWords]
  rw [hwords] at hlength ⊢
  simp only [List.length_append, List.length_cons] at hlength
  rw [ifStatement_eq]
  refine gives_bind gives_take fun _ _ => ?_
  refine gives_bind (gives_spelled .afterIf) fun _ _ => ?_
  refine gives_bind (hg.expression hcondition (stops_of_none rfl) ?_) fun condition' halike => ?_
  · simp only [List.length_append, List.length_cons]
    omega
  refine gives_bind (gives_spelled .afterIfCondition) fun _ _ => ?_
  refine gives_bind (hg.statement htrue.1 htrue.2 ?_ ?_) fun whenTrue' halike' => ?_
  · rwa [List.append_nil]
  · simp only [List.length_append]
    omega
  refine gives_bind hfalse fun whenFalse' halike'' => gives_pure ?_
  rw [erase_ifElse, erase_ifElse, halike, halike', halike'']

theorem statement_expression {c : Cursor} (h : startsExpression c.kind) :
    statement g fuel c = expressionStatement g fuel c := by
  unfold statement
  split <;> first | rfl | (rename_i hkind; rw [hkind] at h; cases h)

theorem gives_statement (hg : Complete g k) {s : Stmt} (hs : s.Grammatical)
    (hplain : s.isDeclaration = false) (hrest : s.endsOpen → kindAt rest ≠ .keyword .else)
    (hlength : (s.words ++ rest).length ≤ k) (hfuel : k < fuel) :
    Gives (statement g fuel) s.words rest fun s' => s'.erase = s.erase := by
  -- the first word tells which rule is the right one
  have hby {w : Word} {ws : List Word} {act : Parser Stmt} (hwords : s.words = w :: ws)
      (hact : ∀ c : Cursor, c.kind = w.kind → statement g fuel c = act c)
      (h : Gives act s.words rest fun s' => s'.erase = s.erase) :
      Gives (statement g fuel) s.words rest fun s' => s'.erase = s.erase := by
    refine h.of_eq fun c hc => hact c ?_
    rw [hwords] at hc
    exact Cursor.kind_of_words hc
  cases s with
  | expression e =>
    obtain ⟨w, ws, hws, hstart, -⟩ := (starts_words e).append [Symbol.semicolon.word]
    refine hby hws (fun c hkind => statement_expression (by rw [hkind]; exact hstart)) ?_
    exact gives_expressionStatement hg hs hlength hfuel
  | print e =>
    exact hby rfl (fun c hkind => by unfold statement; rw [hkind]; rfl)
      (gives_printStatement hg hs hlength)
  | block body =>
    exact hby rfl (fun c hkind => by unfold statement; rw [hkind]; rfl)
      (gives_blockStatement hg hs hlength hfuel.le)
  | ifElse condition whenTrue whenFalse =>
    have hif (c : Cursor) (hkind : c.kind = Keyword.if.word.kind) :
        statement g fuel c = ifStatement g c := by
      unfold statement
      rw [hkind]
      rfl
    cases whenFalse with
    | none =>
      refine hby rfl hif ?_
      refine gives_ifStatement hg hs.1 hs.2 (fun _ => hrest rfl) ?_ hlength
      refine (gives_following_other (hrest rfl)).mono ?_
      rintro _ rfl
      rfl
    | some whenFalse =>
      obtain ⟨hcondition, ⟨htrue, hplain₁, hclosed⟩, hfalse, hplain₂⟩ := hs
      refine hby rfl hif ?_
      refine gives_ifStatement hg hcondition ⟨htrue, hplain₁⟩ ?_ ?_ hlength
      · intro hopen
        rw [hclosed] at hopen
        cases hopen
      · refine (gives_following rfl (hg.statement hfalse hplain₂ hrest ?_)).mono ?_
        · simp only [Stmt.words, List.length_append, List.length_cons] at hlength ⊢
          omega
        · rintro _ ⟨s', rfl, hs'⟩
          rw [Option.map_some, Option.map_some, hs']
  | whileLoop condition body =>
    exact hby rfl (fun c hkind => by unfold statement; rw [hkind]; rfl)
      (gives_whileStatement hg hs hrest hlength)
  | breakLoop keyword =>
    exact hby rfl (fun c hkind => by unfold statement; rw [hkind]; rfl)
      (gives_breakStatement keyword)
  | returnFrom keyword value =>
    have hreturn (c : Cursor) (hkind : c.kind = .keyword .return) :
        statement g fuel c = returnStatement g c := by
      unfold statement
      rw [hkind]
    have hread := gives_returnStatement hg hs hlength
    cases value with
    | none => exact hby rfl hreturn hread
    | some e => exact hby rfl hreturn hread
  | vars ds => cases hplain
  | function name r => cases hplain
  | «class» name superclass members => cases hplain

/-! ## Routines with names -/

theorem gives_namedRoutine (hg : Complete g k) {kind : RoutineKind} {m : Method}
    (hm : m.routine.Grammatical)
    (hlength : (Word.identifier m.name.text :: m.routine.words ++ rest).length ≤ k) (hfuel : k ≤ fuel) :
    Gives (namedRoutine g fuel kind) (Word.identifier m.name.text :: m.routine.words) rest
      fun m' => m'.erase = m.erase := by
  obtain ⟨ws, hws⟩ : ∃ ws, m.routine.words = Symbol.leftParen.word :: ws := ⟨_, rfl⟩
  have hopening : (SymbolPlace.afterRoutineName kind).symbol = .leftParen := rfl
  have hwords : Word.identifier m.name.text :: m.routine.words =
      [Word.identifier m.name.text] ++ ([Symbol.leftParen.word] ++ (ws ++ [])) := by
    rw [hws, List.append_nil]
    rfl
  rw [hwords] at hlength ⊢
  simp only [List.length_append, List.length_cons] at hlength
  unfold namedRoutine
  refine gives_bind (gives_identifier (.routine kind)) fun name hname => ?_
  refine gives_bind (gives_spelled (.afterRoutineName kind)) fun _ _ => ?_
  refine gives_bind (gives_routine hg hm hws ?_ hfuel) fun r hr => gives_pure ?_
  · simp only [List.length_append]
    omega
  · rw [Method.erase, Method.erase, Lexeme.erase_eq_iff.mpr hname, hr]

theorem words_function (name : Lexeme) (r : Routine) :
    (Stmt.function name r).words = Keyword.fun.word :: Word.identifier name.text :: r.words := by
  obtain ⟨params, body⟩ := r
  rfl

theorem grammatical_function {name : Lexeme} {r : Routine} :
    (Stmt.function name r).Grammatical ↔ IsFree name.text ∧ r.Grammatical := by
  obtain ⟨params, body⟩ := r
  rfl

theorem erase_function (name : Lexeme) (r : Routine) :
    (Stmt.function name r).erase = .function name.erase r.erase := by
  obtain ⟨params, body⟩ := r
  rfl

theorem gives_functionDeclaration (hg : Complete g k) {name : Lexeme} {r : Routine}
    (hr : r.Grammatical) (hlength : ((Stmt.function name r).words ++ rest).length ≤ k)
    (hfuel : k ≤ fuel) :
    Gives (functionDeclaration g fuel) (Stmt.function name r).words rest
      fun s => s.erase = (Stmt.function name r).erase := by
  have hwords : (Stmt.function name r).words =
      [Keyword.fun.word] ++ (Word.identifier name.text :: r.words ++ []) := by
    rw [words_function, List.append_nil]
    rfl
  rw [hwords] at hlength ⊢
  simp only [List.length_append, List.length_cons] at hlength
  unfold functionDeclaration
  refine gives_bind gives_take fun _ _ => ?_
  refine gives_bind (gives_namedRoutine (m := ⟨name, r⟩) hg hr ?_ hfuel) fun m hm => gives_pure ?_
  · simp only [List.length_append, List.length_cons]
    omega
  · have hname : m.name.erase = name.erase := congrArg Method.name hm
    have hroutine : m.routine.erase = r.erase := congrArg Method.routine hm
    rw [erase_function, erase_function, hname, hroutine]

/-! ## Classes -/

theorem listWords_cons (m : Method) (members : List Method) :
    Method.listWords (m :: members) =
      Word.identifier m.name.text :: m.routine.words ++ Method.listWords members := by
  obtain ⟨name, params, body⟩ := m
  simp [Routine.words]

theorem allGrammatical_cons {m : Method} {members : List Method} :
    Method.AllGrammatical (m :: members) ↔
      (IsFree m.name.text ∧ m.routine.Grammatical) ∧ Method.AllGrammatical members := by
  obtain ⟨name, params, body⟩ := m
  rfl

theorem gives_methodsFrom (hg : Complete g k) {members done : List Method}
    (hmembers : Method.AllGrammatical members) (hrest : kindAt rest = .symbol .rightBrace)
    (hlength : (Method.listWords members ++ rest).length ≤ k)
    (hfuel : (Method.listWords members ++ rest).length < fuel) :
    Gives (methodsFrom g fuel done) (Method.listWords members) rest
      fun out => out.map Method.erase = (done.reverse ++ members).map Method.erase := by
  induction members generalizing done fuel with
  | nil =>
    cases fuel with
    | zero => simp at hfuel
    | succ fuel =>
      change Gives _ ([] ++ ([] ++ [])) rest _
      refine gives_bind gives_looksAt fun closed hclosed => ?_
      refine gives_bind gives_looksAt fun ended _ => ?_
      have hclosed' : closed = true := hclosed.trans (decide_eq_true hrest)
      subst hclosed'
      exact gives_pure (by rw [List.append_nil])
  | cons m members ih =>
    cases fuel with
    | zero => simp at hfuel
    | succ fuel =>
      obtain ⟨⟨-, hm⟩, hlater⟩ := allGrammatical_cons.mp hmembers
      rw [listWords_cons, List.append_assoc] at hlength hfuel
      rw [listWords_cons]
      change Gives _ ([] ++ ([] ++ _)) rest _
      refine gives_bind gives_looksAt fun closed hclosed => ?_
      refine gives_bind gives_looksAt fun ended hended => ?_
      have hclosed' : closed = false := hclosed.trans rfl
      have hended' : ended = false := hended.trans rfl
      subst hclosed' hended'
      change Gives (namedRoutine g fuel .method >>= fun m => methodsFrom g fuel (m :: done)) _ _ _
      refine gives_bind (gives_namedRoutine (hg.mono hlength) hm (Nat.le_refl _)
        (Nat.le_of_lt_succ hfuel)) fun m' hm' => ?_
      simp only [List.length_append, List.length_cons] at hlength hfuel
      refine (ih hlater ?_ ?_).mono fun out hout => ?_
      · rw [List.length_append]
        omega
      · rw [List.length_append]
        omega
      · rw [hout]
        simp [hm']

theorem gives_superclass (superclass : Option Ref) (hrest : kindAt rest = .symbol .leftBrace) :
    Gives (following (.symbol .less) (identifier .superclass >>= fresh))
      ((superclass.map fun ref => [Symbol.less.word, .identifier ref.word.text]).getD []) rest
      fun superclass' => superclass'.map Ref.erase = superclass.map Ref.erase := by
  cases superclass with
  | none =>
    have hother : kindAt rest ≠ .symbol .less := by
      rw [hrest]
      exact nofun
    refine (gives_following_other hother).mono ?_
    rintro _ rfl
    rfl
  | some ref =>
    have hread : Gives (identifier .superclass >>= fresh) ([Word.identifier ref.word.text] ++ []) rest
        fun ref' => ref'.erase = ref.erase := by
      refine gives_bind (gives_identifier .superclass) fun name hname => ?_
      refine gives_fresh.mono fun ref' href' => Ref.erase_eq_iff.mpr ?_
      rw [href', hname]
    refine (gives_following (w := Symbol.less.word) rfl hread).mono ?_
    rintro _ ⟨ref', rfl, href'⟩
    rw [Option.map_some, Option.map_some, href']

theorem gives_classDeclaration (hg : Complete g k) {name : Lexeme} {superclass : Option Ref}
    {members : List Method} (hmembers : Method.AllGrammatical members)
    (hlength : ((Stmt.class name superclass members).words ++ rest).length ≤ k) (hfuel : k < fuel) :
    Gives (classDeclaration g fuel) (Stmt.class name superclass members).words rest
      fun s => s.erase = (Stmt.class name superclass members).erase := by
  have hwords : (Stmt.class name superclass members).words =
      [Keyword.class.word] ++ ([Word.identifier name.text] ++
        ((superclass.map fun ref => [Symbol.less.word, .identifier ref.word.text]).getD [] ++
          ([Symbol.leftBrace.word] ++ (Method.listWords members ++
            ([Symbol.rightBrace.word] ++ []))))) := by
    cases superclass <;> simp
  rw [hwords] at hlength ⊢
  simp only [List.length_append, List.length_cons] at hlength
  rw [classDeclaration_eq]
  refine gives_bind gives_take fun _ _ => ?_
  refine gives_bind (gives_identifier .class) fun name' hname => ?_
  refine gives_bind (gives_superclass superclass rfl) fun superclass' hsuperclass => ?_
  refine gives_bind (gives_spelled .beforeClassBody) fun _ _ => ?_
  refine gives_bind (gives_methodsFrom hg hmembers rfl ?_ ?_) fun members' halike => ?_
  · simp only [List.length_append, List.length_cons]
    omega
  · simp only [List.length_append, List.length_cons]
    omega
  refine gives_bind (gives_spelled .afterClassBody) fun _ _ => gives_pure ?_
  rw [Stmt.erase, Stmt.erase, Lexeme.erase_eq_iff.mpr hname, hsuperclass, Method.eraseAll_eq_map,
    halike, Method.eraseAll_eq_map]
  rfl

/-! ## Declarations -/

theorem strictDeclaration_statement {c : Cursor} {w : Word} {ws : List Word} (hc : c.words = w :: ws)
    (hclass : w.kind ≠ .keyword .class) (hvar : w.kind ≠ .keyword .var)
    (hfun : w.kind = .keyword .fun → ∃ ws', ws = Symbol.leftParen.word :: ws') :
    strictDeclaration g fuel c = statement g fuel c := by
  have hkind : c.kind = w.kind := Cursor.kind_of_words hc
  unfold strictDeclaration
  rw [hkind]
  split
  · contradiction
  · contradiction
  · next hfun' =>
    obtain ⟨ws', rfl⟩ := hfun hfun'
    have hsecond : c.secondKind = .symbol .leftParen := Cursor.secondKind_of_words hc
    rw [hsecond]
    rfl
  · rfl

/-- What is no declaration starts with no word of a declaration, except that a routine without
a name starts like one with a name. -/
theorem starts_plain {s : Stmt} (hplain : s.isDeclaration = false) : ∃ w ws, s.words = w :: ws ∧
    w.kind ≠ .keyword .class ∧ w.kind ≠ .keyword .var ∧
      (w.kind = .keyword .fun → ∃ ws', ws = Symbol.leftParen.word :: ws') := by
  cases s with
  | expression e =>
    obtain ⟨w, ws, hws, hstart, hfun⟩ := (starts_words e).append [Symbol.semicolon.word]
    refine ⟨w, ws, hws, ?_, ?_, hfun⟩ <;> intro hkind <;> rw [hkind] at hstart <;> cases hstart
  | ifElse condition whenTrue whenFalse =>
    cases whenFalse <;> exact ⟨_, _, rfl, nofun, nofun, nofun⟩
  | returnFrom keyword value => cases value <;> exact ⟨_, _, rfl, nofun, nofun, nofun⟩
  | vars ds => cases hplain
  | function name r => cases hplain
  | «class» name superclass members => cases hplain
  | _ => exact ⟨_, _, rfl, nofun, nofun, nofun⟩

theorem gives_strictDeclaration (hg : Complete g k) {s : Stmt} (hs : s.Grammatical)
    (hrest : s.endsOpen → kindAt rest ≠ .keyword .else) (hlength : (s.words ++ rest).length ≤ k)
    (hfuel : k < fuel) :
    Gives (strictDeclaration g fuel) s.words rest fun s' => s'.erase = s.erase := by
  by_cases hplain : s.isDeclaration = false
  · obtain ⟨w, ws, hws, hclass, hvar, hfun⟩ := starts_plain hplain
    refine (gives_statement hg hs hplain hrest hlength hfuel).of_eq fun c hc => ?_
    rw [hws] at hc
    refine strictDeclaration_statement hc hclass hvar fun hkind => ?_
    obtain ⟨ws', rfl⟩ := hfun hkind
    exact ⟨ws' ++ rest, rfl⟩
  cases s with
  | vars ds =>
    refine (gives_varDeclaration hg hs hlength hfuel.le).of_eq fun c hc => ?_
    have hkind : c.kind = .keyword .var := Cursor.kind_of_words hc
    unfold strictDeclaration
    rw [hkind]
  | function name r =>
    refine (gives_functionDeclaration hg (grammatical_function.mp hs).2 hlength hfuel.le).of_eq
      fun c hc => ?_
    rw [words_function] at hc
    have hkind : c.kind = .keyword .fun := Cursor.kind_of_words hc
    have hsecond : c.secondKind = .identifier := Cursor.secondKind_of_words hc
    unfold strictDeclaration
    rw [hkind, hsecond]
    rfl
  | «class» name superclass members =>
    refine (gives_classDeclaration hg hs.2.2 hlength hfuel).of_eq fun c hc => ?_
    have hkind : c.kind = .keyword .class := by
      cases superclass <;> exact Cursor.kind_of_words hc
    unfold strictDeclaration
    rw [hkind]
  | _ => exact absurd rfl hplain

theorem gives_declaration (hg : Complete g k) {s : Stmt} (hs : s.Grammatical)
    (hrest : s.endsOpen → kindAt rest ≠ .keyword .else) (hlength : (s.words ++ rest).length ≤ k)
    (hfuel : k < fuel) :
    Gives (declaration g fuel) s.words rest fun s' => s'.map Stmt.erase = some s.erase := by
  intro c hc
  obtain ⟨s', c', hact, hrest', hfound, hs'⟩ :=
    gives_strictDeclaration hg hs hrest hlength hfuel c hc
  refine ⟨some s', c', ?_, hrest', hfound, congrArg some hs'⟩
  unfold declaration
  rw [hact]

end ScriptLang.Grammar
