import ScriptLang.Proofs.Grammar.Rounds
import ScriptLang.Proofs.Sorting
import ScriptLang.Proofs.Source.Lines
import ScriptLang.Scoping.Resolve

/-!
# The order of what is reported

A fault that ends a declaration is at the next token, and so is an argument or a parameter too
many. Two faults are found late, however. Whether the target of an assignment is one is looked at
when the value has been read, and a name that a declaration repeats is reported behind its initial
value (`Diagnostic.IsLate`). Values may have functions in them, with faults of their own on later
lines. So what is reported is in the order of the lines, but for late faults, which come right
behind what is reported of the value (`InOrder`).

The lines of the tokens may stay the same, but they never decrease (`Cursor.Ordered`). All rules
keep the order (`Orderly`), and there are two where a late fault comes in (`Orderly.deferred`).
-/

namespace ScriptLang

/-- The fault is reported behind a value that comes after its token. -/
def Diagnostic.IsLate (d : Diagnostic) : Prop :=
  d.fault = .grammar .invalidAssignmentTarget ∨ d.fault = .grammar .repeatedVariable

namespace Grammar

variable {α β : Type}

/-! ## Diagnostics in order -/

/-- The diagnostics are on lines from the first to the second one, in this order, but for a late
one, which comes behind all that is reported of its value. -/
inductive InOrder : Nat → Nat → List Diagnostic → Prop
  | nil {lo hi} (h : lo ≤ hi) : InOrder lo hi []
  | single {lo hi d} (hlo : lo ≤ d.line) (hhi : d.line ≤ hi) : InOrder lo hi [d]
  | append {lo mid hi ds ds'} (h : InOrder lo mid ds) (h' : InOrder mid hi ds') :
    InOrder lo hi (ds ++ ds')
  | late {lo hi d ds} (hlate : d.IsLate) (hlo : lo ≤ d.line) (h : InOrder d.line hi ds) :
    InOrder lo hi (ds ++ [d])

namespace InOrder

variable {lo hi : Nat} {ds : List Diagnostic}

theorem le (h : InOrder lo hi ds) : lo ≤ hi := by
  induction h with
  | nil h => exact h
  | single hlo hhi => exact Nat.le_trans hlo hhi
  | append _ _ ih ih' => exact Nat.le_trans ih ih'
  | late _ hlo _ ih => exact Nat.le_trans hlo ih

theorem bounds (h : InOrder lo hi ds) : ∀ d ∈ ds, lo ≤ d.line ∧ d.line ≤ hi := by
  induction h with
  | nil => exact nofun
  | single hlo hhi => exact List.forall_mem_singleton.mpr ⟨hlo, hhi⟩
  | append h h' ih ih' =>
    have hle := h.le
    have hle' := h'.le
    refine List.forall_mem_append.mpr ⟨fun d hd => ?_, fun d hd => ?_⟩
    · have := ih d hd
      omega
    · have := ih' d hd
      omega
  | late _ hlo h ih =>
    have hle := h.le
    refine List.forall_mem_append.mpr ⟨fun d hd => ?_, ?_⟩
    · have := ih d hd
      omega
    · exact List.forall_mem_singleton.mpr ⟨hlo, hle⟩

/-- Behind a diagnostic on a later line there is none but a late one. -/
theorem pairwise (h : InOrder lo hi ds) : ds.Pairwise fun d d' => d.line ≤ d'.line ∨ d'.IsLate := by
  induction h with
  | nil => exact .nil
  | single => exact List.pairwise_singleton _ _
  | append h h' ih ih' =>
    refine List.pairwise_append.mpr ⟨ih, ih', fun d hd d' hd' => .inl ?_⟩
    exact Nat.le_trans (h.bounds d hd).2 (h'.bounds d' hd').1
  | late hlate _ _ ih =>
    refine List.pairwise_append.mpr ⟨ih, List.pairwise_singleton _ _, fun d _ d' hd' => .inr ?_⟩
    rwa [List.mem_singleton.mp hd']

end InOrder

/-! ## Positions in ordered tokens -/

/-- The lines of what is left never decrease, up to the line on which the tokens end. -/
def Cursor.Ordered (c : Cursor) : Prop :=
  List.Pairwise (fun t t' : Token => t.line ≤ t'.line) (c.rest ++ [.endOfInput c.lastLine])

/-- From the first position to the second one, what is reported is in order. -/
structure Cursor.Logs (c c' : Cursor) : Prop where
  leads : c.Leads c'
  order : ∃ ds, c'.found = c.found ++ ds ∧ InOrder c.next.line c'.next.line ds

namespace Cursor

variable {c c' c'' : Cursor}

theorem next_mem (c : Cursor) : c.next ∈ c.rest ++ [.endOfInput c.lastLine] := by
  unfold Cursor.next
  cases c.rest <;> simp

theorem Ordered.next_le (h : c.Ordered) :
    ∀ t ∈ c.rest ++ [.endOfInput c.lastLine], c.next.line ≤ t.line := by
  unfold Ordered at h
  unfold Cursor.next
  cases hrest : c.rest with
  | nil => exact List.forall_mem_singleton.mpr (Nat.le_refl _)
  | cons first rest =>
    rw [hrest] at h
    exact List.forall_mem_cons.mpr ⟨Nat.le_refl _, fun t ht => List.rel_of_pairwise_cons h ht⟩

theorem Ordered.le_lastLine (h : c.Ordered) : c.next.line ≤ c.lastLine :=
  h.next_le (.endOfInput c.lastLine) (List.mem_append_right _ List.mem_cons_self)

theorem Leads.suffix (h : c.Leads c') :
    c'.rest ++ [.endOfInput c'.lastLine] <:+ c.rest ++ [.endOfInput c.lastLine] := by
  obtain ⟨ts, hts⟩ := h.rest
  rw [h.lastLine, ← hts]
  exact ⟨ts, (List.append_assoc _ _ _).symm⟩

theorem Ordered.leads (h : c.Ordered) (hleads : c.Leads c') : c'.Ordered :=
  List.Pairwise.sublist hleads.suffix.sublist h

theorem Ordered.line_le (h : c.Ordered) (hleads : c.Leads c') : c.next.line ≤ c'.next.line :=
  h.next_le _ (hleads.suffix.mem c'.next_mem)

/-- Moving on without a report. -/
theorem Ordered.quiet (h : c.Ordered) (hleads : c.Leads c') (hfound : c'.found = c.found) :
    c.Logs c' :=
  ⟨hleads, [], by rw [hfound, List.append_nil], .nil (h.line_le hleads)⟩

theorem Logs.trans (h : c.Logs c') (h' : c'.Logs c'') : c.Logs c'' := by
  obtain ⟨ds, hds, horder⟩ := h.order
  obtain ⟨ds', hds', horder'⟩ := h'.order
  refine ⟨h.leads.trans h'.leads, ds ++ ds', ?_, horder.append horder'⟩
  rw [hds', hds, List.append_assoc]

/-- A fault at the next token. -/
theorem logs_report {d : Diagnostic} (hd : d.line = c.next.line) : c.Logs (c.report d) :=
  ⟨c.leads_report d, [d], rfl, .single (Nat.le_of_eq hd.symm) (Nat.le_of_eq hd)⟩

/-- A late fault, at the token that was next where the value began. -/
theorem Logs.late (h : c.Logs c') {d : Diagnostic} (hlate : d.IsLate)
    (hd : d.line = c.next.line) : c.Logs (c'.report d) := by
  obtain ⟨ds, hds, horder⟩ := h.order
  rw [← hd] at horder
  refine ⟨h.leads.trans (c'.leads_report d), ds ++ [d], ?_, ?_⟩
  · rw [Cursor.report, hds, List.append_assoc]
  · exact .late hlate (Nat.le_of_eq hd.symm) horder

end Cursor

/-! ## Parsers that keep the order -/

/-- Up to where the run stops, what is reported is in order, and the fault for which it stops is at
the next token. -/
def LogsTo (c : Cursor) : EStateM.Result Stop Cursor α → Prop
  | .ok _ c' => c.Logs c'
  | .error (.fault d) c' => c.Logs c' ∧ d.line = c'.next.line
  | .error .exhausted c' => c.Logs c'

/-- The parser reports in order. -/
class Orderly (act : Parser α) : Prop where
  logs : ∀ c : Cursor, c.Ordered → LogsTo c (act c)

theorem LogsTo.trans {c c' : Cursor} {r : EStateM.Result Stop Cursor α} (h : c.Logs c')
    (hr : LogsTo c' r) : LogsTo c r := by
  obtain ⟨a, c''⟩ | ⟨d | _, c''⟩ := r
  · exact h.trans hr
  · exact ⟨h.trans hr.1, hr.2⟩
  · exact h.trans hr

namespace Orderly

variable {act act' : Parser α} {next : α → Parser β} {c c' : Cursor}

theorem of_ok [Orderly act] {a : α} (hc : c.Ordered) (h : act c = .ok a c') : c.Logs c' := by
  have hlogs := ‹Orderly act›.logs c hc
  rwa [h] at hlogs

theorem of_eq [h : Orderly act'] (hc : c.Ordered) (heq : act c = act' c) : LogsTo c (act c) :=
  heq ▸ h.logs c hc

/-- What comes next goes on from where the first parser has come to. -/
theorem seq [h : Orderly act] (hc : c.Ordered)
    (hnext : ∀ a c', c.Logs c' → LogsTo c (next a c')) : LogsTo c ((act >>= next) c) := by
  have hlogs := h.logs c hc
  rw [bind_eq_match]
  cases hact : act c with
  | ok a c' =>
    rw [hact] at hlogs
    exact hnext a c' hlogs
  | error stop c' =>
    rw [hact] at hlogs
    cases stop <;> exact hlogs

instance pure (a : α) : Orderly (pure a : Parser α) :=
  ⟨fun c hc => hc.quiet (.refl c) rfl⟩

instance bind [Orderly act] [hnext : ∀ a, Orderly (next a)] : Orderly (act >>= next) := by
  refine ⟨fun c hc => seq hc fun a c' hlogs => ?_⟩
  exact .trans hlogs ((hnext a).logs c' (hc.leads hlogs.leads))

instance map [Orderly act] (f : α → β) : Orderly (f <$> act) :=
  inferInstanceAs (Orderly (act >>= fun a => Pure.pure (f a)))

instance ite {p : Prop} [Decidable p] [Orderly act] [Orderly act'] :
    Orderly (if p then act else act') := by
  by_cases h : p
  · rwa [if_pos h]
  · rwa [if_neg h]

/-- A late fault is reported in order if its token is the one before the value. -/
theorem deferred {next : Token → α → Parser β} [Orderly act]
    (hnext : ∀ token a, Orderly (next token a) ∨ ∃ fault later, Orderly later ∧
      (Diagnostic.grammar token fault).IsLate ∧
      next token a = (reportAt token fault >>= fun _ => later)) :
    Orderly (peek >>= fun token => act >>= next token) := by
  refine ⟨fun c hc => ?_⟩
  change LogsTo c ((act >>= next c.next) c)
  refine seq hc fun a c' hlogs => ?_
  obtain hnext | ⟨fault, later, hlater, hlate, heq⟩ := hnext c.next a
  · exact .trans hlogs (hnext.logs c' (hc.leads hlogs.leads))
  · rw [heq]
    have hreported : c.Logs (c'.report (.grammar c.next fault)) := hlogs.late hlate rfl
    exact .trans hreported (hlater.logs _ (hc.leads hreported.leads))

end Orderly

/-! ## Single tokens -/

instance : Orderly (exhausted : Parser α) := ⟨fun c hc => hc.quiet (.refl c) rfl⟩

instance (fault : GrammarFault) : Orderly (failHere fault : Parser α) :=
  ⟨fun c hc => ⟨hc.quiet (.refl c) rfl, rfl⟩⟩

instance (fault : GrammarFault) : Orderly (reportHere fault) :=
  ⟨fun _ _ => Cursor.logs_report rfl⟩

instance : Orderly take := ⟨fun c hc => hc.quiet c.leads_advance rfl⟩

instance : Orderly peek := ⟨fun c hc => hc.quiet (.refl c) rfl⟩

instance (kind : Kind) : Orderly (looksAt kind) := ⟨fun c hc => hc.quiet (.refl c) rfl⟩

instance (kind : Kind) : Orderly (skip kind) := by
  refine ⟨fun c hc => ?_⟩
  unfold skip
  split
  · exact hc.quiet c.leads_advance rfl
  · exact hc.quiet (.refl c) rfl

instance (place : SymbolPlace) : Orderly (symbol place) := by
  refine ⟨fun c hc => ?_⟩
  unfold symbol
  split
  · exact hc.quiet c.leads_advance rfl
  · exact Orderly.logs c hc

instance (place : NamePlace) : Orderly (identifier place) := by
  refine ⟨fun c hc => ?_⟩
  unfold identifier
  split
  · exact hc.quiet c.leads_advance rfl
  · exact Orderly.logs c hc

instance (word : Lexeme) : Orderly (fresh word) :=
  ⟨fun c hc => hc.quiet ((inferInstance : Steady (fresh word)).leads c) rfl⟩

/-! ## Lists -/

instance {kind : Kind} {act : Parser α} [Orderly act] : Orderly (following kind act) := by
  unfold following
  infer_instance

section Lists

variable {join : Kind → Option (Lexeme → Expr → Expr → Expr)} {operand : Parser Expr}
  [Orderly operand] {fuel : Nat} {item : Parser α} [Orderly item] {tooMany : GrammarFault}
  {closing : SymbolPlace}

omit [Orderly item] in
instance (left : Expr) : Orderly (chainFrom join operand fuel left) := by
  induction fuel generalizing left with
  | zero => exact inferInstanceAs (Orderly exhausted)
  | succ fuel ih =>
    refine ⟨fun c hc => ?_⟩
    cases hnode : join c.kind with
    | none =>
      rw [chainFrom_none hnode]
      exact hc.quiet (.refl c) rfl
    | some node => exact Orderly.of_eq hc (chainFrom_some hnode)

instance : Orderly (chain join operand fuel) := by
  unfold chain
  infer_instance

instance (listed : List α) : Orderly (itemsFrom tooMany item fuel listed) := by
  induction fuel generalizing listed with
  | zero => exact inferInstanceAs (Orderly exhausted)
  | succ fuel ih =>
    rw [itemsFrom_succ]
    infer_instance

instance : Orderly (listedBy tooMany item fuel) := by
  unfold listedBy
  infer_instance

instance : Orderly (items tooMany closing item fuel) := by
  rw [items_eq]
  infer_instance

end Lists

/-! ## The rules -/

section Rules

variable {g : Grammar} {fuel : Nat} [∀ n, Orderly (g n)]

instance (done : List Stmt) : Orderly (declarationsFrom g fuel done) := by
  induction fuel generalizing done with
  | zero => exact inferInstanceAs (Orderly exhausted)
  | succ fuel ih =>
    refine ⟨fun c hc => ?_⟩
    by_cases hclosed : c.kind = .symbol .rightBrace ∨ c.atEnd
    · rw [declarationsFrom_closed hclosed]
      exact hc.quiet (.refl c) rfl
    · exact Orderly.of_eq hc (declarationsFrom_open hclosed)

instance : Orderly (block g fuel) := by
  unfold block
  infer_instance

instance (kind : RoutineKind) : Orderly (routine g fuel kind) := by
  rw [routine_eq]
  infer_instance

instance : Orderly (primary g fuel) := by
  refine ⟨fun c hc => ?_⟩
  unfold primary
  split
  · exact hc.quiet c.leads_advance rfl
  · exact hc.quiet c.leads_advance rfl
  · exact hc.quiet c.leads_advance rfl
  · exact hc.quiet c.leads_advance rfl
  · exact hc.quiet c.leads_advance rfl
  all_goals exact Orderly.logs c hc

instance (e : Expr) : Orderly (suffixesFrom g fuel e) := by
  induction fuel generalizing e with
  | zero => exact inferInstanceAs (Orderly exhausted)
  | succ fuel ih =>
    rw [suffixesFrom_succ]
    infer_instance

instance : Orderly (call g fuel) := by
  unfold call
  infer_instance

instance orderly_unary : Orderly (unary g fuel) := by
  refine ⟨fun c hc => ?_⟩
  cases hop : unaryOp c.kind with
  | none => exact Orderly.of_eq hc (unary_none hop)
  | some op => exact Orderly.of_eq hc (unary_some hop)

instance : Orderly (disjunction g fuel) := by
  unfold disjunction conjunction equality comparison sum product
  infer_instance

instance orderly_conditional : Orderly (conditional g fuel) := by
  unfold conditional
  infer_instance

/-- What cannot be assigned to is reported behind the value. -/
instance orderly_assignment : Orderly (assignment g fuel) := by
  have hassigned (target : Expr) : Orderly (take >>= fun equals => g .assignment >>= fun value =>
      match assignTo? target value with
      | some e => pure e
      | none => reportAt equals .invalidAssignmentTarget >>= fun _ => pure target) := by
    refine @Orderly.deferred _ _ (take >>= fun _ => g .assignment) (fun equals value =>
      match assignTo? target value with
      | some e => pure e
      | none => reportAt equals .invalidAssignmentTarget >>= fun _ => pure target) inferInstance
      fun equals value => ?_
    cases assignTo? target value with
    | some e => exact .inl inferInstance
    | none => exact .inr ⟨_, pure target, inferInstance, .inl rfl, rfl⟩
  unfold assignment
  infer_instance

instance orderly_expression : Orderly (expression g fuel) := by
  unfold expression
  infer_instance

instance : Orderly (declarator g) := by
  unfold declarator
  infer_instance

/-- A name that was declared before is reported behind its initial value. -/
instance (ds : List Declarator) : Orderly (declaratorsFrom g fuel ds) := by
  induction fuel generalizing ds with
  | zero => exact inferInstanceAs (Orderly exhausted)
  | succ fuel ih =>
    rw [declaratorsFrom_succ]
    refine Orderly.deferred fun name d => ?_
    by_cases hrepeated : ds.any (·.name.text = d.name.text)
    · refine .inr ⟨.repeatedVariable, skip (.symbol .comma) >>= fun more =>
        if more then declaratorsFrom g fuel ds else pure ds, inferInstance, .inr rfl, ?_⟩
      rw [if_pos hrepeated]
      rfl
    · rw [if_neg hrepeated]
      exact .inl inferInstance

instance : Orderly (varDeclaration g fuel) := by
  unfold varDeclaration
  infer_instance

instance (s : Symbol) : Orderly (clauseUpTo g s) := by
  unfold clauseUpTo
  infer_instance

instance : Orderly (expressionStatement g fuel) := by
  unfold expressionStatement
  infer_instance

instance : Orderly (forInitializer g fuel) := by
  unfold forInitializer
  infer_instance

set_option synthInstance.maxSize 512 in
instance : Orderly (forStatement g fuel) := by
  unfold forStatement
  infer_instance

set_option synthInstance.maxSize 256 in
instance : Orderly (ifStatement g) := by
  rw [ifStatement_eq]
  infer_instance

instance orderly_statement : Orderly (statement g fuel) := by
  refine ⟨fun c hc => ?_⟩
  unfold statement breakStatement printStatement returnStatement whileStatement blockStatement
  split <;> exact Orderly.logs c hc

instance (kind : RoutineKind) : Orderly (namedRoutine g fuel kind) := by
  unfold namedRoutine
  infer_instance

instance (done : List Method) : Orderly (methodsFrom g fuel done) := by
  induction fuel generalizing done with
  | zero => exact inferInstanceAs (Orderly exhausted)
  | succ fuel ih =>
    rw [methodsFrom]
    infer_instance

set_option synthInstance.maxSize 256 in
instance : Orderly (strictDeclaration g fuel) := by
  refine ⟨fun c hc => ?_⟩
  unfold strictDeclaration functionDeclaration
  rw [classDeclaration_eq]
  split
  · exact Orderly.logs c hc
  · exact Orderly.logs c hc
  · split <;> exact Orderly.logs c hc
  · exact Orderly.logs c hc

/-- The fault that ends a declaration comes last, and it is at the token from which on the rest is
passed over. -/
instance orderly_declaration : Orderly (declaration g fuel) := by
  refine ⟨fun c hc => ?_⟩
  have hstrict : LogsTo c (strictDeclaration g fuel c) := Orderly.logs c hc
  unfold declaration
  cases hend : strictDeclaration g fuel c with
  | ok s c' =>
    rw [hend] at hstrict
    exact hstrict
  | error stop c' =>
    rw [hend] at hstrict
    cases stop with
    | exhausted => exact hstrict
    | fault d =>
      obtain ⟨hlogs, hd⟩ := hstrict
      have hreported : c.Logs (c'.report d) := hlogs.trans (Cursor.logs_report hd)
      refine hreported.trans ((hc.leads hreported.leads).quiet ⟨?_, rfl, List.prefix_refl _,
        Nat.le_refl _⟩ rfl)
      exact (resume_suffix c'.rest).trans (List.tail_suffix _)

end Rules

/-! ## The grammar -/

instance orderly_grammar (fuel : Nat) (n : Nonterminal) : Orderly (grammar fuel n) := by
  induction fuel generalizing n with
  | zero => exact ⟨fun c hc => by cases n <;> exact hc.quiet (.refl c) rfl⟩
  | succ fuel ih =>
    cases n with
    | expression => exact orderly_expression (g := grammar fuel)
    | assignment => exact orderly_assignment (g := grammar fuel)
    | conditional => exact orderly_conditional (g := grammar fuel)
    | unary => exact orderly_unary (g := grammar fuel)
    | statement => exact orderly_statement (g := grammar fuel)
    | declaration => exact orderly_declaration (g := grammar fuel)

theorem Parses.logs {n : Nonterminal} {t : n.Tree} {c c' : Cursor} (h : Parses grammar n c t c')
    (hc : c.Ordered) : c.Logs c' := by
  obtain ⟨fuel, hread⟩ := h
  have horderly : Orderly (grammar fuel n) := orderly_grammar fuel n
  exact horderly.of_ok hc hread

/-- The rounds of a parse report in order. -/
theorem Course.inOrder {mode : Mode} {rounds : List Round} {e : Option Expr} {c c' : Cursor}
    (h : Course grammar mode c rounds e c') (hc : c.Ordered) :
    InOrder c.next.line c.lastLine (rounds.flatMap Round.reported) := by
  induction h with
  | ended => exact .nil hc.le_lastLine
  | expression => exact .nil hc.le_lastLine
  | @declaration c k s c₁ ds rounds e c' _ _ _ hread hreported _ ih =>
    have hstart : { c with nextRef := k }.Ordered := hc
    have hlogs := hread.logs hstart
    obtain ⟨ds', hds', horder⟩ := hlogs.order
    have hds : ds = ds' := List.append_cancel_left (hreported.symm.trans hds')
    have hline : c₁.lastLine = c.lastLine := hlogs.leads.lastLine
    have hlater := ih (hstart.leads hlogs.leads)
    rw [hline] at hlater
    rw [List.flatMap_cons]
    exact (hds ▸ horder).append hlater

/-- The start of tokens whose lines never decrease. -/
theorem Cursor.ordered_start {tokens : List Token}
    (h : tokens.Pairwise fun t t' => t.line ≤ t'.line) (nextRef : Nat) :
    (Cursor.start tokens nextRef).Ordered := by
  refine List.pairwise_append.mpr ⟨h, List.pairwise_singleton _ _, fun t ht => ?_⟩
  refine List.forall_mem_singleton.mpr ?_
  change t.line ≤ (tokens.getLast?.map Token.line).getD 0
  obtain rfl | ⟨ts, last, rfl⟩ := List.eq_nil_or_concat' tokens
  · cases ht
  · rw [List.getLast?_concat]
    rcases List.mem_append.mp ht with ht | ht
    · exact (List.pairwise_append.mp h).2.2 t ht last List.mem_cons_self
    · rw [List.mem_singleton.mp ht]
      exact Nat.le_refl _

end Grammar

open Grammar

/-- Scoping faults are reported in the order of their lines. -/
theorem Program.pairwise_of_resolve {p : Program} {globals : List String} {ds : List Diagnostic}
    (h : p.resolve globals = .error ds) : ds.Pairwise fun d d' => d.line ≤ d'.line := by
  unfold Program.resolve at h
  dsimp only at h
  split at h
  · cases h
  · cases h
    exact pairwise_sortByNumber _ _

/-- **Syntax errors are in order, but for those that are found late.** If the lines of the tokens
never decrease, all diagnostics of a parse that fails are on lines from the first to the last token,
and in the order of the lines, but for a target that cannot be assigned to and a name that is
declared twice. These come right behind what is reported of their value, so only they may come
behind a diagnostic on a later line. What is reported by the scanner and by the resolver is in the
order of the lines. -/
theorem syntax_errors_in_order_but_late (tokens : List Token)
    (hlines : tokens.Pairwise fun t t' => t.line ≤ t'.line) (mode : Mode) (nextRef : Nat) :
    (∀ ds, (Program.parse tokens mode nextRef).result = .error ds →
      InOrder ((tokens.head?.map Token.line).getD 0) ((tokens.getLast?.map Token.line).getD 0) ds ∧
        ds.Pairwise fun d d' => d.line ≤ d'.line ∨ d'.IsLate) ∧
    (∀ source, (Source.diagnostics source).Pairwise fun d d' => d.line ≤ d'.line) ∧
    ∀ (p : Program) (globals : List String) (ds : List Diagnostic),
      p.resolve globals = .error ds → ds.Pairwise fun d d' => d.line ≤ d'.line := by
  refine ⟨fun ds hds => ?_, Source.pairwise_diagnostics, fun p globals ds hds =>
    Program.pairwise_of_resolve hds⟩
  obtain ⟨rounds, e, c, hcourse, -, -, hresult⟩ := Program.parse_course tokens mode nextRef
  have horder := hcourse.inOrder (Cursor.ordered_start hlines nextRef)
  have hfirst : (Cursor.start tokens nextRef).next.line = (tokens.head?.map Token.line).getD 0 := by
    cases tokens <;> rfl
  rw [hfirst] at horder
  rw [hds] at hresult
  by_cases hclean : rounds.flatMap Round.reported = []
  · rw [if_pos hclean] at hresult
    cases hresult
  · rw [if_neg hclean] at hresult
    cases hresult
    exact ⟨horder, horder.pairwise⟩

/-- The fault in the function comes before its assignment to `nil`, which stands in front of it. -/
theorem late_target_behind_function :
    let sign (s : Symbol) (line : Nat) : Token := ⟨.symbol s, ⟨.ofList s.spelling, line⟩, .nil⟩
    let word (k : Keyword) (line : Nat) : Token := ⟨.keyword k, ⟨.ofList k.spelling, line⟩, .nil⟩
    let tokens : List Token := [word .nil 1, sign .equal 1, word .fun 1, sign .leftParen 1,
      sign .rightParen 1, sign .leftBrace 1, word .print 2, sign .semicolon 2, sign .rightBrace 3,
      sign .semicolon 3, .endOfInput 3]
    let ds : List Diagnostic := [.grammar (sign .semicolon 2) .missingExpression,
      .grammar (sign .equal 1) .invalidAssignmentTarget]
    tokens.Pairwise (fun t t' => t.line ≤ t'.line) ∧
      (Program.parse tokens .script 0).result = .error ds ∧
      InOrder 1 3 ds ∧ ds.Pairwise fun d d' => d.line ≤ d'.line ∨ d'.IsLate := by
  intro sign word tokens ds
  have hlines : tokens.Pairwise (fun t t' => t.line ≤ t'.line) := by decide
  have hds : (Program.parse tokens .script 0).result = .error ds := rfl
  exact ⟨hlines, hds, (syntax_errors_in_order_but_late tokens hlines .script 0).1 ds hds⟩

/-- In `var a, a = nil = nil = nil;` with a value on each line, what is on the last of the lines
with a fault is reported first. -/
theorem values_on_later_lines_are_reported_first :
    let sign (s : Symbol) (line : Nat) : Token := ⟨.symbol s, ⟨.ofList s.spelling, line⟩, .nil⟩
    let word (k : Keyword) (line : Nat) : Token := ⟨.keyword k, ⟨.ofList k.spelling, line⟩, .nil⟩
    let a : Token := ⟨.identifier, ⟨"a", 1⟩, .nil⟩
    let tokens : List Token := [word .var 1, a, sign .comma 1, a, sign .equal 1, word .nil 2,
      sign .equal 2, word .nil 3, sign .equal 3, word .nil 4, sign .semicolon 4, .endOfInput 4]
    let ds : List Diagnostic := [.grammar (sign .equal 3) .invalidAssignmentTarget,
      .grammar (sign .equal 2) .invalidAssignmentTarget, .grammar a .repeatedVariable]
    tokens.Pairwise (fun t t' => t.line ≤ t'.line) ∧
      (Program.parse tokens .script 0).result = .error ds ∧
      ¬ ds.Pairwise fun d d' => d.line ≤ d'.line := by
  intro sign word a tokens ds
  have hlines : tokens.Pairwise (fun t t' => t.line ≤ t'.line) := by decide
  have hds : (Program.parse tokens .script 0).result = .error ds := rfl
  have hdecreases : ¬ ds.Pairwise fun d d' => d.line ≤ d'.line := by decide
  exact ⟨hlines, hds, hdecreases⟩

end ScriptLang
