import ScriptLang.Proofs.Grammar.Progress
import ScriptLang.Proofs.Grammar.Replacement

/-!
# Rounds of a parse

A program is read in rounds. Each of them reads one declaration, at a prompt after an attempt to
read an expression up to the end has been taken back. `Course` tells the rounds of a parse without
fuel, and `exists_course` says that there always is one: a declaration that does not stand at the
end of the input reads something (`declaration_advances`), whatever is wrong with it, so there are
no more rounds than tokens.

What is reported is what the declarations report, and nothing of what the attempts do
(`Course.found_eq`). If they report nothing, no fault has been recovered from at any depth, and
every declaration has given its statement (`Course.strict`). `parsing_ends` puts this together.
-/

namespace ScriptLang.Grammar

/-! ## Reading without fuel -/

section Reading

variable {fuel fuel' : Nat} {n : Nonterminal} {c c' : Cursor}

/-- Any two amounts of fuel that are enough for the tokens do the same. -/
theorem grammar_of_enough (h : c.rest.length < fuel) (h' : c.rest.length < fuel') :
    grammar fuel n c = grammar fuel' n c := by
  rcases Nat.le_total fuel fuel' with hle | hle
  · exact (grammar_of_lasts hle ((ample_grammar fuel).lasts n c h)).symm
  · exact grammar_of_lasts hle ((ample_grammar fuel').lasts n c h')

/-- The grammar reads the tree from the first position up to the second one, with some fuel. -/
def Parses (g : Nat → Grammar) (n : Nonterminal) (c : Cursor) (t : n.Tree) (c' : Cursor) : Prop :=
  ∃ fuel, g fuel n c = .ok t c'

namespace Parses

variable {t t' : n.Tree}

/-- With enough fuel for the tokens, the grammar reads what it reads with some fuel. -/
theorem of_enough (h : Parses grammar n c t c') (hfuel : c.rest.length < fuel) :
    grammar fuel n c = .ok t c' := by
  obtain ⟨fuel', hread⟩ := h
  have hlasts (c₁ : Cursor) : grammar fuel' n c ≠ .error .exhausted c₁ := by
    rw [hread]
    exact nofun
  have hmore : grammar (fuel + fuel') n c = .ok t c' :=
    (grammar_of_lasts (Nat.le_add_left _ _) hlasts).trans hread
  rw [← hmore]
  exact grammar_of_enough hfuel (by omega)

theorem unique {c'' : Cursor} (h : Parses grammar n c t c') (h' : Parses grammar n c t' c'') :
    t = t' ∧ c' = c'' := by
  have hread := h.of_enough (Nat.lt_succ_self _)
  rw [h'.of_enough (Nat.lt_succ_self _)] at hread
  cases hread
  exact ⟨rfl, rfl⟩

theorem leads (h : Parses grammar n c t c') : c.Leads c' := by
  obtain ⟨fuel, hread⟩ := h
  have hsteady : Steady (grammar fuel n) := steady_grammar fuel n
  exact hsteady.of_ok hread

/-- What is read without a report is read without recovery. -/
theorem strict (h : Parses grammar n c t c') (hfound : c'.found = c.found) :
    Parses strictGrammar n c t c' := by
  obtain ⟨fuel, hread⟩ := h
  exact ⟨fuel, strictGrammar_of_clean hread hfound⟩

end Parses

/-- A declaration that does not stand at the end of the input has an end, and at least one token is
gone there, even if the declaration was given up. -/
theorem declaration_advances (hopen : ¬ c.atEnd) :
    ∃ s c', Parses grammar .declaration c s c' ∧ c'.rest <:+ c.rest ∧
      c'.rest.length < c.rest.length := by
  obtain ⟨s, c', hread⟩ := declaration_ok (Nat.lt_succ_self c.rest.length)
  have hparses : Parses grammar .declaration c s c' := ⟨_, hread⟩
  exact ⟨s, c', hparses, hparses.leads.rest, (ample_grammar _).advances c s c' hopen hread⟩

end Reading

/-! ## Attempts -/

/-- An expression goes from the position to the end of the input, and nothing is reported. -/
def ReachesEnd (g : Nat → Grammar) (c : Cursor) (e : Expr) (c' : Cursor) : Prop :=
  Parses g .expression c e c' ∧ c'.atEnd ∧ c'.found = c.found

/-- An attempt to read an expression up to the end does so if it can, and is taken back if not. -/
theorem trailing_eq (c : Cursor) :
    (∃ e c', ReachesEnd grammar c e c' ∧
      ∀ fuel, c.rest.length < fuel → trailing fuel c = .ok (some e) c') ∨
    (∀ e c', ¬ ReachesEnd grammar c e c') ∧
      ∃ k, ∀ fuel, c.rest.length < fuel → trailing fuel c = .ok none { c with nextRef := k } := by
  have henough : c.rest.length < c.rest.length + 1 := Nat.lt_succ_self _
  have hsame (fuel : Nat) (hfuel : c.rest.length < fuel) :
      trailing fuel c = trailing (c.rest.length + 1) c := by
    unfold trailing
    rw [grammar_of_enough hfuel henough]
  obtain ⟨e, c', hact, hread, hend, hfound⟩ | ⟨k, -, hact⟩ | ⟨c', -, hspent⟩ :=
    trailing_cases (c.rest.length + 1) c
  · exact .inl ⟨e, c', ⟨⟨_, hread⟩, hend, hfound⟩, fun fuel hfuel => (hsame fuel hfuel).trans hact⟩
  · refine .inr ⟨?_, k, fun fuel hfuel => (hsame fuel hfuel).trans hact⟩
    rintro e c' ⟨hread, hend, hfound⟩
    -- such an expression would not have been taken back
    have hlength : c'.found.length = c.found.length := congrArg List.length hfound
    unfold trailing at hact
    rw [hread.of_enough henough] at hact
    dsimp only at hact
    rw [if_pos ⟨hend, hlength⟩] at hact
    cases hact
  · exact absurd hspent ((ample_grammar _).lasts .expression c henough c')

/-! ## Courses -/

/-- What a round comes to: the statement, unless the declaration was given up, and what was
reported. -/
structure Round where
  statement : Option Stmt
  reported : List Diagnostic

/-- The rounds in which a program is read from the first position up to the second one, with the
expression that is left over at a prompt. Only the numbers of references tell that an attempt was
made in a round. -/
inductive Course (g : Nat → Grammar) (mode : Mode) :
    Cursor → List Round → Option Expr → Cursor → Prop
  | ended {c} (hend : c.atEnd) : Course g mode c [] none c
  | expression {c e c'} (hmode : mode = .interactive) (hopen : ¬ c.atEnd)
    (hread : ReachesEnd g c e c') : Course g mode c [] (some e) c'
  | declaration {c k s c₁ ds rounds e c'} (hopen : ¬ c.atEnd)
    (hscript : mode = .script → k = c.nextRef)
    (hattempt : mode = .interactive → ∀ e c', ¬ ReachesEnd grammar c e c')
    (hread : Parses g .declaration { c with nextRef := k } s c₁)
    (hreported : c₁.found = c.found ++ ds) (hrest : Course g mode c₁ rounds e c') :
    Course g mode c (⟨s, ds⟩ :: rounds) e c'

namespace Course

variable {g : Nat → Grammar} {mode : Mode} {rounds : List Round} {e : Option Expr}
  {c c' : Cursor}

/-- What is found in the end is what the rounds report. -/
theorem found_eq (h : Course g mode c rounds e c') :
    c'.found = c.found ++ rounds.flatMap Round.reported := by
  induction h with
  | ended hend => simp
  | expression hmode hopen hread => simpa using hread.2.2
  | declaration hopen hscript hattempt hread hreported hrest ih =>
    rw [ih, hreported, List.flatMap_cons, List.append_assoc]

/-- If no round reports anything, there was nothing to recover from. -/
theorem strict (h : Course grammar mode c rounds e c')
    (hclean : rounds.flatMap Round.reported = []) : Course strictGrammar mode c rounds e c' := by
  induction h with
  | ended hend => exact .ended hend
  | expression hmode hopen hread =>
    obtain ⟨hexpression, hend, hfound⟩ := hread
    exact .expression hmode hopen ⟨hexpression.strict hfound, hend, hfound⟩
  | @declaration c k s c₁ ds rounds e c' hopen hscript hattempt hread hreported hrest ih =>
    rw [List.flatMap_cons, List.append_eq_nil_iff] at hclean
    obtain ⟨hnone, hlater⟩ := hclean
    have hnothing : ds = [] := hnone
    have hsame : c₁.found = c.found := by
      rw [hreported, hnothing, List.append_nil]
    exact .declaration hopen hscript hattempt (hread.strict hsame) hreported (ih hlater)

/-- Without recovery every round has a statement. -/
theorem length_statements (h : Course strictGrammar mode c rounds e c') :
    (rounds.filterMap Round.statement).length = rounds.length := by
  induction h with
  | ended hend => rfl
  | expression hmode hopen hread => rfl
  | @declaration c k s c₁ ds rounds e c' hopen hscript hattempt hread hreported hrest ih =>
    cases s with
    | none =>
      obtain ⟨fuel, hnone⟩ := hread
      exact absurd hnone strictGrammar_ne_none
    | some s =>
      have hsome : (⟨some s, ds⟩ : Round).statement = some s := rfl
      rw [List.filterMap_cons_some hsome, List.length_cons, List.length_cons, ih]

end Course

/-- **Every parse has a course.** With any fuel that is enough for the tokens, the parser goes
through it. -/
theorem exists_course (mode : Mode) (c : Cursor) :
    ∃ rounds e c', Course grammar mode c rounds e c' ∧ rounds.length ≤ c.rest.length ∧
      ∀ fuel more done, c.rest.length < fuel → c.rest.length < more →
        programFrom mode fuel more done c =
          .ok ⟨done.reverse ++ rounds.filterMap Round.statement, e⟩ c' := by
  induction hlength : c.rest.length using Nat.strong_induction_on generalizing c with
  | _ length ih =>
    subst hlength
    by_cases hend : c.atEnd
    · refine ⟨[], none, c, .ended hend, Nat.zero_le _, fun fuel more done _ hmore => ?_⟩
      obtain ⟨more, rfl⟩ : ∃ k, more = k + 1 := ⟨more - 1, by omega⟩
      rw [programFrom_atEnd mode more done hend, List.filterMap_nil, List.append_nil]
    -- one more round, after an attempt that leaves the position but for the numbers
    have hround (k : Nat) (hscript : mode = .script → k = c.nextRef)
        (hattempt : mode = .interactive → ∀ e c', ¬ ReachesEnd grammar c e c')
        (hspeculation : ∀ fuel, c.rest.length < fuel →
          speculation mode fuel c = .ok none { c with nextRef := k }) :
        ∃ rounds e c', Course grammar mode c rounds e c' ∧ rounds.length ≤ c.rest.length ∧
          ∀ fuel more done, c.rest.length < fuel → c.rest.length < more →
            programFrom mode fuel more done c =
              .ok ⟨done.reverse ++ rounds.filterMap Round.statement, e⟩ c' := by
      obtain ⟨s, c₁, hread, -, hadvances⟩ :=
        declaration_advances (c := { c with nextRef := k }) hend
      have hshorter : c₁.rest.length < c.rest.length := hadvances
      obtain ⟨ds, hreported⟩ := hread.leads.found
      obtain ⟨rounds, e, c', hcourse, hcount, hrun⟩ := ih c₁.rest.length hshorter c₁ rfl
      refine ⟨⟨s, ds⟩ :: rounds, e, c',
        .declaration hend hscript hattempt hread hreported.symm hcourse, ?_,
        fun fuel more done hfuel hmore => ?_⟩
      · exact Nat.lt_of_le_of_lt hcount hshorter
      · obtain ⟨more, rfl⟩ : ∃ k, more = k + 1 := ⟨more - 1, by omega⟩
        rw [programFrom_open mode more done hend, hspeculation fuel hfuel]
        dsimp only
        rw [hread.of_enough hfuel]
        dsimp only
        rw [hrun fuel more _ (by omega) (by omega)]
        cases s <;> simp
    cases mode with
    | script => exact hround c.nextRef (fun _ => rfl) nofun fun fuel _ => rfl
    | interactive =>
      obtain ⟨e, c', hreaches, hact⟩ | ⟨hnot, k, hact⟩ := trailing_eq c
      · refine ⟨[], some e, c', .expression rfl hend hreaches, Nat.zero_le _,
          fun fuel more done hfuel hmore => ?_⟩
        obtain ⟨more, rfl⟩ : ∃ k, more = k + 1 := ⟨more - 1, by omega⟩
        have hspeculation : speculation .interactive fuel c = .ok (some e) c' := hact fuel hfuel
        rw [programFrom_open .interactive more done hend, hspeculation, List.filterMap_nil,
          List.append_nil]
      · exact hround k nofun (fun _ => hnot) hact

end ScriptLang.Grammar

namespace ScriptLang

open Grammar

/-- **The result of a parse is told by its course.** It is the program of the statements of the
rounds if these report nothing, and what they report otherwise. -/
theorem Program.parse_course (tokens : List Token) (mode : Mode) (nextRef : Nat) :
    ∃ rounds e c, Course grammar mode (.start tokens nextRef) rounds e c ∧
      rounds.length ≤ tokens.length ∧
      (∀ fuel, tokens.length < fuel → programFrom mode fuel fuel [] (.start tokens nextRef) =
        .ok ⟨rounds.filterMap Round.statement, e⟩ c) ∧
      (Program.parse tokens mode nextRef).result =
        if rounds.flatMap Round.reported = [] then .ok ⟨rounds.filterMap Round.statement, e⟩
        else .error (rounds.flatMap Round.reported) := by
  obtain ⟨rounds, e, c, hcourse, hcount, hrun⟩ := exists_course mode (.start tokens nextRef)
  have hfound : c.found = rounds.flatMap Round.reported := by
    rw [hcourse.found_eq]
    rfl
  have hprogram : program mode (.start tokens nextRef) =
      .ok ⟨rounds.filterMap Round.statement, e⟩ c :=
    hrun _ _ [] (Nat.lt_succ_self _) (Nat.lt_succ_self _)
  refine ⟨rounds, e, c, hcourse, hcount, fun fuel hfuel => hrun fuel fuel [] hfuel hfuel, ?_⟩
  unfold Program.parse
  rw [hprogram, ← hfound]

/-- **Parsing ends, and says whether anything was wrong.** Whatever the tokens are, a declaration
that does not stand at the end of the input reads at least one of them, even if it is given up. So
there is a course of rounds through the tokens, at most one for each, and the parser goes through it
with any fuel beyond their number. The result is the program of the statements of the rounds if
these report nothing, and what they report otherwise. In the first case every round has a statement,
and parsing without recovery goes the same way. -/
theorem parsing_ends (tokens : List Token) (mode : Mode) (nextRef : Nat) :
    (∀ c : Cursor, ¬ c.atEnd → ∃ s c', Parses grammar .declaration c s c' ∧ c'.rest <:+ c.rest ∧
      c'.rest.length < c.rest.length) ∧
    ∃ rounds e c, Course grammar mode (.start tokens nextRef) rounds e c ∧
      rounds.length ≤ tokens.length ∧
      (∀ fuel, tokens.length < fuel → programFrom mode fuel fuel [] (.start tokens nextRef) =
        .ok ⟨rounds.filterMap Round.statement, e⟩ c) ∧
      (rounds.flatMap Round.reported = [] →
        (Program.parse tokens mode nextRef).result =
            .ok ⟨rounds.filterMap Round.statement, e⟩ ∧
          (rounds.filterMap Round.statement).length = rounds.length ∧
          Course strictGrammar mode (.start tokens nextRef) rounds e c) ∧
      (rounds.flatMap Round.reported ≠ [] →
        (Program.parse tokens mode nextRef).result = .error (rounds.flatMap Round.reported)) := by
  obtain ⟨rounds, e, c, hcourse, hcount, hrun, hresult⟩ := Program.parse_course tokens mode nextRef
  refine ⟨fun c => declaration_advances, rounds, e, c, hcourse, hcount, hrun, fun hclean => ?_,
    fun hfaulty => ?_⟩
  · have hstrict := hcourse.strict hclean
    refine ⟨?_, hstrict.length_statements, hstrict⟩
    rw [hresult, if_pos hclean]
  · rw [hresult, if_neg hfaulty]

end ScriptLang
