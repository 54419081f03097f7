import ScriptLang.Proofs.Grammar.Progress
import ScriptLang.Proofs.Sessions.Renumbering

/-!
# Rejected texts

A text that some stage before the run reports on is rejected with these reports: those of the
scanner and then those of the parser or, if there are none, those of the resolver. Nothing else
comes of it. The machine stays as it is, and only the next references get higher numbers, which no
later run shows (`rejected_text_changes_nothing`). A text without reports is run.
-/

namespace ScriptLang

variable {s : Session} {source : String} {mode : Mode}

/-! ## Reports -/

theorem Program.resolve_complains {p : Program} {globals : List String} {ds : List Diagnostic}
    (h : p.resolve globals = .error ds) : ds ≠ [] := by
  unfold resolve at h
  dsimp only at h
  split at h
  · cases h
  · rename_i hfound
    cases h
    exact sortByNumber_ne_nil _ hfound

namespace Session

/-- How a text is parsed after earlier ones, whatever the scanner reports. -/
def parsed (s : Session) (source : String) (mode : Mode) : Except (List Diagnostic) Program :=
  (Program.parse (Source.tokens source) mode s.nextRef).result

/-- What the parser reports on a text. -/
def syntaxFaults (s : Session) (source : String) (mode : Mode) : List Diagnostic :=
  match s.parsed source mode with
  | .ok _ => []
  | .error ds => ds

/-- What the resolver reports on a text that is parsed. -/
def scopeFaults (s : Session) (source : String) (mode : Mode) : List Diagnostic :=
  match s.parsed source mode with
  | .error _ => []
  | .ok p =>
    match p.resolve s.machine.globalNames with
    | .ok _ => []
    | .error ds => ds

/-- Some stage before the run ends with an error. -/
inductive Reports (s : Session) (source : String) (mode : Mode) : Prop
  | scanning (h : Source.diagnostics source ≠ [])
  | parsing {ds : List Diagnostic} (h : s.parsed source mode = .error ds)
  | resolving {p : Program} {ds : List Diagnostic} (hp : s.parsed source mode = .ok p)
    (h : p.resolve s.machine.globalNames = .error ds)

/-- What is reported on a text: the faults of the scanner and of the parser or, if there are none,
those of the resolver. -/
def faults (s : Session) (source : String) (mode : Mode) : List Diagnostic :=
  match Source.diagnostics source ++ s.syntaxFaults source mode with
  | [] => s.scopeFaults source mode
  | ds => ds

theorem syntaxFaults_of_ok {p : Program} (h : s.parsed source mode = .ok p) :
    s.syntaxFaults source mode = [] := by
  unfold syntaxFaults
  rw [h]

theorem syntaxFaults_of_error {ds : List Diagnostic} (h : s.parsed source mode = .error ds) :
    s.syntaxFaults source mode = ds := by
  unfold syntaxFaults
  rw [h]

theorem faults_of_ne_nil (h : Source.diagnostics source ++ s.syntaxFaults source mode ≠ []) :
    s.faults source mode = Source.diagnostics source ++ s.syntaxFaults source mode := by
  unfold faults
  cases hfaults : Source.diagnostics source ++ s.syntaxFaults source mode with
  | nil => exact absurd hfaults h
  | cons d ds => rfl

/-- A text with faults of the scanner or of the parser is rejected with these. -/
theorem run_of_lexical_or_syntax (fuel : Nat)
    (h : Source.diagnostics source ++ s.syntaxFaults source mode ≠ []) :
    s.run fuel source mode =
      (.rejected (Source.diagnostics source ++ s.syntaxFaults source mode),
        (s.parse source mode).2) := by
  have hparse : (s.parse source mode).1 =
      .error (Source.diagnostics source ++ s.syntaxFaults source mode) := by
    unfold parse
    dsimp only
    cases hparsed : s.parsed source mode with
    | ok p =>
      rw [syntaxFaults_of_ok hparsed, List.append_nil] at h ⊢
      unfold parsed at hparsed
      rw [hparsed]
      cases hscan : Source.diagnostics source with
      | nil => exact absurd hscan h
      | cons d ds => rfl
    | error es =>
      rw [syntaxFaults_of_error hparsed]
      unfold parsed at hparsed
      rw [hparsed]
      cases Source.diagnostics source <;> rfl
  exact run_of_parse_error hparse

/-- A text without such faults goes on to the resolver. -/
theorem run_of_parsed (fuel : Nat) (hscan : Source.diagnostics source = []) {p : Program}
    (hp : s.parsed source mode = .ok p) :
    s.run fuel source mode = (s.parse source mode).2.runProgram fuel p := by
  have hparse : (s.parse source mode).1 = .ok p := by
    unfold parse
    dsimp only
    rw [hscan]
    exact hp
  exact run_of_parse_ok hparse

/-- A text on which some stage reports is rejected, with some faults. -/
theorem run_of_reports (h : s.Reports source mode) (fuel : Nat) :
    s.faults source mode ≠ [] ∧
      s.run fuel source mode = (.rejected (s.faults source mode), (s.parse source mode).2) := by
  by_cases hearly : Source.diagnostics source ++ s.syntaxFaults source mode = []
  · obtain ⟨hscan, hsyntax⟩ := List.append_eq_nil_iff.mp hearly
    cases h with
    | scanning h => exact absurd hscan h
    | parsing h =>
      rw [syntaxFaults_of_error h] at hsyntax
      exact absurd hsyntax (Program.parse_complains h)
    | @resolving p ds hp h =>
      have hfaults : s.faults source mode = ds := by
        unfold faults scopeFaults
        rw [hearly, hp]
        dsimp only
        rw [h]
      rw [hfaults, run_of_parsed fuel hscan hp]
      exact ⟨Program.resolve_complains h, runProgram_of_error h⟩
  · rw [faults_of_ne_nil hearly]
    exact ⟨hearly, run_of_lexical_or_syntax fuel hearly⟩

/-- A text on which no stage reports is run. -/
theorem run_of_no_reports (h : ¬ s.Reports source mode) (fuel : Nat) :
    ∃ p b, s.parsed source mode = .ok p ∧ p.resolve s.machine.globalNames = .ok b ∧
      (s.run fuel source mode).1 = ((s.machine.learn b).run fuel p).1 ∧
      (s.run fuel source mode).2.machine = ((s.machine.learn b).run fuel p).2 := by
  have hscan : Source.diagnostics source = [] := by
    by_contra hscan
    exact h (.scanning hscan)
  cases hp : s.parsed source mode with
  | error ds => exact absurd (.parsing hp) h
  | ok p =>
    cases hresolve : p.resolve s.machine.globalNames with
    | error ds => exact absurd (.resolving hp hresolve) h
    | ok b =>
      refine ⟨p, b, rfl, hresolve, ?_⟩
      rw [run_of_parsed fuel hscan hp, runProgram_of_ok (s := (s.parse source mode).2) hresolve]
      exact ⟨rfl, rfl⟩

end Session

/-- Whatever is run is not rejected. -/
theorem Machine.run_ended (m : Machine) (fuel : Nat) (p : Program) :
    (∃ v, (m.run fuel p).1 = .finished v) ∨ (∃ e, (m.run fuel p).1 = .failed e) ∨
      (m.run fuel p).1 = .unfinished := by
  unfold run
  split
  · exact .inl ⟨_, rfl⟩
  · exact .inr (.inl ⟨_, rfl⟩)
  · exact .inr (.inr rfl)

/-! ## Rejection -/

/-- **A rejected text changes nothing.** If the scanner, the parser or the resolver reports on a
text, then it is rejected with the reports of the scanner and the parser or, if there are none, those
of the resolver, and there are some; there is no value and no error; and the machine is as before. Only
the numbers of later references are shifted, and but for that all texts that are run later end,
print and leave the session as if the text had not been there. A text on which none of the stages
reports is run, and not rejected. -/
theorem rejected_text_changes_nothing (hs : s.Occurs) (fuel : Nat) (source : String) (mode : Mode) :
    (s.Reports source mode →
      (Source.diagnostics source ++ s.syntaxFaults source mode ≠ [] →
        (s.run fuel source mode).1.diagnostics =
          Source.diagnostics source ++ s.syntaxFaults source mode) ∧
      (Source.diagnostics source ++ s.syntaxFaults source mode = [] →
        (s.run fuel source mode).1.diagnostics = s.scopeFaults source mode) ∧
      (s.run fuel source mode).1.diagnostics ≠ [] ∧
      (s.run fuel source mode).1.exitCode = 65 ∧
      (s.run fuel source mode).1.value? = none ∧
      (s.run fuel source mode).1.error? = none ∧
      (s.run fuel source mode).2.machine = s.machine ∧
      ∃ k, (s.run fuel source mode).2.nextRef = s.nextRef + k ∧
        ∀ texts : List Submission,
          ((s.run fuel source mode).2.runAll texts).1 =
            (s.runAll texts).1.map (Prod.map (Outcome.renumber (shiftFrom s.nextRef k)) id) ∧
          (s.runAll texts).2.Renumbered (shiftFrom s.nextRef k)
            ((s.run fuel source mode).2.runAll texts).2) ∧
    (¬ s.Reports source mode →
      ∃ p b, s.parsed source mode = .ok p ∧ p.resolve s.machine.globalNames = .ok b ∧
        (s.run fuel source mode).1 = ((s.machine.learn b).run fuel p).1 ∧
        (s.run fuel source mode).2.machine = ((s.machine.learn b).run fuel p).2 ∧
        (s.run fuel source mode).1.diagnostics = [] ∧
        ((s.run fuel source mode).1.exitCode = 0 ∨ (s.run fuel source mode).1.exitCode = 70)) := by
  constructor
  · intro h
    obtain ⟨hfaults, hrun⟩ := Session.run_of_reports h fuel
    obtain ⟨hle, -⟩ := s.parse_fresh source mode
    obtain ⟨k, hk⟩ := Nat.exists_eq_add_of_le hle
    have hsession : (s.parse source mode).2 = { s with nextRef := s.nextRef + k } := by
      rw [← hk]
      rfl
    rw [hrun, hsession]
    refine ⟨fun hearly => Session.faults_of_ne_nil hearly, fun hearly => ?_, hfaults, rfl, rfl, rfl,
      rfl, k, rfl, fun texts => ?_⟩
    · change s.faults source mode = s.scopeFaults source mode
      unfold Session.faults
      rw [hearly]
    · have hrenumbered := hs.numbered.renumbered k
      exact hrenumbered.runAll (leavesBelow_shiftFrom s.nextRef k).injective texts
  · intro h
    obtain ⟨p, b, hp, hresolve, houtcome, hmachine⟩ := Session.run_of_no_reports h fuel
    refine ⟨p, b, hp, hresolve, houtcome, hmachine, ?_⟩
    rw [houtcome]
    obtain ⟨v, hend⟩ | ⟨e, hend⟩ | hend := (s.machine.learn b).run_ended fuel p
    · rw [hend]
      exact ⟨rfl, .inl rfl⟩
    · rw [hend]
      exact ⟨rfl, .inr rfl⟩
    · rw [hend]
      exact ⟨rfl, .inr rfl⟩

/-- After a text with a fault of the scanner and one of the parser: the next texts are run in the
same way, and their references have numbers that are higher by one. -/
theorem missing_expression_changes_nothing : ∃ s',
    s' = (Session.start.run 1 "a; @ print ;" .script).2 ∧
    (Session.start.run 1 "a; @ print ;" .script).1.diagnostics.length = 2 ∧
    s'.machine = Session.start.machine ∧
    ∀ texts, (s'.runAll texts).1 =
      (Session.start.runAll texts).1.map (Prod.map (Outcome.renumber (shiftFrom 0 1)) id) := by
  have hreports : Session.start.Reports "a; @ print ;" .script := .scanning (by decide)
  obtain ⟨-, -, -, -, -, -, hmachine, k, hk, htexts⟩ :=
    (rejected_text_changes_nothing (.start _ _) 1 "a; @ print ;" .script).1 hreports
  have hnext : (Session.start.run 1 "a; @ print ;" .script).2.nextRef = 1 := rfl
  have hone : k = 1 := by
    have hstart : Session.start.nextRef = 0 := rfl
    omega
  subst hone
  exact ⟨_, rfl, rfl, hmachine, fun texts => (htexts texts).1⟩

end ScriptLang
