import ScriptLang.Proofs.Evaluation.Blame
import ScriptLang.Proofs.Grammar.Lines
import ScriptLang.Proofs.Realms.Runs
import ScriptLang.Proofs.Scoping.Lines
import ScriptLang.Proofs.Sessions.Rejection
import ScriptLang.Proofs.Sessions.Tree
import ScriptLang.Proofs.Source.Lines

/-!
# Lines of errors

Every error is on a line of the source. The words that a tree keeps are on lines of the tokens
(`Program.on_of_parse`), the resolver blames its faults on such words, and so does a run: the code
that is run in a fresh session is that of its program, wherever functions and methods have carried
it (`Realm.lined`), and an error is blamed on a word of the node that raised it.
-/

namespace ScriptLang

open Scoping (Phrase)

variable {P : Nat → Prop}

/-! ## Runs -/

/-- What may be run has its words on lines of which `P` holds. -/
def Realm.lined (P : Nat → Prop) : Realm where
  frame _ := True
  object _ := True
  code t := t.On P
  visits h := h.on

theorem Realm.admits_lined {p : Program} (h : p.On P) : (Realm.lined P).Admits p :=
  ⟨h.statements, fun e he => h.trailing e he⟩

/-- An error is blamed on a word of the code that is evaluated. -/
theorem Task.Blames.on {task : Task} {word : Lexeme} (h : task.Blames word) :
    ∃ t, task.code? = some t ∧ (t.On P → P word.line) := by
  cases h with
  | «variable» => exact ⟨_, rfl, fun h => h⟩
  | assign => exact ⟨_, rfl, fun h => h.1⟩
  | unary => exact ⟨_, rfl, fun h => h.1⟩
  | binary => exact ⟨_, rfl, fun h => h.1⟩
  | call => exact ⟨_, rfl, fun h => h.2.2⟩
  | get => exact ⟨_, rfl, fun h => h.2⟩
  | set => exact ⟨_, rfl, fun h => h.2.1⟩
  | this => exact ⟨_, rfl, fun h => h⟩
  | super => exact ⟨_, rfl, fun h => h.1⟩
  | superMethod => exact ⟨_, rfl, fun h => h.2⟩
  | superclass => exact ⟨_, rfl, fun h => h.2.1 _ rfl⟩

/-- A run that fails on a machine whose functions have lines of the source, as its program, has an
error on such a line. -/
theorem Machine.line_of_run_failed {m m' : Machine} {fuel : Nat} {p : Program} {e : RunError}
    (hm : (Realm.lined P).Closed m) (hp : p.On P) (h : m.run fuel p = (.failed e, m')) :
    P e.line := by
  obtain ⟨M, hM, hstop⟩ := run_failed h
  obtain ⟨N, m₁, hpath, hraises, -⟩ := M.raised_of_stop hstop
  obtain ⟨word, fault, hword, rfl⟩ := hraises.blames
  have hfits := hm.fits_run (Realm.admits_lined hp) ⟨M, hM, hpath⟩
  obtain ⟨t, ht, hon⟩ := hword.on
  exact hon (hfits.code t ht)

/-! ## Sessions -/

namespace Session

variable {s : Session} {source : String} {mode : Mode}

/-- The words of a parsed text and its grammatical faults are on lines of the source. -/
theorem on_of_parsed (s : Session) (source : String) (mode : Mode) :
    (∀ p, s.parsed source mode = .ok p → p.On (IsLineOf source)) ∧
      ∀ d ∈ s.syntaxFaults source mode, IsLineOf source d.line := by
  have hne : Source.tokens source ≠ [] := by
    intro hnil
    have hlast := Source.getLast?_tokens source
    rw [hnil] at hlast
    cases hlast
  obtain ⟨hok, herror⟩ := @Program.on_of_parse (IsLineOf source) _ mode s.nextRef hne
    (Source.lines_scanned source).2.1
  refine ⟨hok, fun d hd => ?_⟩
  unfold syntaxFaults at hd
  split at hd
  · cases hd
  · rename_i ds hds
    exact herror ds hds d hd

theorem lines_of_scopeFaults (s : Session) (source : String) (mode : Mode) :
    ∀ d ∈ s.scopeFaults source mode, IsLineOf source d.line := by
  intro d hd
  unfold scopeFaults at hd
  split at hd
  · cases hd
  · rename_i p hp
    split at hd
    · cases hd
    · rename_i ds hds
      exact Program.lines_of_resolve ((s.on_of_parsed source mode).1 p hp) hds d hd

theorem lines_of_faults (s : Session) (source : String) (mode : Mode) :
    ∀ d ∈ s.faults source mode, IsLineOf source d.line := by
  by_cases hearly : Source.diagnostics source ++ s.syntaxFaults source mode = []
  · unfold faults
    rw [hearly]
    exact s.lines_of_scopeFaults source mode
  · rw [faults_of_ne_nil hearly]
    intro d hd
    rcases List.mem_append.mp hd with hd | hd
    · exact (Source.lines_scanned source).2.2 d hd
    · exact (s.on_of_parsed source mode).2 d hd

/-- What a run reports is on lines of the source, and so is its error if all functions of the
session have such lines. -/
theorem lines_of_run (s : Session) (fuel : Nat) (source : String) (mode : Mode) :
    (∀ d ∈ (s.run fuel source mode).1.diagnostics, IsLineOf source d.line) ∧
      ((Realm.lined (IsLineOf source)).Closed s.machine →
        ∀ e ∈ (s.run fuel source mode).1.error?, IsLineOf source e.line) := by
  by_cases h : s.Reports source mode
  · obtain ⟨-, hrun⟩ := run_of_reports h fuel
    rw [hrun]
    exact ⟨s.lines_of_faults source mode, nofun⟩
  · obtain ⟨p, b, hp, -, hrun, -⟩ := run_of_no_reports h fuel
    rw [hrun]
    refine ⟨fun d hd => ?_, fun hs e he => ?_⟩
    · obtain ⟨v, hend⟩ | ⟨e, hend⟩ | hend := (s.machine.learn b).run_ended fuel p <;>
        · rw [hend] at hd
          cases hd
    · cases hend : (s.machine.learn b).run fuel p with
      | mk outcome m' =>
        rw [hend] at he
        cases outcome with
        | failed e' =>
          cases he
          exact Machine.line_of_run_failed (hs.learn b) ((s.on_of_parsed source mode).1 p hp) hend
        | _ => cases he

end Session

/-- **Every error carries a line of the source.** The lines of the tokens never go down, and the mark
of the end is on the last line. What the scanner, the parser and the resolver find wrong with a text
is on lines of that text, in a fresh session as in any other one, and so is what comes of it
when it is run. A runtime error of a text in a fresh session is on a line of the text, too. -/
theorem errors_on_lines_of_source (source : String) (mode : Mode) (fuel : Nat) :
    (Source.tokens source).Pairwise (·.line ≤ ·.line) ∧
    (Source.tokens source).getLast? =
      some (.endOfInput (Source.newlines source.toList + 1)) ∧
    (∀ t ∈ Source.tokens source, IsLineOf source t.line) ∧
    (∀ d ∈ Source.diagnostics source, IsLineOf source d.line) ∧
    (∀ s : Session,
      (∀ d ∈ s.syntaxFaults source mode, IsLineOf source d.line) ∧
      (∀ d ∈ s.scopeFaults source mode, IsLineOf source d.line) ∧
      ∀ d ∈ (s.run fuel source mode).1.diagnostics, IsLineOf source d.line) ∧
    ∀ (maxDepth : Nat) (clock : Nat → Float),
      ∀ e ∈ ((Session.start maxDepth clock).run fuel source mode).1.error?,
        IsLineOf source e.line := by
  obtain ⟨hmono, htokens, hfaults⟩ := Source.lines_scanned source
  refine ⟨hmono, Source.getLast?_tokens source, htokens, hfaults, fun s => ?_, fun maxDepth clock => ?_⟩
  · exact ⟨(s.on_of_parsed source mode).2, s.lines_of_scopeFaults source mode,
      (s.lines_of_run fuel source mode).1⟩
  · refine ((Session.start maxDepth clock).lines_of_run fuel source mode).2 ?_
    exact Realm.closed_start (fun _ => trivial) (fun _ => trivial) maxDepth clock

end ScriptLang
