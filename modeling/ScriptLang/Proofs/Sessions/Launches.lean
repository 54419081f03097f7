import ScriptLang.Proofs.Agreement.Running
import ScriptLang.Proofs.Grammar.Trees
import ScriptLang.Session

/-!
# Launches

A `Launch` is an accepted program with what it is run on. It has places, those of the walk that
bound its references (`Launch.Places`), and moments, those of its run (`Launch.Runs`).

A launch *follows* a session if it is the next thing that the session runs: its program is
proper, it was accepted with the global names of the session, and none of its references
has a number that was used before (`Launch.Follows`). What a session makes of a source text is such
a launch (`Session.follows_of_launch`).
-/

namespace ScriptLang

open Scoping (Place Visits Phrase)
open Relation (ReflTransGen)

/-! ## Proper programs -/

namespace Program

/-- The numbers of the references of a program. -/
def ids (p : Program) : List Nat :=
  (Phrase.statements p.statements).ids ++ (Phrase.expressions p.trailing.toList).ids

/-- A program as it is parsed: well-formed, and with a number of its own for each reference. -/
structure Proper (p : Program) : Prop where
  distinct : p.ids.Nodup
  statements : Stmt.AllWellFormed p.statements
  trailing : Expr.AllWellFormed p.trailing.toList

end Program

theorem Grammar.FreshProgram.numbered {lo hi : Nat} {p : Program} (h : FreshProgram lo hi p) :
    Numbered lo hi p.ids := by
  obtain ⟨mid, hstatements, htrailing⟩ := h
  exact hstatements.numbered.append htrailing.numbered

theorem Grammar.FreshProgram.proper {lo hi : Nat} {p : Program} (h : FreshProgram lo hi p) :
    p.Proper := by
  have hnumbered := h.numbered
  obtain ⟨mid, hstatements, htrailing⟩ := h
  exact ⟨hnumbered.nodup, hstatements.wellFormed, htrailing.wellFormed⟩

/-! ## Launches -/

/-- An accepted program, its bindings, the machine before it, and the fuel for it. -/
structure Launch where
  machine : Machine
  bindings : Bindings
  fuel : Nat
  program : Program

namespace Launch

/-- The machine on which the program is run. -/
def start (l : Launch) : Machine := l.machine.learn l.bindings

@[simp]
theorem start_frames (l : Launch) : l.start.frames = l.machine.frames := rfl

@[simp]
theorem start_fields (l : Launch) : l.start.fields = l.machine.fields := rfl

/-- How the run ends. -/
def run (l : Launch) : Outcome × Machine := l.start.run l.fuel l.program

/-- The moments of the run. -/
def Runs (l : Launch) (N : Moment) : Prop := l.start.Runs l.fuel l.program N

/-- The place of the statements. -/
def statementsPlace (l : Launch) : Place :=
  .ofStatements l.program.statements l.machine.globalNames

/-- Where the walk over the program starts: at the statements, and once more at the trailing
expression. -/
inductive Root (l : Launch) : Place → Prop
  | statements : Root l l.statementsPlace
  | trailing {e} (h : l.program.trailing = some e) :
    Root l ⟨{}, .expression e, [], l.statementsPlace.after⟩

/-- The places of the walk that bound the references of the program. -/
def Places (l : Launch) (P : Place) : Prop := ∃ Q, l.Root Q ∧ ReflTransGen Visits Q P

theorem Root.places {l : Launch} {P : Place} (h : l.Root P) : l.Places P := ⟨P, h, .refl⟩

theorem Places.visits {l : Launch} {P P' : Place} (h : l.Places P) (hv : Visits P P') :
    l.Places P' := by
  obtain ⟨Q, hQ, hpath⟩ := h
  exact ⟨Q, hQ, hpath.tail hv⟩

theorem Places.nested {l : Launch} {P : Place} (h : l.Places P) : P.Nested := by
  obtain ⟨Q, hQ, hpath⟩ := h
  refine Scoping.Visits.path_nested hpath ?_
  cases hQ <;> exact .top rfl

/-- The launch is what the session runs next. -/
structure Follows (l : Launch) (s : Session) : Prop where
  machine : l.machine = s.machine
  accepted : l.program.resolve l.machine.globalNames = .ok l.bindings
  proper : l.program.Proper
  fresh : ∀ id ∈ l.program.ids, s.nextRef ≤ id

end Launch

/-! ## Soundness of the places -/

theorem Scoping.Place.Sound.congr {table table' : Bindings} {P : Place} (h : P.Sound table)
    (hsame : ∀ id ∈ P.phrase.ids, table'.hops? id = table.hops? id) : P.Sound table' :=
  { h with agrees := fun id hid => (hsame id hid).trans (h.agrees id hid) }

namespace Launch

variable {l : Launch} {s : Session} {P : Place} {table : Bindings}

theorem program_eq (p : Program) (globals : List String) :
    Scoping.program p (.start globals) = (Phrase.expressions p.trailing.toList).walk {}
      (Place.ofStatements p.statements globals).after := by
  obtain ⟨statements, trailing⟩ := p
  cases trailing <;> rfl

theorem Root.sound (h : l.Root P) (hproper : l.program.Proper)
    (haccepted : l.program.resolve l.machine.globalNames = .ok l.bindings) :
    P.Sound l.bindings := by
  obtain ⟨hfound, hbindings⟩ := (Program.resolve_eq_ok).mp haccepted
  rw [program_eq] at hfound hbindings
  obtain ⟨hstatements, htrailing, hdisjoint⟩ := List.nodup_append'.mp hproper.distinct
  have hfirst := Phrase.walk_grows {} (.statements l.program.statements)
    (.start l.machine.globalNames)
  have hlast := Phrase.walk_grows {} (.expressions l.program.trailing.toList)
    l.statementsPlace.after
  cases h with
  | statements =>
    refine ⟨hstatements, fun id _ => rfl, fun id hid => ?_, ?_, hproper.statements, .top, nofun⟩
    · rw [← hbindings]
      exact hlast.bindings id fun hid' => hdisjoint hid hid'
    · have hprefix := hlast.found
      rw [← List.prefix_nil, ← hfound]
      exact hprefix
  | @trailing e he =>
    rw [he] at hfound hbindings htrailing hdisjoint
    have hids : (Phrase.expressions (some e).toList).ids = (Phrase.expression e).ids := by simp
    rw [hids] at htrailing hdisjoint
    have hwf := hproper.trailing
    rw [he] at hwf
    refine ⟨htrailing, fun id hid => ?_, fun id _ => ?_, hfound, hwf.1, ?_, nofun⟩
    · exact hfirst.bindings id fun hid' => hdisjoint hid' hid
    · rw [← hbindings]
      rfl
    · have hscopes : l.statementsPlace.after.scopes = [] := hfirst.scopes.nil_iff.mpr rfl
      change Scoping.Shaped [] l.statementsPlace.after.scopes
      rw [hscopes]
      exact .top

theorem Places.sound (h : l.Places P) (hroot : ∀ Q, l.Root Q → Q.Sound table) : P.Sound table := by
  obtain ⟨Q, hQ, hpath⟩ := h
  exact Visits.path_sound hpath (hroot Q hQ)

end Launch

/-- Only the references of a program get bindings. -/
theorem Program.unbound {p : Program} {globals : List String} {b : Bindings}
    (h : p.resolve globals = .ok b) {id : Nat} (hid : id ∉ p.ids) : b.hops? id = none := by
  obtain ⟨-, hbindings⟩ := Program.resolve_eq_ok.mp h
  rw [Launch.program_eq] at hbindings
  have hid' : id ∉ (Phrase.statements p.statements).ids ∧
      id ∉ (Phrase.expressions p.trailing.toList).ids := by
    rwa [← not_or, ← List.mem_append]
  have hfirst := Phrase.walk_grows {} (.statements p.statements) (.start globals)
  have hlast := Phrase.walk_grows {} (.expressions p.trailing.toList)
    (Place.ofStatements p.statements globals).after
  rw [← hbindings, hlast.bindings id hid'.2]
  exact hfirst.bindings id hid'.1

end ScriptLang
