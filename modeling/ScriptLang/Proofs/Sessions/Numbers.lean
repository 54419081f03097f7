import Mathlib
import ScriptLang.Proofs.Scoping.Containment
import ScriptLang.Proofs.Sessions.Attempts
import ScriptLang.Proofs.Sessions.Tree

/-!
# Numbers of references in sessions

The references of a session are numbered through all its texts, be they run, rejected or stopped,
and with numbers left out that were spent on attempts. So no number is used twice, what a program
adds to the bindings of the session replaces nothing, and the references of a function mean what they
meant when it was declared, however much is run afterwards.

A function is made from a routine in the program of some launch (`Realm.ofLaunches`), which is why
its references are among those that were bound then.
-/

namespace ScriptLang

open Scoping (Phrase Visits)
open Relation (ReflTransGen)

/-! ## Tables -/

namespace Program

end Program

/-! ## What launches contain -/

namespace Launch

variable {l : Launch} {s : Session} {t : Phrase}

/-- The phrase is in the program. -/
def Contains (l : Launch) (t : Phrase) : Prop :=
  (Phrase.statements l.program.statements).Contains t ∨
    (Phrase.expressions l.program.trailing.toList).Contains t

theorem Contains.ids (h : l.Contains t) {id : Nat} (hid : id ∈ t.ids) : id ∈ l.program.ids := by
  rcases h with h | h
  · exact List.mem_append_left _ (h.ids hid)
  · exact List.mem_append_right _ (h.ids hid)

/-- What is bound when the program starts: its own references, and those bound before. -/
theorem hops?_start (l : Launch) (id : Nat) :
    l.start.bindings.hops? id = (l.bindings.hops? id).or (l.machine.bindings.hops? id) :=
  Bindings.hops?_merge l.machine.bindings l.bindings id

end Launch

/-- All frames and instances, and the code of some launches. -/
def Realm.ofLaunches (L : List Launch) : Realm where
  frame _ := True
  object _ := True
  code t := ∃ l ∈ L, l.Contains t
  visits := by
    rintro ⟨a, t, S, r⟩ ⟨a', t', S', r'⟩ hv ⟨l, hl, h⟩
    have hholds : t.Holds t' := ⟨a, S, r, a', S', r', hv⟩
    exact ⟨l, hl, h.imp (·.tail hholds) (·.tail hholds)⟩

theorem Realm.admits_ofLaunches {L : List Launch} {l : Launch} (h : l ∈ L) :
    (Realm.ofLaunches L).Admits l.program := by
  refine ⟨⟨l, h, .inl .refl⟩, fun e he => ⟨l, h, .inr ?_⟩⟩
  rw [he]
  exact .single ⟨{}, [], .start [], _, _, _, .first⟩

namespace Session

variable {L : List Launch} {l : Launch} {s s' : Session} {fuel : Nat} {source : String} {mode : Mode}

/-- However a text fares, its numbers are spent. -/
theorem nextRef_run (s : Session) (fuel : Nat) (source : String) (mode : Mode) :
    (s.run fuel source mode).2.nextRef = (s.parse source mode).2.nextRef := by
  cases hlaunch : s.launch? fuel source mode with
  | none =>
    obtain ⟨ds, hrun⟩ := run_of_no_launch hlaunch
    rw [hrun]
  | some l => rw [run_of_launch hlaunch]

/-- A run leaves the bindings with which it started. -/
theorem bindings_run (h : s.launch? fuel source mode = some l) :
    (s.run fuel source mode).2.machine.bindings = l.start.bindings := by
  rw [run_of_launch h]
  exact (l.start.home_grows_run l.fuel l.program).bindings

/-! ## Numbers that were spent -/

/-- The references that are still to come are not bound. -/
def Unspent (s : Session) : Prop := ∀ id, s.nextRef ≤ id → s.machine.bindings.hops? id = none

theorem unspent_start (maxDepth : Nat) (clock : Nat → Float) : (start maxDepth clock).Unspent := by
  intro id _
  change (∅ : Bindings).hops? id = none
  simp [Bindings.hops?]

/-- What is bound before a run is bound in the same way during it. -/
theorem hops?_of_launch (h : s.launch? fuel source mode = some l) {id : Nat} (hid : id < s.nextRef) :
    l.start.bindings.hops? id = s.machine.bindings.hops? id := by
  have hfollows := follows_of_launch h
  have hnew : id ∉ l.program.ids := fun hmem => Nat.not_lt.mpr (hfollows.fresh id hmem) hid
  rw [Launch.hops?_start, hfollows.machine, Program.unbound hfollows.accepted hnew, Option.none_or]

/-- The references of a program that is run are bound as they were resolved. -/
theorem Unspent.hops?_own (hs : s.Unspent) (h : s.launch? fuel source mode = some l) {id : Nat}
    (hid : id ∈ l.program.ids) : l.start.bindings.hops? id = l.bindings.hops? id := by
  have hfollows := follows_of_launch h
  rw [Launch.hops?_start, hfollows.machine, hs id (hfollows.fresh id hid), Option.or_none]

theorem Unspent.run (hs : s.Unspent) (fuel : Nat) (source : String) (mode : Mode) :
    (s.run fuel source mode).2.Unspent := by
  intro id hid
  rw [nextRef_run] at hid
  have hle := Nat.le_trans (s.parse_fresh source mode).1 hid
  cases hlaunch : s.launch? fuel source mode with
  | none =>
    obtain ⟨ds, hrun⟩ := run_of_no_launch hlaunch
    rw [hrun]
    exact hs id hle
  | some l =>
    have hfollows := follows_of_launch hlaunch
    have hnew : id ∉ l.program.ids := fun hmem =>
      Nat.not_lt.mpr hid ((fresh_of_launch hlaunch).numbered.bounds id hmem).2
    rw [bindings_run hlaunch, Launch.hops?_start, Program.unbound hfollows.accepted hnew,
      Option.none_or, hfollows.machine]
    exact hs id hle

/-- Later sessions have spent more numbers, and all that were spent before are bound as they
were. -/
theorem Becomes.keeps (h : s.Becomes s') : s.nextRef ≤ s'.nextRef ∧
    ∀ id, id < s.nextRef → s'.machine.bindings.hops? id = s.machine.bindings.hops? id := by
  induction h with
  | refl => exact ⟨Nat.le_refl _, fun _ _ => rfl⟩
  | takePrinted _ ih => exact ih
  | @run s' _ fuel source mode ih =>
    obtain ⟨hle, hsame⟩ := ih
    refine ⟨?_, fun id hid => ?_⟩
    · rw [nextRef_run]
      exact Nat.le_trans hle (s'.parse_fresh source mode).1
    · cases hlaunch : s'.launch? fuel source mode with
      | none =>
        obtain ⟨ds, hrun⟩ := run_of_no_launch hlaunch
        rw [hrun]
        exact hsame id hid
      | some l =>
        rw [bindings_run hlaunch, hops?_of_launch hlaunch (Nat.lt_of_lt_of_le hid hle)]
        exact hsame id hid

/-! ## Where functions come from -/

/-- What a new session becomes by runs of any texts, and the launches of those that were
accepted. -/
inductive Launched : List Launch → Session → Prop
  | start (maxDepth : Nat) (clock : Nat → Float) : Launched [] (.start maxDepth clock)
  | run {L : List Launch} {s : Session} (h : Launched L s) (fuel : Nat) (source : String)
    (mode : Mode) : Launched (L ++ (s.launch? fuel source mode).toList) (s.run fuel source mode).2
  | takePrinted {L : List Launch} {s : Session} (h : Launched L s) : Launched L s.takePrinted.2

/-- What holds of a session after any runs. -/
structure Bound (L : List Launch) (s : Session) : Prop where
  unspent : s.Unspent
  spent : ∀ l ∈ L, ∀ id ∈ l.program.ids, id < s.nextRef
  kept : ∀ l ∈ L, ∀ id ∈ l.program.ids, s.machine.bindings.hops? id = l.bindings.hops? id
  closed : ∀ L', (∀ l ∈ L, l ∈ L') → (Realm.ofLaunches L').Closed s.machine

theorem Bound.closed_start (h : s.Bound L) (hmachine : l.machine = s.machine) {L' : List Launch}
    (hL : ∀ l ∈ L, l ∈ L') : (Realm.ofLaunches L').Closed l.start := by
  unfold Launch.start
  rw [hmachine]
  exact (h.closed L' hL).learn l.bindings

theorem Bound.run (h : s.Bound L) (fuel : Nat) (source : String) (mode : Mode) :
    (s.run fuel source mode).2.Bound (L ++ (s.launch? fuel source mode).toList) := by
  have hle := (s.parse_fresh source mode).1
  cases hlaunch : s.launch? fuel source mode with
  | none =>
    obtain ⟨ds, hrun⟩ := run_of_no_launch hlaunch
    have hunspent := h.unspent.run fuel source mode
    rw [hrun] at hunspent ⊢
    rw [Option.toList_none, List.append_nil]
    exact ⟨hunspent, fun l hl id hid => Nat.lt_of_lt_of_le (h.spent l hl id hid) hle, h.kept, h.closed⟩
  | some l =>
    refine ⟨h.unspent.run fuel source mode, fun l' hl' id hid => ?_, fun l' hl' id hid => ?_,
      fun L' hL' => ?_⟩
    · rw [nextRef_run]
      rcases List.mem_append.mp hl' with hl' | hl'
      · exact Nat.lt_of_lt_of_le (h.spent l' hl' id hid) hle
      · obtain rfl := List.mem_singleton.mp hl'
        exact ((fresh_of_launch hlaunch).numbered.bounds id hid).2
    · rw [bindings_run hlaunch]
      rcases List.mem_append.mp hl' with hl' | hl'
      · rw [hops?_of_launch hlaunch (h.spent l' hl' id hid)]
        exact h.kept l' hl' id hid
      · obtain rfl := List.mem_singleton.mp hl'
        exact h.unspent.hops?_own hlaunch hid
    · have hstart := h.closed_start (machine_of_launch hlaunch) fun l' hl' =>
        hL' l' (List.mem_append_left _ hl')
      rw [run_of_launch hlaunch]
      exact (hstart.run (Realm.admits_ofLaunches (hL' l (by simp))) l.fuel).1

theorem bound_start (maxDepth : Nat) (clock : Nat → Float) : (start maxDepth clock).Bound [] :=
  ⟨unspent_start maxDepth clock, by simp, by simp, fun _ _ =>
    Realm.closed_start (fun _ => trivial) (fun _ => trivial) maxDepth clock⟩

theorem Bound.takePrinted (h : s.Bound L) : s.takePrinted.2.Bound L :=
  ⟨h.unspent, h.spent, h.kept, fun L' hL' => (h.closed L' hL').congr rfl rfl rfl (Nat.le_refl _)⟩

theorem Launched.bound (h : Launched L s) : s.Bound L := by
  induction h with
  | start maxDepth clock => exact bound_start maxDepth clock
  | takePrinted _ ih => exact ih.takePrinted
  | run _ fuel source mode ih => exact ih.run fuel source mode

end Session

end ScriptLang
