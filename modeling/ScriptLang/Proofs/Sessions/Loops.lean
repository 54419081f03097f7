import Mathlib
import ScriptLang.Proofs.Evaluation.Fuel
import ScriptLang.Proofs.Realms.Loops
import ScriptLang.Proofs.Sessions.Rejection
import ScriptLang.Proofs.Sessions.Tree

/-!
# Sessions without loops

Functions may call one another in any way, and so may methods and initializers. But only so many
calls may go on at a time, and without loops that is all it takes for every run to end. The loops
that count are those of the program and of the functions that the session can reach from its
global frame.
-/

namespace ScriptLang

namespace Session

variable {s : Session} {l : Launch} {fuel : Nat} {source : String} {mode : Mode}

/-- With other fuel the same program is run. -/
theorem launch_with (h : s.launch? fuel source mode = some l) (more : Nat) :
    l.fuel = fuel ∧ s.launch? more source mode = some { l with fuel := more } := by
  obtain ⟨p, bindings, hparse, hresolve, rfl⟩ := launch?_eq_some.mp h
  exact ⟨rfl, launch?_eq_some.mpr ⟨p, bindings, hparse, hresolve, rfl⟩⟩

/-- From a session without loops, the next run stays in a realm without loops. -/
theorem Rests.loopless (h : s.Rests) (hl : s.launch? fuel source mode = some l)
    (hprogram : l.program.hasLoop = false) (hfunctions : Realm.Loopless s.machine) :
    (Realm.loopless s.machine).Closed l.start ∧
      (Realm.loopless s.machine).Admits l.program := by
  obtain ⟨hstatements, htrailing⟩ := Bool.or_eq_false_iff.mp hprogram
  refine ⟨?_, hstatements, fun e he => ?_⟩
  · unfold Launch.start
    rw [machine_of_launch hl]
    exact (h.closed.loopless hfunctions).learn l.bindings
  · rw [he] at htrailing
    exact htrailing

/-- The limit on calls is fuel enough for a run without loops. -/
theorem Rests.run_lasts (h : s.Rests) (hl : s.launch? fuel source mode = some l)
    (hfuel : s.machine.maxDepth ≤ fuel) (hprogram : l.program.hasLoop = false)
    (hfunctions : Realm.Loopless s.machine) : l.run.1 ≠ .unfinished := by
  obtain ⟨hclosed, hadmits⟩ := h.loopless hl hprogram hfunctions
  refine hclosed.run_lasts (fun _ ht => ht) hadmits ?_
  change l.machine.maxDepth ≤ l.fuel
  rw [machine_of_launch hl, (launch_with hl fuel).1]
  exact hfuel

/-- A run without loops leaves a session without loops. -/
theorem Rests.loopless_run (h : s.Rests) (hl : s.launch? fuel source mode = some l)
    (hprogram : l.program.hasLoop = false) (hfunctions : Realm.Loopless s.machine) :
    Realm.Loopless (s.run fuel source mode).2.machine := by
  obtain ⟨hclosed, hadmits⟩ := h.loopless hl hprogram hfunctions
  obtain ⟨hafter, -⟩ := hclosed.run hadmits l.fuel
  rw [run_of_launch hl]
  intro f hf
  have hfunction : (Realm.loopless s.machine).HasFunction l.run.2 f :=
    hafter.reaches (t := .frame _) ⟨hafter.globals, hafter.globals_lt⟩ hf
  exact hfunction.code

/-- A session that has run nothing can reach its global frame and what is built in, and nothing
else. -/
theorem loopless_start (maxDepth : Nat) (clock : Nat → Float) :
    Realm.Loopless (start maxDepth clock).machine := by
  intro f hf
  have hreached (t : Thing)
      (ht : (start maxDepth clock).machine.Reaches (.frame (start maxDepth clock).machine.globals) t) :
      t = .frame (start maxDepth clock).machine.globals ∨
        t = .value (.callable (.native .clock)) := by
    induction ht with
    | refl => exact .inl rfl
    | tail _ hlast ih =>
      rcases ih with rfl | rfl
      · cases hlast with
        | outward hout =>
          have hnone := (rests_start maxDepth clock).closed.outward_globals
          exact absurd (hout.symm.trans hnone) (Option.some_ne_none _)
        | «variable» hv =>
          obtain ⟨-, rfl⟩ := here?_start hv
          exact .inr rfl
      · cases hlast
  rcases hreached _ hf with hf | hf <;> cases hf

end Session

/-- **Without loops every run ends.** If there is no loop in an accepted program and in any function
that can be reached from the global frame, be it a value, a method or a closure in another one, the
program runs to its end or is stopped by an error. The limit on calls is fuel enough, and with more
fuel the run is the same. -/
theorem run_ends_without_loops (maxDepth : Nat) (clock : Nat → Float) (s : Session)
    (hs : (Session.start maxDepth clock).Becomes s) (fuel : Nat)
    (hfuel : s.machine.maxDepth ≤ fuel) (source : String) (mode : Mode) (l : Launch)
    (hl : s.launch? fuel source mode = some l) (hprogram : l.program.hasLoop = false)
    (hfunctions : ∀ f,
      s.machine.Reaches (.frame s.machine.globals) (.value (.callable (.function f))) →
        f.routine.hasLoop = false) :
    ((∃ v, (s.run fuel source mode).1 = .finished v) ∨
      ∃ e, (s.run fuel source mode).1 = .failed e) ∧
    ∀ more, fuel ≤ more → s.run more source mode = s.run fuel source mode := by
  obtain ⟨hrests, -⟩ := (Session.rests_start maxDepth clock).becomes hs
  have hended := hrests.run_lasts hl hfuel hprogram hfunctions
  have hrun := Session.run_of_launch hl
  refine ⟨?_, fun more hmore => ?_⟩
  · rw [hrun]
    rcases Machine.run_ended l.start l.fuel l.program with ⟨v, hv⟩ | ⟨e, he⟩ | hunfinished
    · exact .inl ⟨v, hv⟩
    · exact .inr ⟨e, he⟩
    · exact absurd hunfinished hended
  · obtain ⟨hself, hlaunch⟩ := Session.launch_with hl more
    have hsame : ({ l with fuel := more } : Launch).run = l.run :=
      Machine.run_of_le (hself.symm ▸ hmore) hended
    rw [Session.run_of_launch hlaunch, hrun, hsame]

/-- A function that calls itself is stopped by the limit on calls, also in a later run than the one
in which it was declared. -/
theorem recursion_ends :
    (((Session.start 1).run 1 "fun f(){f();}" .script).2.run 1 "f();" .script).1 =
      .failed (.at ⟨")", 1⟩ .stackOverflow) ∧
    ∀ more, 1 ≤ more →
      ((Session.start 1).run 1 "fun f(){f();}" .script).2.run more "f();" .script =
        ((Session.start 1).run 1 "fun f(){f();}" .script).2.run 1 "f();" .script := by
  have hs : (Session.start 1).Becomes ((Session.start 1).run 1 "fun f(){f();}" .script).2 :=
    .run .refl ..
  have hfirst : ((Session.start 1).launch? 1 "fun f(){f();}" .script).map (·.program.hasLoop) =
    some false := by cbv
  have hsecond : (((Session.start 1).run 1 "fun f(){f();}" .script).2.launch? 1 "f();" .script).map
    (·.program.hasLoop) = some false := by cbv
  have hfuel : ((Session.start 1).run 1 "fun f(){f();}" .script).2.machine.maxDepth = 1 := by cbv
  have hrun : (((Session.start 1).run 1 "fun f(){f();}" .script).2.run 1 "f();" .script).1 =
    .failed (.at ⟨")", 1⟩ .stackOverflow) := by cbv
  obtain ⟨l₀, hl₀, hprogram₀⟩ := Option.map_eq_some_iff.mp hfirst
  obtain ⟨l, hl, hprogram⟩ := Option.map_eq_some_iff.mp hsecond
  have hfunctions := (Session.rests_start 1 _).loopless_run hl₀ hprogram₀
    (Session.loopless_start 1 _)
  exact ⟨hrun, (run_ends_without_loops 1 _ _ hs 1 (Nat.le_of_eq hfuel) _ _ l hl hprogram
    hfunctions).2⟩

end ScriptLang
