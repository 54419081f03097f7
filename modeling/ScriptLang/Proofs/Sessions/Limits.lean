import Mathlib
import ScriptLang.Proofs.Evaluation.Depth
import ScriptLang.Proofs.Sessions.History

/-!
# Sessions with different limits

Two sessions that differ in nothing but how many calls may go on at a time. They accept the same
texts (`Session.run_allow`), and what they make of an accepted one is told by `limit_only_stops`.
-/

namespace ScriptLang

namespace Session

/-- The session with another limit on the depth of calls. -/
def allow (s : Session) (d : Nat) : Session := { s with machine := s.machine.allow d }

/-- A text is rejected, whatever the limit and the fuel are, or it is a program that is run. -/
theorem run_allow (s : Session) (source : String) (mode : Mode) :
    (∃ ds, ∀ d fuel, (s.allow d).run fuel source mode =
      (.rejected ds, (s.parse source mode).2.allow d)) ∨
    ∃ (m : Machine) (p : Program), m.maxDepth = s.machine.maxDepth ∧ ∀ d fuel,
      (s.allow d).run fuel source mode =
      (((m.allow d).run fuel p).1, ⟨((m.allow d).run fuel p).2, (s.parse source mode).2.nextRef⟩) := by
  have hparse (d : Nat) :
      (s.allow d).parse source mode = ((s.parse source mode).1, (s.parse source mode).2.allow d) :=
    rfl
  cases hresult : (s.parse source mode).1 with
  | error ds =>
    refine .inl ⟨ds, fun d fuel => ?_⟩
    exact run_of_parse_error (s := s.allow d) (by rw [hparse, hresult])
  | ok p =>
    have hrun (d fuel : Nat) :
        (s.allow d).run fuel source mode = ((s.parse source mode).2.allow d).runProgram fuel p :=
      run_of_parse_ok (s := s.allow d) (by rw [hparse, hresult])
    cases hresolve : p.resolve s.machine.globalNames with
    | error ds => exact .inl ⟨ds, fun d fuel => (hrun d fuel).trans (runProgram_of_error hresolve)⟩
    | ok bindings =>
      refine .inr ⟨s.machine.learn bindings, p, rfl, fun d fuel => ?_⟩
      exact (hrun d fuel).trans (runProgram_of_ok hresolve)

end Session

/-- **The limit on calls changes a run only by stopping it.** Of two sessions that differ in the
limit alone, the one with the higher limit runs every text to the same outcome, with the same
output and the same machine, unless the other one's run goes too deep. If that happens, all that
was printed by then is printed under the higher limit, too, whether and however long that run
goes on. -/
theorem limit_only_stops (s : Session) (d : Nat) (hd : s.machine.maxDepth ≤ d) (source : String)
    (mode : Mode) (fuel : Nat) (hended : (s.run fuel source mode).1 ≠ .unfinished) :
    ((∀ word, (s.run fuel source mode).1 ≠ .failed (.at word .stackOverflow)) →
      (s.allow d).run fuel source mode =
        ((s.run fuel source mode).1, (s.run fuel source mode).2.allow d)) ∧
    ∀ word, (s.run fuel source mode).1 = .failed (.at word .stackOverflow) →
      ∀ fuel', fuel ≤ fuel' ∨ ((s.allow d).run fuel' source mode).1 ≠ .unfinished →
        ∃ more, ((s.allow d).run fuel' source mode).2.machine.printed.contents =
          (s.run fuel source mode).2.machine.printed.contents ++ more := by
  have hself : s.allow s.machine.maxDepth = s := rfl
  rcases s.run_allow source mode with ⟨ds, hrun⟩ | ⟨m, p, hm, hrun⟩
  · -- a rejected text
    have hrejected (fuel : Nat) := hself ▸ hrun s.machine.maxDepth fuel
    refine ⟨fun _ => ?_, fun word herror => ?_⟩
    · rw [hrun, hrejected]
      rfl
    · rw [hrejected] at herror
      cases herror
  · have hm' : m.allow s.machine.maxDepth = m := by rw [← hm]; rfl
    have hfirst (fuel : Nat) := hself ▸ hrun s.machine.maxDepth fuel
    rw [hm'] at hfirst
    rw [hfirst] at hended ⊢
    have hprefix (fuel : Nat) {word} (herror : (m.run fuel p).1 = .failed (.at word .stackOverflow)) :
        (m.run fuel p).2.printed.Begins ((m.allow d).run fuel p).2.printed := by
      rcases Machine.run_allow (hm ▸ hd) fuel p with hsame | ⟨-, hprinted⟩
      · rw [hsame]
        exact .refl _
      · exact hprinted
    refine ⟨fun hno => ?_, fun word herror fuel' hfuel => ?_⟩
    · rcases Machine.run_allow (hm ▸ hd) fuel p with hsame | ⟨⟨word, hoverflow⟩, -⟩
      · rw [hrun, hsame]
        rfl
      · exact absurd hoverflow (hno word)
    · rw [hrun] at hfuel ⊢
      by_cases hle : fuel ≤ fuel'
      · -- more fuel does not change the run that went too deep
        have hmore := Machine.run_of_le hle hended
        rw [← hmore] at herror ⊢
        exact hprefix fuel' herror
      · -- less fuel was enough for the other run
        have hless := Machine.run_of_le (Nat.le_of_not_le hle) (hfuel.resolve_left hle)
        rw [← hless]
        exact hprefix fuel herror

/-- A function that calls itself once more than allowed prints once, and it prints that and more
when one call more is allowed. -/
theorem deeper_recursion_prints_more :
    (Session.start 1).machine.maxDepth ≤ 2 ∧
    ((Session.start 1).run 3 "fun f(){print nil;f();}f();" .script).1 =
      .failed (.at ⟨")", 1⟩ .stackOverflow) ∧
    ((Session.start 1).run 3 "fun f(){print nil;f();}f();" .script).2.machine.printed.contents =
      "nil\n" ∧
    ∃ more, (((Session.start 1).allow 2).run 3 "fun f(){print nil;f();}f();"
      .script).2.machine.printed.contents = "nil\n" ++ more := by
  have hdeep : ((Session.start 1).run 3 "fun f(){print nil;f();}f();" .script).1 =
    .failed (.at ⟨")", 1⟩ .stackOverflow) := by cbv
  have hended : ((Session.start 1).run 3 "fun f(){print nil;f();}f();" .script).1 ≠ .unfinished := by
    rw [hdeep]
    rintro ⟨⟩
  have hprinted : ((Session.start 1).run 3 "fun f(){print nil;f();}f();"
    .script).2.machine.printed.contents = "nil\n" := by cbv
  have hd : (Session.start 1).machine.maxDepth ≤ 2 := by decide
  have hmore := (limit_only_stops _ 2 hd _ _ 3 hended).2 _ hdeep 3 (.inl (Nat.le_refl 3))
  rw [hprinted] at hmore
  exact ⟨hd, hdeep, hprinted, hmore⟩

end ScriptLang
