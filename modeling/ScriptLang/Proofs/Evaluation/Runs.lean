import ScriptLang.Proofs.Evaluation.Control

/-!
# Runs of programs

A run of a program starts from the global frame at depth `0` (`Machine.home`). Its first
moments are the statements and, once they are done, the trailing expression
(`Machine.Starts`); all others are parts of these (`Machine.Runs`). How a run ends is read
off the end of one of its first moments: `run_finished`, `run_failed`.

The main statement, `run_restores_control`, puts together what is known about the current
frame and the depth of calls.
-/

namespace ScriptLang

namespace Machine

variable {m m' : Machine} {fuel : Nat} {p : Program}

/-- The machine as a run starts on it. -/
def home (m : Machine) : Machine := { m with current := m.globals, depth := 0 }

/-! ## Moments of a run -/

/-- The first moments of a run. -/
inductive Starts (m : Machine) (fuel : Nat) (p : Program) : Moment → Prop
  | statements : Starts m fuel p ⟨fuel, .topLevel p.statements, m.home⟩
  | trailing {e m₁} (htrailing : p.trailing = some e)
    (hstatements : Eval.topLevel (.ofFuel fuel) p.statements m.home = .ok () m₁) :
    Starts m fuel p ⟨fuel, .expression e, m₁⟩

/-- The moments of a run. -/
def Runs (m : Machine) (fuel : Nat) (p : Program) (N : Moment) : Prop :=
  ∃ M, m.Starts fuel p M ∧ Relation.ReflTransGen Part M N

theorem Starts.runs {M : Moment} (h : m.Starts fuel p M) : m.Runs fuel p M := ⟨M, h, .refl⟩

theorem Runs.part {M N : Moment} (h : m.Runs fuel p M) (hN : Part M N) : m.Runs fuel p N := by
  obtain ⟨M₀, hM₀, hpath⟩ := h
  exact ⟨M₀, hM₀, hpath.tail hN⟩

/-- What holds of the first moments of a run, and of the parts of every moment of which it
holds, holds of all moments of the run. -/
theorem Runs.induction {C : Moment → Prop} {N : Moment} (h : m.Runs fuel p N)
    (hstart : ∀ M, m.Starts fuel p M → C M)
    (hpart : ∀ M N, m.Runs fuel p M → C M → Part M N → C N) : C N := by
  obtain ⟨M₀, hM₀, hpath⟩ := h
  have hboth : m.Runs fuel p N ∧ C N := by
    induction hpath with
    | refl => exact ⟨hM₀.runs, hstart _ hM₀⟩
    | tail _ hlast ih => exact ⟨ih.1.part hlast, hpart _ _ ih.1 ih.2 hlast⟩
  exact hboth.2

/-! ## How a run ends -/

/-- What is left of a run after the statements. -/
def finish (fuel : Nat) (p : Program) : Eval (Option Value) :=
  match p.trailing with
  | some e => some <$> Eval.expression (.ofFuel fuel) e
  | none => pure none

theorem program_eq (fuel : Nat) (p : Program) (m : Machine) :
    Eval.program (.ofFuel fuel) p m =
      (Eval.topLevel (.ofFuel fuel) p.statements >>= fun _ => finish fuel p) m.home := rfl

theorem run_finished {v : Option Value} (h : m.run fuel p = (.finished v, m')) :
    ∃ m₁, Eval.topLevel (.ofFuel fuel) p.statements m.home = .ok () m₁ ∧
      finish fuel p m₁ = .ok v m' := by
  unfold run at h
  rw [program_eq] at h
  cases hend : (Eval.topLevel (.ofFuel fuel) p.statements >>= fun _ => finish fuel p) m.home with
  | ok w m₂ =>
    rw [hend] at h
    cases h
    obtain ⟨⟨⟩, m₁, hstatements, hfinish⟩ := Eval.bind_eq_ok hend
    exact ⟨m₁, hstatements, hfinish⟩
  | error stop m₂ =>
    rw [hend] at h
    cases stop <;> cases h

/-- A run that stops does so because one of its first moments stops. -/
theorem exists_start_of_stop {stop : Abort}
    (h : Eval.program (.ofFuel fuel) p m = .error stop m') :
    ∃ M, m.Starts fuel p M ∧ M.ending = .error stop m' := by
  rw [program_eq] at h
  cases hstatements : Eval.topLevel (.ofFuel fuel) p.statements m.home with
  | ok u m₁ =>
    rw [Eval.bind_of_ok hstatements] at h
    cases htrailing : p.trailing with
    | none =>
      rw [finish, htrailing] at h
      cases h
    | some e =>
      rw [finish, htrailing] at h
      change EStateM.map some (Eval.expression (.ofFuel fuel) e) m₁ = _ at h
      unfold EStateM.map at h
      split at h
      · cases h
      · rename_i hexpression
        cases h
        exact ⟨_, .trailing htrailing hstatements, hexpression⟩
  | error stop' m₁ =>
    rw [Eval.bind_of_error hstatements] at h
    cases h
    exact ⟨_, .statements, hstatements⟩

theorem run_failed {error : RunError} (h : m.run fuel p = (.failed error, m')) :
    ∃ M, m.Starts fuel p M ∧ M.ending = .error (.error error) m' := by
  unfold run at h
  split at h
  · cases h
  · rename_i hend
    cases h
    exact exists_start_of_stop hend
  · cases h

/-- However a run ends, the machine has only grown, and it is in the global frame at depth `0`. -/
theorem home_grows_run (m : Machine) (fuel : Nat) (p : Program) :
    m.home.Grows (p.statements.flatMap Stmt.declares) (m.run fuel p).2 := by
  have hkeeps : Eval.Keeps (p.statements.flatMap Stmt.declares)
      (Eval.topLevel (.ofFuel fuel) p.statements >>= fun _ => finish fuel p) m.home := by
    refine Eval.keeps_bind (Moment.keeps ⟨fuel, .topLevel p.statements, m.home⟩) fun _ m₁ _ => ?_
    unfold finish
    cases p.trailing with
    | none => exact Eval.keeps_pure
    | some e => exact Eval.ends_map (Eval.Keeps.of_none (Moment.keeps ⟨fuel, .expression e, m₁⟩))
  unfold run
  rw [program_eq]
  cases hend : (Eval.topLevel (.ofFuel fuel) p.statements >>= fun _ => finish fuel p) m.home with
  | ok v m' => exact hkeeps.of_ok hend
  | error stop m' => cases stop <;> exact hkeeps.of_error hend

theorem home_eq_self (hcurrent : m.current = m.globals) (hdepth : m.depth = 0) : m.home = m := by
  obtain ⟨frames, fields, made, globals, current, depth⟩ := m
  cases hcurrent
  cases hdepth
  rfl

/-- The machine that a run leaves is ready for the next one. -/
theorem Grows.home_eq {xs : List String} (h : m.home.Grows xs m') : m'.home = m' :=
  home_eq_self (h.current.trans h.globals.symm) h.depth

/-! ## Control -/

theorem Starts.leads {M : Moment} (h : m.Starts fuel p M) : m.home.Leads M.machine := by
  cases h with
  | statements => exact .refl _
  | trailing _ hstatements => exact Moment.leads ⟨fuel, .topLevel p.statements, _⟩ hstatements

theorem Runs.leads {N : Moment} (h : m.Runs fuel p N) : m.home.Leads N.machine :=
  h.induction (fun _ hM => hM.leads) fun _ _ _ hM hN => hM.trans hN.leads

/-- The statements of a program and its trailing expression are evaluated in the global frame,
outside all calls. -/
theorem Starts.control {M : Moment} (h : m.Starts fuel p M) :
    M.machine.current = m.globals ∧ M.machine.depth = 0 := by
  cases h with
  | statements => exact ⟨rfl, rfl⟩
  | trailing _ hstatements =>
    have hgrows := Eval.Ends.of_ok (Moment.keeps ⟨fuel, .topLevel p.statements, _⟩) hstatements
    exact ⟨hgrows.current, hgrows.depth⟩

end Machine

namespace Eval

variable {α : Type} {m : Machine}

/-- However a computation ends, the current frame and the depth are what they were before. -/
def Restores (act : Eval α) (m : Machine) : Prop :=
  Ends act m (fun _ m' => m'.current = m.current ∧ m'.depth = m.depth)
    fun _ m' => m'.current = m.current ∧ m'.depth = m.depth

theorem Keeps.restores {xs : List String} {act : Eval α} (h : Keeps xs act m) : Restores act m :=
  Ends.mono h (fun _ _ _ h => ⟨h.current, h.depth⟩) fun _ _ h => ⟨h.current, h.depth⟩

theorem restores_within {act : Eval α} {frame : FrameId}
    (h : Restores act { m with current := frame }) : Restores (within frame act) m :=
  ends_within (Ends.mono h (fun _ _ _ h => ⟨rfl, h.2⟩) fun _ _ h => ⟨rfl, h.2⟩)

end Eval

open Eval Machine in
/-- **Control is restored.** However a piece of evaluation ends, statements in a given frame
and a call of any value with any arguments included, the current frame and the depth of calls
are what they were before. At no moment of a run are there more calls than allowed. A run that
fails leaves the machine as it was where the error was raised, but in the global frame at
depth `0`, and every later run starts on that very machine, with its own bindings added. -/
theorem run_restores_control :
    (∀ (fuel : Nat) (t : Task) (m : Machine), Restores (t.perform fuel) m) ∧
    (∀ (fuel : Nat) (frame : FrameId) (body : List Stmt) (m : Machine),
      Restores (within frame (statements (.ofFuel fuel) body)) m) ∧
    (∀ (fuel : Nat) (callee : Value) (arguments : List Value) (closing : Lexeme) (m : Machine),
      Restores (callValue (invokeWith fuel) callee arguments closing) m) ∧
    (∀ (m : Machine) (fuel : Nat) (p : Program) (N : Moment), m.Runs fuel p N →
      N.machine.depth ≤ m.maxDepth) ∧
    (∀ (m : Machine) (fuel : Nat) (p : Program) (error : RunError) (m' : Machine),
      m.run fuel p = (.failed error, m') →
      (∃ N m₁, m.Runs fuel p N ∧ N.Raises (.error error) m₁ ∧
        m' = { m₁ with current := m.globals, depth := 0 }) ∧
      m.home.Grows (p.statements.flatMap Stmt.declares) m' ∧
      ∀ (bindings : Bindings) (fuel' : Nat) (p' : Program),
        (m'.learn bindings).Starts fuel' p'
          ⟨fuel', .topLevel p'.statements, m'.learn bindings⟩) := by
  have hkeeps (fuel : Nat) (t : Task) (m : Machine) : Keeps t.declares (t.perform fuel) m :=
    Moment.keeps ⟨fuel, t, m⟩
  refine ⟨fun fuel t m => (hkeeps fuel t m).restores, fun fuel frame body m => ?_,
    fun fuel callee arguments closing m => ?_, fun m fuel p N hN => ?_,
    fun m fuel p error m' hrun => ?_⟩
  · exact restores_within (hkeeps fuel (.statements body) _).restores
  · exact (keeps_callValue fun c _ _ _ => hkeeps fuel (.apply c arguments) _).restores
  · exact hN.leads.depth (Nat.zero_le _)
  · obtain ⟨M, hstart, hM⟩ := run_failed hrun
    obtain ⟨N, m₁, hpath, hraises, hm'⟩ := M.raised_of_stop hM
    obtain ⟨hcurrent, hdepth⟩ := hstart.control
    rw [hcurrent, hdepth] at hm'
    have hgrows := m.home_grows_run fuel p
    rw [hrun] at hgrows
    refine ⟨⟨N, m₁, ⟨M, hstart, hpath⟩, hraises, hm'⟩, hgrows, fun bindings fuel' p' => ?_⟩
    have hhome : (m'.learn bindings).home = m'.learn bindings :=
      congrArg (learn · bindings) hgrows.home_eq
    have hfirst : (m'.learn bindings).Starts fuel' p'
        ⟨fuel', .topLevel p'.statements, (m'.learn bindings).home⟩ := .statements
    rwa [hhome] at hfirst

/-- An error in a block: the run stops there, and the machine is back in the global frame. -/
theorem failed_block_returns_home : ∃ p error m',
    Machine.start.run 1 p = (.failed error, m') ∧
      (∃ N m₁, Machine.start.Runs 1 p N ∧ N.Raises (.error error) m₁ ∧
        m' = { m₁ with current := Machine.start.globals, depth := 0 }) := by
  let p : Program := ⟨[.block [.expression (.variable ⟨0, ⟨"a", 1⟩⟩)]], none⟩
  have hrun : Machine.start.run 1 p =
    (.failed (.at ⟨"a", 1⟩ (.undefinedVariable "a")), (Machine.start.run 1 p).2) := rfl
  exact ⟨_, _, _, hrun, (run_restores_control.2.2.2.2 _ _ _ _ _ hrun).1⟩

end ScriptLang
