import ScriptLang.Proofs.Evaluation.Runs
import ScriptLang.Proofs.Relabelling.Evaluation

/-!
# Runs under other labels

If the labels of the other run fit together at every moment of a run, then the run of the program
with the other labels, on the mirror image of the machine, ends in the same way: with the value
that has other labels, with the error that may name a variable otherwise, or for want of fuel
(`Mirror.Ends`). Its machine is the mirror image of the machine that the run leaves
(`Machine.run_mirror`).

The labels always fit together if only numbers change and the other bindings say the same of the
other numbers (`Moment.conforms_renumbering`).
-/

namespace ScriptLang

open Relation (ReflTransGen)

/-! ## Outcomes -/

/-- How the end of a run looks in the other run. -/
inductive Mirror.Ends (μ : Mirror) : Outcome → Outcome → Prop
  | finished (v : Option Value) :
    Ends μ (.finished v) (.finished (v.map (Value.relabel μ.toRelabelling)))
  | failed {e e' : RunError} (h : μ.Stops (.error e) (.error e')) : Ends μ (.failed e) (.failed e')
  | unfinished : Ends μ .unfinished .unfinished

namespace Machine

variable {μ : Mirror} {m : Machine} {fuel : Nat} {p : Program}

theorem mirrors_finish (h : ∀ e, p.trailing = some e → Moment.Mirrored μ ⟨fuel, .expression e, m⟩) :
    Eval.Mirrors μ (Option.map (Value.relabel μ.toRelabelling)) (finish fuel p)
      (finish fuel (p.relabel μ.toRelabelling)) m := by
  obtain ⟨statements, trailing⟩ := p
  cases trailing with
  | none => exact Eval.mirrors_pure rfl
  | some e => exact Eval.mirrors_map (h e rfl) fun _ => rfl

/-- What holds of the first moments of a run holds of the evaluation of the program. -/
theorem mirrors_program (hglobal : μ.frames m.globals = Equiv.refl String)
    (h : ∀ M, m.Starts fuel p M → M.Mirrored μ) :
    Eval.Mirrors μ (Option.map (Value.relabel μ.toRelabelling)) (Eval.program (.ofFuel fuel) p)
      (Eval.program (.ofFuel fuel) (p.relabel μ.toRelabelling)) m := by
  have hstatements : Eval.Mirrors μ id (Eval.topLevel (.ofFuel fuel) p.statements)
      (Eval.topLevel (.ofFuel fuel) (p.relabel μ.toRelabelling).statements) m.home :=
    (h _ .statements).at hglobal
  have hboth : Eval.Mirrors μ (Option.map (Value.relabel μ.toRelabelling))
      (Eval.topLevel (.ofFuel fuel) p.statements >>= fun _ => finish fuel p)
      (Eval.topLevel (.ofFuel fuel) (p.relabel μ.toRelabelling).statements >>= fun _ =>
        finish fuel (p.relabel μ.toRelabelling)) m.home := by
    refine Eval.mirrors_bind hstatements fun u m₁ hm₁ => ?_
    exact mirrors_finish fun e he => h _ (.trailing he hm₁)
  have hhome : (m.mirror μ).home = m.home.mirror μ := rfl
  unfold Eval.Mirrors at hboth ⊢
  rw [program_eq, program_eq, hhome]
  exact hboth

/-- **A run under other labels.** -/
theorem run_mirror (hglobal : μ.frames m.globals = Equiv.refl String)
    (h : ∀ N, m.Runs fuel p N → N.Conforms μ) :
    ∃ outcome, μ.Ends (m.run fuel p).1 outcome ∧
      (m.mirror μ).run fuel (p.relabel μ.toRelabelling) =
        (outcome, (m.run fuel p).2.mirror μ) := by
  have hprogram := mirrors_program hglobal fun M hM =>
    M.mirrored_of_conforms fun N hN => h N ⟨M, hM, hN⟩
  unfold run
  cases hend : Eval.program (.ofFuel fuel) p m with
  | ok v m' =>
    rw [hprogram.of_ok hend]
    exact ⟨_, .finished v, rfl⟩
  | error stop m' =>
    obtain ⟨stop', hstop, hend'⟩ := hprogram.of_error hend
    rw [hend']
    cases stop with
    | error e =>
      cases stop' with
      | error e' => exact ⟨_, .failed hstop, rfl⟩
      | outOfFuel => cases hstop
    | outOfFuel =>
      cases hstop
      exact ⟨_, .unfinished, rfl⟩

end Machine

/-! ## Other numbers only -/

/-- The mirror that only changes the numbers of references. -/
def Mirror.renumbering (ρ : Nat → Nat) (table : Bindings) : Mirror where
  toRelabelling := .renumbering ρ
  frames _ := Equiv.refl String
  table := table
  asked _ := True
  this_eq _ := rfl
  super_eq _ := rfl

/-- The outcome with other numbers in the bodies of functions. -/
def Outcome.renumber (ρ : Nat → Nat) : Outcome → Outcome
  | finished v => finished (v.map (Value.relabel (.renumbering ρ)))
  | outcome => outcome

section Renumbering

variable {ρ : Nat → Nat} {table : Bindings}

theorem Mirror.Stops.eq_of_renumbering {stop stop' : Abort}
    (h : (Mirror.renumbering ρ table).Stops stop stop') : stop' = stop := by
  cases h <;> rfl

theorem Mirror.Ends.eq_of_renumbering {outcome outcome' : Outcome}
    (h : (Mirror.renumbering ρ table).Ends outcome outcome') : outcome' = outcome.renumber ρ := by
  cases h with
  | finished v => rfl
  | failed h =>
    cases h.eq_of_renumbering
    rfl
  | unfinished => rfl

theorem Moment.conforms_renumbering {N : Moment}
    (h : ∀ id, table.hops? (ρ id) = N.machine.bindings.hops? id) :
    N.Conforms (.renumbering ρ table) where
  knows ref m hm := by
    have hsame : m.bindings = N.machine.bindings := by
      cases hm with
      | assign hvalue => exact (Eval.grows_of_expression hvalue).bindings
      | _ => rfl
    exact ⟨(h ref.id).trans (congrArg (·.hops? ref.id) hsame.symm), fun _ _ _ _ => rfl,
      fun _ => rfl⟩
  asks _ _ := trivial
  frame _ _ _ := rfl
  keeps _ _ := rfl

/-- **A run under other numbers.** -/
theorem Machine.run_renumber {m : Machine} (fuel : Nat) (p : Program)
    (h : ∀ id, table.hops? (ρ id) = m.bindings.hops? id) :
    (m.mirror (.renumbering ρ table)).run fuel (p.relabel (.renumbering ρ)) =
      ((m.run fuel p).1.renumber ρ, (m.run fuel p).2.mirror (.renumbering ρ table)) := by
  have hconforms (N : Moment) (hN : m.Runs fuel p N) : N.Conforms (.renumbering ρ table) := by
    have hsame : N.machine.bindings = m.bindings := hN.leads.bindings
    exact N.conforms_renumbering fun id => by rw [hsame, h]
  obtain ⟨outcome, hends, hrun⟩ := run_mirror (μ := .renumbering ρ table) rfl hconforms
  rw [hends.eq_of_renumbering] at hrun
  exact hrun

end Renumbering

end ScriptLang
