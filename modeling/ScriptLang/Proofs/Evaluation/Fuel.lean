import ScriptLang.Proofs.Evaluation.Congruence

/-!
# More fuel changes no result

Fuel bounds how deep calls nest and how long loops turn. A computation that ends without
having spent its fuel ends in the same way, on the same machine, with more of it. So a
result or an error never depends on how much fuel there was: `Refines` says this of two
computations, and is a congruence.
-/

namespace ScriptLang

namespace Eval

variable {α β : Type}

/-! ## Refinement -/

/-- The second computation does what the first one does, unless that runs out of fuel. -/
def Refines (act act' : Eval α) : Prop :=
  ∀ m, (∃ m', act m = .error .outOfFuel m') ∨ act' m = act m

namespace Refines

theorem refl (act : Eval α) : Refines act act := fun _ => .inr rfl

theorem outOfFuel (act : Eval α) : Refines outOfFuel act := fun m => .inl ⟨m, rfl⟩

theorem bind {act act' : Eval α} {next next' : α → Eval β} (h : Refines act act')
    (hnext : ∀ a, Refines (next a) (next' a)) : Refines (act >>= next) (act' >>= next') := by
  intro m
  rcases h m with ⟨m', hm'⟩ | hsame
  · exact .inl ⟨m', bind_of_error hm'⟩
  · cases hact : act m with
    | ok a m₁ =>
      rw [bind_of_ok hact, bind_of_ok (hsame.trans hact)]
      exact hnext a m₁
    | error stop m₁ =>
      rw [bind_of_error hact, bind_of_error (hsame.trans hact)]
      exact .inr rfl

theorem within {act act' : Eval α} (frame : FrameId) (h : Refines act act') :
    Refines (within frame act) (within frame act') := by
  intro m
  unfold Eval.within
  rcases h { m with current := frame } with ⟨m', hm'⟩ | hsame
  · rw [hm']
    exact .inl ⟨_, rfl⟩
  · rw [hsame]
    exact .inr rfl

theorem deeper {act act' : Eval α} (word : Lexeme) (h : Refines act act') :
    Refines (deeper word act) (deeper word act') := by
  intro m
  unfold Eval.deeper
  by_cases hd : m.maxDepth ≤ m.depth
  · rw [if_pos hd, if_pos hd]
    exact .inr rfl
  · rw [if_neg hd, if_neg hd]
    rcases h { m with depth := m.depth + 1 } with ⟨m', hm'⟩ | hsame
    · rw [hm']
      exact .inl ⟨_, rfl⟩
    · rw [hsame]
      exact .inr rfl

end Refines

theorem congruence_refines : Congruence Refines where
  primitive _ := .refl _
  bind := .bind
  within := .within
  deeper := .deeper

/-- A loop that may have more rounds. -/
theorem Refines.repeatWhile {condition condition' : Eval Value} {body body' : Eval Flow}
    (hcondition : Refines condition condition') (hbody : Refines body body') {k k' : Nat}
    (hk : k ≤ k') : Refines (repeatWhile condition body k) (repeatWhile condition' body' k') := by
  induction k generalizing k' with
  | zero => exact outOfFuel _
  | succ k ih =>
    obtain ⟨k', rfl⟩ : ∃ j, k' = j + 1 := ⟨k' - 1, by omega⟩
    exact congruence_refines.round hcondition hbody (ih (by omega))

/-! ## Fuel -/

theorem refines_invokeWith {n k : Nat} (h : n ≤ k) (c : Callable) (arguments : List Value) :
    Refines (invokeWith n c arguments) (invokeWith k c arguments) := by
  induction n generalizing k c arguments with
  | zero => exact .outOfFuel _
  | succ n ih =>
    obtain ⟨k, rfl⟩ : ∃ j, k = j + 1 := ⟨k - 1, by omega⟩
    have hle : n ≤ k := Nat.le_of_succ_le_succ h
    exact congruence_refines.invokeWith ⟨fun hc hb => hc.repeatWhile hb hle, ih hle⟩ c arguments

theorem Limits.related_of_le {n k : Nat} (h : n ≤ k) :
    Limits.Related Refines (.ofFuel n) (.ofFuel k) :=
  ⟨fun hc hb => hc.repeatWhile hb h, refines_invokeWith h⟩

end Eval

/-- A run that ends within some fuel ends in the same way within more of it. -/
theorem Machine.run_of_le {m : Machine} {n k : Nat} {p : Program} (h : n ≤ k)
    (hrun : (m.run n p).1 ≠ .unfinished) : m.run k p = m.run n p := by
  rcases Eval.congruence_refines.program (Eval.Limits.related_of_le h) p m with ⟨m', hm'⟩ | hsame
  · unfold run at hrun
    rw [hm'] at hrun
    exact absurd rfl hrun
  · unfold run
    rw [hsame]

end ScriptLang
