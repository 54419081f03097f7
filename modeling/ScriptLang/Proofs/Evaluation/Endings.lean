import ScriptLang.Semantics.Evaluate

/-!
# How computations end

A computation on the machine ends with a result or with a stop, and leaves a machine in
either case. `Ends act m ok stopped` says that `act`, started on `m`, leads to a result and
a machine as `ok` asks, or to a stop and a machine as `stopped` asks. The rules follow the
way computations are built: `ends_pure` and `ends_fail` for the ends, `ends_bind` for one
computation after another, `ends_within` and `ends_deeper` for those that restore a part of
the machine.

`bind_of_ok`, `bind_of_error` and their inverse `bind_eq_ok` are the same rule for
computations whose first part is known.

Literals and operators only lead to plain values (`Value.IsPlain`), which refer to nothing.
-/

namespace ScriptLang

/-! ## Plain values -/

/-- The value is neither something to call nor an instance. -/
def Value.IsPlain : Value → Prop
  | .callable _ | .instance _ => False
  | .nil | .bool _ | .number _ | .text _ => True

theorem Literal.isPlain_value (l : Literal) : l.value.IsPlain := by
  cases l <;> exact trivial

theorem UnaryOp.isPlain_of_apply {op : UnaryOp} {a v : Value} (h : op.apply a = .ok v) :
    v.IsPlain := by
  unfold apply at h
  split at h <;> cases h <;> exact trivial

theorem isPlain_of_onNumbers {f : Float → Float → Value} {a b v : Value}
    (h : onNumbers f a b = .ok v) (hf : ∀ x y, (f x y).IsPlain) : v.IsPlain := by
  unfold onNumbers at h
  split at h
  · cases h
    exact hf _ _
  · cases h

theorem BinaryOp.isPlain_of_apply {op : BinaryOp} {a b v : Value} (h : op.apply a b = .ok v) :
    v.IsPlain := by
  cases op with
  | add =>
    have hadd : addValues a b = .ok v := h
    unfold addValues at hadd
    split at hadd <;> cases hadd <;> exact trivial
  | equal => cases h; exact trivial
  | notEqual => cases h; exact trivial
  | _ => exact isPlain_of_onNumbers h fun _ _ => trivial

end ScriptLang

namespace ScriptLang.Eval

variable {α β : Type}

/-! ## Postconditions -/

/-- An end is as `ok` or `stopped` asks. -/
def Ended (ok : α → Machine → Prop) (stopped : Abort → Machine → Prop) :
    EStateM.Result Abort Machine α → Prop
  | .ok a m' => ok a m'
  | .error stop m' => stopped stop m'

/-- The end of `act` on `m` is as `ok` or `stopped` asks. -/
def Ends (act : Eval α) (m : Machine) (ok : α → Machine → Prop)
    (stopped : Abort → Machine → Prop) : Prop :=
  Ended ok stopped (act m)

section Rules

variable {act : Eval α} {next : α → Eval β} {m : Machine}
variable {ok ok' : α → Machine → Prop} {after : β → Machine → Prop}
variable {stopped stopped' : Abort → Machine → Prop}

theorem Ends.of_ok (h : Ends act m ok stopped) {a : α} {m' : Machine}
    (hr : act m = .ok a m') : ok a m' := by
  unfold Ends at h
  rwa [hr] at h

theorem Ends.of_error (h : Ends act m ok stopped) {stop : Abort} {m' : Machine}
    (hr : act m = .error stop m') : stopped stop m' := by
  unfold Ends at h
  rwa [hr] at h

theorem ends_of (hok : ∀ a m', act m = .ok a m' → ok a m')
    (herror : ∀ stop m', act m = .error stop m' → stopped stop m') :
    Ends act m ok stopped := by
  unfold Ends
  cases h : act m with
  | ok a m' => exact hok a m' h
  | error stop m' => exact herror stop m' h

theorem Ends.mono (h : Ends act m ok stopped) (hok : ∀ a m', act m = .ok a m' → ok a m' → ok' a m')
    (herror : ∀ stop m', stopped stop m' → stopped' stop m') : Ends act m ok' stopped' :=
  ends_of (fun a m' hr => hok a m' hr (h.of_ok hr)) fun stop m' hr => herror stop m' (h.of_error hr)

theorem ends_pure {a : α} (h : ok a m) : Ends (pure a) m ok stopped := h

theorem ends_fail {word : Lexeme} {fault : RunFault}
    (h : stopped (.error (.at word fault)) m) : Ends (fail word fault : Eval α) m ok stopped := h

theorem ends_outOfFuel (h : stopped .outOfFuel m) :
    Ends (outOfFuel : Eval α) m ok stopped := h

theorem ends_bind (hact : Ends act m ok stopped)
    (hnext : ∀ a m', act m = .ok a m' → ok a m' → Ends (next a) m' after stopped) :
    Ends (act >>= next) m after stopped := by
  change Ended after stopped (EStateM.bind act next m)
  unfold EStateM.bind
  cases h : act m with
  | ok a m' => exact hnext a m' h (hact.of_ok h)
  | error stop m' => exact hact.of_error h

/-- A computation whose result does not matter. -/
theorem ends_map {f : α → β} (hact : Ends act m (fun a m' => after (f a) m') stopped) :
    Ends (f <$> act) m after stopped := by
  change Ended after stopped (EStateM.map f act m)
  unfold EStateM.map
  cases h : act m with
  | ok a m' => exact hact.of_ok h
  | error stop m' => exact hact.of_error h

theorem ends_within {frame : FrameId}
    (h : Ends act { m with current := frame }
      (fun a m' => ok a { m' with current := m.current })
      (fun stop m' => stopped stop { m' with current := m.current })) :
    Ends (within frame act) m ok stopped := by
  unfold Ends within
  cases hr : act { m with current := frame } with
  | ok a m' => exact h.of_ok hr
  | error stop m' => exact h.of_error hr

theorem ends_deeper {word : Lexeme}
    (hdeep : m.maxDepth ≤ m.depth → stopped (.error (.at word .stackOverflow)) m)
    (h : m.depth < m.maxDepth → Ends act { m with depth := m.depth + 1 }
      (fun a m' => ok a { m' with depth := m'.depth - 1 })
      (fun stop m' => stopped stop { m' with depth := m'.depth - 1 })) :
    Ends (deeper word act) m ok stopped := by
  unfold Ends deeper
  by_cases hd : m.maxDepth ≤ m.depth
  · simp only [if_pos hd]
    exact hdeep hd
  · simp only [if_neg hd]
    have h' := h (Nat.lt_of_not_le hd)
    cases hr : act { m with depth := m.depth + 1 } with
    | ok a m' => exact h'.of_ok hr
    | error stop m' => exact h'.of_error hr

theorem ends_ofOperator {sign : Lexeme} {r : Except RunFault Value}
    {ok : Value → Machine → Prop} (hok : ∀ v, r = .ok v → ok v m)
    (herror : ∀ fault, stopped (.error (.at sign fault)) m) :
    Ends (ofOperator sign r) m ok stopped := by
  cases r with
  | ok v => exact hok v rfl
  | error fault => exact herror fault

end Rules

/-! ## One computation after another -/

theorem bind_eq_ok {act : Eval α} {next : α → Eval β} {m m' : Machine} {b : β}
    (h : (act >>= next) m = .ok b m') :
    ∃ a m₁, act m = .ok a m₁ ∧ next a m₁ = .ok b m' := by
  change EStateM.bind act next m = .ok b m' at h
  unfold EStateM.bind at h
  cases hact : act m with
  | ok a m₁ =>
    rw [hact] at h
    exact ⟨a, m₁, rfl, h⟩
  | error stop m₁ =>
    rw [hact] at h
    cases h

theorem bind_of_ok {act : Eval α} {next : α → Eval β} {m m' : Machine} {a : α}
    (h : act m = .ok a m') : (act >>= next) m = next a m' := by
  change EStateM.bind act next m = _
  unfold EStateM.bind
  rw [h]

theorem bind_of_error {act : Eval α} {next : α → Eval β} {m m' : Machine} {stop : Abort}
    (h : act m = .error stop m') : (act >>= next) m = .error stop m' := by
  change EStateM.bind act next m = _
  unfold EStateM.bind
  rw [h]

theorem map_of_error {f : α → β} {act : Eval α} {m m' : Machine} {stop : Abort}
    (h : act m = .error stop m') : (f <$> act) m = .error stop m' := by
  change EStateM.map f act m = _
  unfold EStateM.map
  rw [h]

theorem map_eq_ok {f : α → β} {act : Eval α} {m m' : Machine} {b : β}
    (h : (f <$> act) m = .ok b m') : ∃ a, act m = .ok a m' ∧ b = f a := by
  change EStateM.map f act m = _ at h
  unfold EStateM.map at h
  split at h
  · rename_i a m₁ hact
    cases h
    exact ⟨a, hact, rfl⟩
  · cases h

theorem ends_bind_of_ok {act : Eval α} {next : α → Eval β} {m m' : Machine} {a : α}
    {after : β → Machine → Prop} {stopped : Abort → Machine → Prop}
    (h : act m = .ok a m') (hnext : Ends (next a) m' after stopped) :
    Ends (act >>= next) m after stopped := by
  unfold Ends
  rwa [bind_of_ok h]

end ScriptLang.Eval
