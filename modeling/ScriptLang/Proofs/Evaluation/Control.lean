import ScriptLang.Proofs.Evaluation.Passage
import ScriptLang.Session

/-!
# Control is restored

Two parts of the machine steer evaluation, the current frame and the depth of calls. Blocks
and calls change them while they last. Here it is shown that whatever is evaluated, and
however it ends, both are what they were before (`Moment.control_restored`), that calls are
never nested deeper than allowed (`Moment.Within.part`), and that on its way out of whatever
it was raised in a stop changes nothing else (`Part.stop`). So a run that stops leaves the
machine as it was where the stop was raised, and the next run goes on from there.
-/

namespace ScriptLang

/-! ## The way out of a stop -/

/-- The evaluation stops on a machine that differs from the given one at most in what steers
evaluation. -/
def Moment.StopsAs (M : Moment) (stop : Abort) (m : Machine) : Prop :=
  ∃ c d, M.ending = .error stop { m with current := c, depth := d }

namespace Eval

variable {α : Type} {m m' : Machine} {stop : Abort}

theorem within_of_error {act : Eval α} {frame : FrameId}
    (h : act { m with current := frame } = .error stop m') :
    within frame act m = .error stop { m' with current := m.current } := by
  unfold within
  rw [h]

theorem deeper_of_error {act : Eval α} {word : Lexeme} (hdepth : m.depth < m.maxDepth)
    (h : act m.deeper = .error stop m') :
    deeper word act m = .error stop { m' with depth := m'.depth - 1 } := by
  have hact : act { m with depth := m.depth + 1 } = .error stop m' := h
  unfold deeper
  rw [if_neg (Nat.not_le.mpr hdepth), hact]

theorem callValue_of_error {n : Nat} {c : Callable} {arguments : List Value} {closing : Lexeme}
    (harity : arguments.length = c.arity) (hdepth : m.depth < m.maxDepth)
    (h : invokeWith n c arguments m.deeper = .error stop m') :
    callValue (invokeWith n) (.callable c) arguments closing m =
      .error stop { m' with depth := m'.depth - 1 } := by
  unfold callValue
  simp only [harity, ne_eq, not_true_eq_false, if_false]
  exact deeper_of_error hdepth h

/-- What stops a part stops the computation that comes to it, on the same machine but for what steers
evaluation. -/
theorem ComesTo.stops {N : Moment} {act : Eval α} (h : ComesTo N act m)
    (hN : N.ending = .error stop m') :
    ∃ c d, act m = .error stop { m' with current := c, depth := d } := by
  induction h with
  | here => exact ⟨m'.current, m'.depth, hN⟩
  | before _ _ ih =>
    obtain ⟨c, d, hact⟩ := ih
    exact ⟨c, d, bind_of_error hact⟩
  | after hact _ ih =>
    obtain ⟨c, d, hnext⟩ := ih
    exact ⟨c, d, (bind_of_ok hact).trans hnext⟩
  | inside _ ih =>
    obtain ⟨c, d, hact⟩ := ih
    exact ⟨_, d, within_of_error hact⟩
  | deeper hdepth _ ih =>
    obtain ⟨c, d, hact⟩ := ih
    exact ⟨c, _, deeper_of_error hdepth hact⟩
  | same heq _ ih =>
    obtain ⟨c, d, hact⟩ := ih
    exact ⟨c, d, heq.trans hact⟩

end Eval

/-- What stops a part stops the whole, on the same machine but for what steers evaluation. -/
theorem Part.stopsAs {M N : Moment} (h : Part M N) {stop : Abort} {m' : Machine}
    (hN : N.ending = .error stop m') : M.StopsAs stop m' := h.comesTo.stops hN

/-- On the way out of a part, a stop changes nothing but the current frame and the depth,
which get back what they were. -/
theorem Part.stop {M N : Moment} (h : Part M N) {stop : Abort} {m' : Machine}
    (hN : N.ending = .error stop m') :
    M.ending = .error stop { m' with
      current := M.machine.current
      depth := M.machine.depth } := by
  obtain ⟨c, d, hM⟩ := h.stopsAs hN
  have hgrows := Eval.Ends.of_error M.keeps hM
  have hc : c = M.machine.current := hgrows.current
  have hd : d = M.machine.depth := hgrows.depth
  rw [hM, hc, hd]

/-- A stop is raised at a moment if it ends with the stop although none of its parts stops. -/
def Moment.Raises (M : Moment) (stop : Abort) (m : Machine) : Prop :=
  M.ending = .error stop m ∧ ∀ N, Part M N → ∀ stop' m', N.ending ≠ .error stop' m'

open Relation in
/-- Every stop was raised at some moment, and the machine is as it was left there. -/
theorem Moment.raised_of_stop (M : Moment) {stop : Abort} {m' : Machine}
    (hM : M.ending = .error stop m') :
    ∃ N m₁, ReflTransGen Part M N ∧ N.Raises stop m₁ ∧
      m' = { m₁ with current := M.machine.current, depth := M.machine.depth } := by
  induction M using Moment.induction generalizing stop m' with
  | _ M ih =>
    by_cases hpart : ∃ N, Part M N ∧ ∃ stop' m₁, N.ending = .error stop' m₁
    · obtain ⟨N, hN, stop', m₁, hstop⟩ := hpart
      have hM' := hN.stop hstop
      rw [hM] at hM'
      cases hM'
      obtain ⟨R, m₂, hR, hraises, rfl⟩ := ih N hN hstop
      exact ⟨R, m₂, .head hN hR, hraises, rfl⟩
    · refine ⟨M, m', .refl, ⟨hM, fun N hN stop' m₁ hstop => ?_⟩, ?_⟩
      · exact hpart ⟨N, hN, stop', m₁, hstop⟩
      · have hgrows := Eval.Ends.of_error M.keeps hM
        rw [← hgrows.current, ← hgrows.depth]

/-! ## From a moment to its parts -/

/-- What the machine of a moment has in common with that of a part. -/
structure Machine.Leads (m m' : Machine) : Prop where
  maxDepth : m'.maxDepth = m.maxDepth
  globals : m'.globals = m.globals
  bindings : m'.bindings = m.bindings
  depth : m.depth ≤ m.maxDepth → m'.depth ≤ m.maxDepth
  frames : m.frames.Extends (fun _ _ => True) m'.frames

namespace Machine.Leads

variable {xs : List String} {m m₁ m₂ : Machine}

theorem refl (m : Machine) : m.Leads m := ⟨rfl, rfl, rfl, id, .refl _⟩

theorem trans (h₁ : m.Leads m₁) (h₂ : m₁.Leads m₂) : m.Leads m₂ where
  maxDepth := h₂.maxDepth.trans h₁.maxDepth
  globals := h₂.globals.trans h₁.globals
  bindings := h₂.bindings.trans h₁.bindings
  depth h := by
    have h' := h₂.depth (h₁.maxDepth ▸ h₁.depth h)
    rwa [h₁.maxDepth] at h'
  frames := h₁.frames.trans h₂.frames

theorem of_grows (h : m.Grows xs m₁) : m.Leads m₁ :=
  ⟨h.maxDepth, h.globals, h.bindings, fun hd => h.depth ▸ hd,
    h.frames.mono fun _ _ _ _ => trivial⟩

theorem of_frames {fs : Frames} {f : FrameId}
    (h : m.frames.Extends (fun _ _ => True) fs) :
    m.Leads { m with frames := fs, current := f } := ⟨rfl, rfl, rfl, id, h⟩

theorem of_deeper (h : m.depth < m.maxDepth) : m.Leads m.deeper :=
  ⟨rfl, rfl, rfl, fun _ => h, .refl _⟩

end Machine.Leads

/-- The machine after a piece of evaluation that ends with a result. -/
theorem Moment.leads (M : Moment) {a : M.task.Result} {m' : Machine}
    (h : M.ending = .ok a m') : M.machine.Leads m' :=
  .of_grows (Eval.Ends.of_ok M.keeps h)

theorem Machine.Advances.leads {m m₁ : Machine} (h : m.Advances m₁) : m.Leads m₁ := by
  cases h with
  | @ended M a m' h => exact M.leads h
  | inBlock => exact .of_frames (.of_push _)
  | inCall => exact .of_frames (.of_push_defineAll ..)
  | deeper hdepth => exact .of_deeper hdepth
  | withInstance =>
    have hgrows : m.Grows [] m.withInstance := .of_withInstance
    exact .of_grows hgrows
  | defining => exact .of_frames (.of_define _ (.inr trivial))

theorem Part.leads {M N : Moment} (h : Part M N) : M.machine.Leads N.machine :=
  h.of_advances .refl (fun h₁ h₂ => h₁.trans h₂) fun hstep => hstep.leads

end ScriptLang
