import ScriptLang.Proofs.Agreement.World
import ScriptLang.Proofs.Evaluation.Order
import ScriptLang.Proofs.Scoping.Uniqueness

/-!
# Frames are activated once

A moment that activates a frame activates the next one that is made, and this frame is there in all
that the moment does and when it ends (`Moment.Activates.part`, `Moment.Activates.reaches`). So no
frame is activated at two moments of a run (`Moment.single_activates`), and the frame of a block or
of a call belongs to one site only (`Moment.Activates.eq`).
-/

namespace ScriptLang

open Scoping (Place Site)
open Relation (ReflTransGen)

namespace Moment.Activates

variable {M N : Moment} {f : FrameId} {site site' : Site}

/-- The frame is the next one. -/
theorem count_eq (h : N.Activates f site) : N.machine.frames.count = f := by
  cases h <;> rfl

/-- What is done with the frame is done when it is there. -/
theorem part (h : M.Activates f site) (hN : Part M N) : f < N.machine.frames.count := by
  cases h with
  | @block n body m =>
    cases hN with
    | block =>
      change m.frames.count < (m.frames.push _).count
      rw [Frames.count_push]
      exact Nat.lt_succ_self _
  | @call n g arguments m =>
    cases hN with
    | body =>
      change m.frames.count < ((m.frames.push _).defineAll _ _ _).count
      rw [Frames.count_defineAll, Frames.count_push]
      exact Nat.lt_succ_self _
  | bind => cases hN
  | «class» => cases hN

theorem path (h : M.Activates f site) (hN : Part M N) {N' : Moment}
    (hpath : ReflTransGen Part N N') : f < N'.machine.frames.count :=
  Nat.lt_of_lt_of_le (h.part hN) (Part.leads_path hpath).frames.count

/-- However the moment ends, the frame is there. -/
theorem reaches (h : N.Activates f site) : N.Reaches (f + 1) := by
  cases h with
  | block => exact Part.block.reaches (Moment.reaches_of_le _ (part .block .block))
  | call => exact Part.body.reaches (Moment.reaches_of_le _ (part .call .body))
  | @bind n g self m =>
    have hcount : m.frames.count + 1 ≤ (Eval.boundMachine g self m).frames.count := by
      change _ ≤ ((m.frames.push _).define _ _ _).count
      rw [Frames.count_define, Frames.count_push]
    exact hcount
  | @«class» n name ref members m c hc =>
    have hparent : Eval.parentOf (some ref) m = .ok (some c) m := by
      change EStateM.map some (Eval.superclassOf ref) m = _
      unfold EStateM.map
      rw [hc]
    obtain ⟨methods, k, -, hclass, -⟩ := Eval.declareClass_of_parent name members hparent
    refine Eval.reaches_first (Eval.ends_of (fun u m' hend => ?_) fun stop m' hend => ?_)
      fun _ _ => Eval.keeps_pure
    · cases hclass.symm.trans hend
      change m.frames.count + 1 ≤
        ((((m.frames.define _ _ _).push _).define _ _ _).define _ _ _).count
      rw [Frames.count_define, Frames.count_define, Frames.count_push, Frames.count_define]
    · cases hclass.symm.trans hend

/-- A moment with a frame for a block or a call activates it for this only. -/
theorem eq (h : N.Activates f site) (h' : N.Activates f site') {P : Place} (hopens : P.Opens site) :
    site' = site := by
  cases h with
  | block =>
    cases h'
    rfl
  | call =>
    cases h'
    rfl
  | bind => cases hopens
  | «class» => cases hopens

end Moment.Activates

/-- **A frame is activated at one moment only.** -/
theorem Moment.single_activates (f : FrameId) :
    Moment.Single fun N => ∃ site, N.Activates f site where
  after := by
    rintro A B N₁ N₂ ⟨a, m, hend, hleads⟩ hpathA hpathB ⟨site, h⟩ ⟨site', h'⟩
    have hmade : f + 1 ≤ m.frames.count := ((h.reaches).path hpathA).of_ok hend
    have hlater := (hleads.trans (Part.leads_path hpathB)).frames.count
    rw [h'.count_eq] at hlater
    exact absurd (Nat.le_trans hmade hlater) (Nat.not_succ_le_self f)
  inside := by
    rintro M B N hB hpath ⟨site, h⟩ ⟨site', h'⟩
    have hlater := h.path hB hpath
    rw [h'.count_eq] at hlater
    exact absurd hlater (Nat.lt_irrefl f)

namespace Machine

variable {m : Machine} {fuel : Nat} {p : Program} {N N' : Moment} {f : FrameId} {site site' : Site}

/-- The frame of a block or of a call belongs to one site in a run. -/
theorem Runs.activates_eq (hN : m.Runs fuel p N) (hN' : m.Runs fuel p N')
    (h : N.Activates f site) (h' : N'.Activates f site') {P : Place} (hopens : P.Opens site) :
    site' = site := by
  cases (Moment.single_activates f).eq_of_runs hN hN' ⟨site, h⟩ ⟨site', h'⟩
  exact h.eq h' hopens

/-- The frames that a run activates are new. -/
theorem Runs.count_le (hN : m.Runs fuel p N) (h : N.Activates f site) : m.frames.count ≤ f := by
  have hleads := hN.leads.frames.count
  rwa [h.count_eq] at hleads

/-- What a first moment has made by its end is there when the run ends. -/
theorem Starts.count_le_run {k : Nat} (hN : m.Starts fuel p N) (h : N.Reaches k) :
    k ≤ (m.run fuel p).2.frames.count := by
  have hreaches : Eval.Reaches k
      (Eval.topLevel (.ofFuel fuel) p.statements >>= fun _ => finish fuel p) m.home := by
    cases hN with
    | statements =>
      refine Eval.reaches_first h fun _ m₁ => ?_
      unfold finish
      cases p.trailing with
      | none => exact Eval.keeps_pure
      | some e => exact Eval.ends_map (Eval.Keeps.of_none (Moment.keeps ⟨fuel, .expression e, m₁⟩))
    | trailing htrailing hstatements =>
      refine Eval.ends_bind_of_ok hstatements ?_
      unfold finish
      rw [htrailing]
      exact Eval.ends_map h
  unfold run
  rw [program_eq]
  cases hend : (Eval.topLevel (.ofFuel fuel) p.statements >>= fun _ => finish fuel p) m.home with
  | ok v m' => exact hreaches.of_ok hend
  | error stop m' => cases stop <;> exact hreaches.of_error hend

/-- The frames that a run activates are there after it. -/
theorem Runs.lt_count_run (hN : m.Runs fuel p N) (h : N.Activates f site) :
    f < (m.run fuel p).2.frames.count := by
  obtain ⟨M, hM, hpath⟩ := hN
  exact hM.count_le_run (h.reaches.path hpath)

end Machine

end ScriptLang
