import ScriptLang.Proofs.Evaluation.Spending
import ScriptLang.Proofs.Program.Loops
import ScriptLang.Proofs.Realms.Runs

/-!
# Runs without loops

The functions that a run can call are those that it makes itself and those that can be reached from
the global frame when it starts. If there is no loop in any of them, the run stays in a realm
without loops (`Realm.loopless`). So with fuel for all calls it ends (`Realm.run_lasts`).
-/

namespace ScriptLang

open Relation (ReflTransGen)

namespace Realm

variable {R : Realm} {m : Machine}

/-- What can be reached from the global frame and what is made later, with code without loops. -/
def loopless (m : Machine) : Realm where
  frame f := m.frames.count ≤ f ∨ m.Reaches (.frame m.globals) (.frame f)
  object k := m.fields.size ≤ k ∨
    ∃ c, m.Reaches (.frame m.globals) (.value (.instance ⟨k, c⟩))
  code t := t.hasLoop = false
  visits h := h.noLoop

/-! ## What can be reached -/

section Reached

/-- No function that can be reached from the global frame has a loop. -/
def Loopless (m : Machine) : Prop :=
  ∀ f, m.Reaches (.frame m.globals) (.value (.callable (.function f))) → f.routine.hasLoop = false

variable (h : Realm.all.Closed m) (hloops : Loopless m)

include h hloops

theorem Closed.has_reached_function {f : Function}
    (hf : m.Reaches (.frame m.globals) (.value (.callable (.function f)))) :
    (loopless m).HasFunction m f := by
  have hall : Realm.all.HasFunction m f := h.reaches (t := .frame _) ⟨trivial, h.globals_lt⟩ hf
  exact ⟨hloops f hf, .inr (hf.tail .closure), hall.closure_lt⟩

theorem Closed.has_reached_class : ∀ {c : Class},
    m.Reaches (.frame m.globals) (.value (.callable (.class c))) → (loopless m).HasClass m c
  | ⟨id, name, none, methods⟩, hc => by
    have hall : Realm.all.HasClass m ⟨id, name, none, methods⟩ :=
      h.reaches (t := .frame _) ⟨trivial, h.globals_lt⟩ hc
    exact ⟨hall.1, fun x f hf => h.has_reached_function hloops (hc.tail (.method hf))⟩
  | ⟨id, name, some superclass, methods⟩, hc => by
    have hall : Realm.all.HasClass m ⟨id, name, some superclass, methods⟩ :=
      h.reaches (t := .frame _) ⟨trivial, h.globals_lt⟩ hc
    exact ⟨hall.1, fun x f hf => h.has_reached_function hloops (hc.tail (.method hf)), hall.2.2.1,
      Closed.has_reached_class (hc.tail (.superclass rfl))⟩

theorem Closed.has_reached {v : Value} (hv : m.Reaches (.frame m.globals) (.value v)) :
    (loopless m).Has m v := by
  cases v with
  | callable c =>
    cases c with
    | function f => exact h.has_reached_function hloops hv
    | native n => exact trivial
    | «class» c => exact h.has_reached_class hloops hv
  | «instance» i =>
    have hall : Realm.all.Has m (.instance i) :=
      h.reaches (t := .frame _) ⟨trivial, h.globals_lt⟩ hv
    exact ⟨.inr ⟨i.ofClass, hv⟩, hall.2.1, h.has_reached_class hloops (hv.tail .ofClass)⟩
  | nil => exact trivial
  | bool b => exact trivial
  | number x => exact trivial
  | text s => exact trivial

/-- What can be reached is a closed realm without loops. -/
theorem Closed.loopless : (loopless m).Closed m where
  globals := .inr .refl
  globals_lt := h.globals_lt
  tree := h.tree
  outward f g hf hout := by
    rcases hf with hf | hf
    · exact absurd (Frames.lt_count_of_outward? hout) (Nat.not_lt.mpr hf)
    · exact .inr (hf.tail (.outward hout))
  values f x v hf hv := by
    rcases hf with hf | hf
    · exact absurd (Frames.lt_count_of_here? hv) (Nat.not_lt.mpr hf)
    · exact h.has_reached hloops (hf.tail (.variable hv))
  fields i slots hi hslots x v hv := by
    rcases hi with hi | ⟨c, hi⟩
    · rw [Array.getElem?_eq_none hi] at hslots
      cases hslots
    · have hfield : m.field? ⟨i, c⟩ x = some v := by
        unfold Machine.field?
        rw [hslots]
        exact hv
      exact h.has_reached hloops (hi.tail (.field hfield))
  laterFrames _ hf := .inl hf
  laterObjects _ hi := .inl hi

end Reached

/-! ## Runs -/

/-- What is evaluated in a realm without loops ends, if there is fuel for all calls. -/
theorem Fits.lasts (hR : ∀ t, R.code t → t.hasLoop = false) {M : Moment} (hM : R.Fits M)
    (hfuel : M.Affords) : M.Lasts := by
  induction M using Moment.induction with
  | _ M ih =>
    refine Moment.lasts_of_parts (fun N hN => ?_) (fun c arguments => hfuel.fuel_ne_zero)
      fun condition body htask => ?_
    · exact ih N hN (hM.inside hN) (hN.affords hfuel)
    · have hcode : M.task.code? = some (.statement (.whileLoop condition body)) := by
        rw [htask]
        rfl
      exact absurd (hR _ (hM.code _ hcode)) Bool.noConfusion

theorem starts_affords {fuel : Nat} {p : Program} (hfuel : m.maxDepth ≤ fuel) {M : Moment}
    (hM : m.Starts fuel p M) : M.Affords := by
  obtain ⟨-, hdepth⟩ := hM.control
  have hmax : M.machine.maxDepth = m.maxDepth := hM.leads.maxDepth
  have hM' : M.fuel = fuel ∧ M.task.charge = 0 := by
    cases hM <;> exact ⟨rfl, rfl⟩
  refine ⟨?_, ?_⟩
  · rw [hdepth]
    exact Nat.zero_le _
  · rw [hdepth, hmax, hM'.1, hM'.2]
    exact hfuel

/-- **A run in a realm without loops ends**, if there is fuel for all calls. -/
theorem Closed.run_lasts (h : R.Closed m) (hR : ∀ t, R.code t → t.hasLoop = false) {p : Program}
    (hp : R.Admits p) {fuel : Nat} (hfuel : m.maxDepth ≤ fuel) :
    (m.run fuel p).1 ≠ .unfinished := by
  unfold Machine.run
  cases hend : Eval.program (.ofFuel fuel) p m with
  | ok v m' => rintro ⟨⟩
  | error stop m' =>
    obtain ⟨M, hM, hstop⟩ := Machine.exists_start_of_stop hend
    have hlasts := (h.fits_start hp hM).lasts hR (starts_affords hfuel hM)
    cases stop with
    | error e => rintro ⟨⟩
    | outOfFuel => exact absurd rfl (Eval.Ends.of_error hlasts hstop)

end Realm

end ScriptLang
