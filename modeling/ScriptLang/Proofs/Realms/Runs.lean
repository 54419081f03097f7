import ScriptLang.Proofs.Realms.Preservation

/-!
# Realms during runs

A run whose code may be run stays in a realm that was closed before it: every moment of the run
fits (`Realm.Closed.fits_run`), and the realm is closed after it, however it ends
(`Realm.Closed.run`).

`Machine.Refers` says what refers to what on a machine: frames to the frames around them and to
the values of their names, functions to their closures, classes to their methods and superclasses,
instances to their classes and the values of their fields. What is reached from something in a
closed realm is in it (`Realm.Closed.reaches`).
-/

namespace ScriptLang

open Scoping (Phrase)
open Relation (ReflTransGen)

/-! ## Runs -/

namespace Realm

variable {R : Realm} {m : Machine} {fuel : Nat} {p : Program}

/-- All code of the program may be run. -/
structure Admits (R : Realm) (p : Program) : Prop where
  statements : R.code (.statements p.statements)
  trailing : ∀ e, p.trailing = some e → R.code (.expression e)

theorem admits_all (p : Program) : Realm.all.Admits p := ⟨trivial, fun _ _ => trivial⟩

theorem Closed.home (h : R.Closed m) : R.Closed m.home := h.congr rfl rfl rfl (Nat.le_refl _)

theorem Closed.learn (h : R.Closed m) (bindings : Bindings) : R.Closed (m.learn bindings) :=
  h.congr rfl rfl rfl (Nat.le_refl _)

theorem Closed.fits_start (h : R.Closed m) (hp : R.Admits p) {M : Moment}
    (hM : m.Starts fuel p M) : R.Fits M := by
  have hstatements : R.Fits ⟨fuel, .topLevel p.statements, m.home⟩ :=
    ⟨h.home, ⟨h.globals, h.globals_lt⟩, fun t ht => by cases ht; exact hp.statements, trivial⟩
  cases hM with
  | statements => exact hstatements
  | trailing htrailing hend =>
    obtain ⟨hclosed, hstays, -⟩ := hstatements.after (R.preserves _) hend
    exact ⟨hclosed, hstays, fun t ht => by cases ht; exact hp.trailing _ htrailing, trivial⟩

/-- **Every moment of a run stays in the realm.** -/
theorem Closed.fits_run (h : R.Closed m) (hp : R.Admits p) {N : Moment}
    (hN : m.Runs fuel p N) : R.Fits N :=
  hN.induction (fun _ hM => h.fits_start hp hM) fun _ _ _ hM hN => hM.inside hN

/-- **After a run the realm is closed**, and the value of the trailing expression is in it. -/
theorem Closed.run (h : R.Closed m) (hp : R.Admits p) (fuel : Nat) :
    R.Closed (m.run fuel p).2 ∧
      ∀ v, (m.run fuel p).1 = .finished (some v) → R.Has (m.run fuel p).2 v := by
  cases hend : Eval.program (.ofFuel fuel) p m with
  | error stop m' =>
    obtain ⟨M, hM, hstop⟩ := Machine.exists_start_of_stop hend
    have hclosed : R.Closed m' := (R.preserves M (h.fits_start hp hM)).of_error hstop
    unfold Machine.run
    rw [hend]
    cases stop with
    | error e => exact ⟨hclosed, nofun⟩
    | outOfFuel => exact ⟨hclosed, nofun⟩
  | ok value m' =>
    have hrun : m.run fuel p = (.finished value, m') := by
      unfold Machine.run
      rw [hend]
    rw [hrun]
    obtain ⟨m₁, hstatements, hfinish⟩ := Machine.run_finished hrun
    unfold Machine.finish at hfinish
    cases htrailing : p.trailing with
    | none =>
      rw [htrailing] at hfinish
      cases hfinish
      exact ⟨((R.preserves _ (h.fits_start hp .statements)).of_ok hstatements).1, nofun⟩
    | some e =>
      rw [htrailing] at hfinish
      obtain ⟨v, he, rfl⟩ := Eval.map_eq_ok hfinish
      obtain ⟨hclosed, hv⟩ :=
        (R.preserves _ (h.fits_start hp (.trailing htrailing hstatements))).of_ok he
      refine ⟨hclosed, fun w hw => ?_⟩
      cases hw
      exact hv

end Realm

/-! ## What refers to what -/

/-- What can refer to something else on a machine. -/
inductive Thing
  | frame (f : FrameId)
  | value (v : Value)

/-- The first thing refers to the second one. -/
inductive Machine.Refers (m : Machine) : Thing → Thing → Prop
  | outward {f g} (h : m.frames.outward? f = some g) : Refers m (.frame f) (.frame g)
  | variable {f x v} (h : m.frames.here? f x = some v) : Refers m (.frame f) (.value v)
  | closure {f} : Refers m (.value (.callable (.function f))) (.frame f.closure)
  | method {c x f} (h : c.methods.get? x = some f) :
    Refers m (.value (.callable (.class c))) (.value (.callable (.function f)))
  | superclass {c d} (h : c.superclass = some d) :
    Refers m (.value (.callable (.class c))) (.value (.callable (.class d)))
  | ofClass {i} : Refers m (.value (.instance i)) (.value (.callable (.class i.ofClass)))
  | field {i x v} (h : m.field? i x = some v) : Refers m (.value (.instance i)) (.value v)

/-- The second thing can be reached from the first one. -/
abbrev Machine.Reaches (m : Machine) : Thing → Thing → Prop := ReflTransGen m.Refers

namespace Realm

variable {R : Realm} {m : Machine} {t t' : Thing}

/-- The thing is in the realm. -/
def Includes (R : Realm) (m : Machine) : Thing → Prop
  | .frame f => R.frame f ∧ f < m.frames.count
  | .value v => R.Has m v

theorem Closed.refers (h : R.Closed m) (ht : R.Includes m t) (hrefers : m.Refers t t') :
    R.Includes m t' := by
  cases hrefers with
  | outward hout =>
    refine ⟨h.outward _ _ ht.1 hout, ?_⟩
    rcases h.tree _ ht.2 with ⟨-, hnone⟩ | ⟨g, hg, hsome⟩
    · rw [hnone] at hout
      cases hout
    · rw [hsome] at hout
      cases hout
      exact Nat.lt_trans hg ht.2
  | «variable» hv => exact h.values _ _ _ ht.1 hv
  | closure => exact ⟨ht.closure, ht.closure_lt⟩
  | method hf => exact HasClass.own ht hf
  | superclass hd => exact (HasClass.superclass ht hd).2
  | ofClass => exact ht.2.2
  | field hv => exact h.field ht.1 hv

/-- **What is reached from a closed realm is in it.** -/
theorem Closed.reaches (h : R.Closed m) (ht : R.Includes m t) (hreaches : m.Reaches t t') :
    R.Includes m t' := by
  induction hreaches with
  | refl => exact ht
  | tail _ hlast ih => exact h.refers ih hlast

end Realm

end ScriptLang
