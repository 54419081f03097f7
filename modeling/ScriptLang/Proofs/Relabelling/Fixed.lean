import ScriptLang.Proofs.Evaluation.Rebinding
import ScriptLang.Proofs.Realms.Runs
import ScriptLang.Proofs.Relabelling.Runs

/-!
# Labels that stay in runs

If the labels of all code in a realm stay, a run in the realm brings no other labels to the machine
(`Machine.Fixed.run`). This need not be proved for each piece of evaluation: with these labels the
program is the same, so its run under the other labels is the run itself, and the machine after it is
its own mirror image.
-/

namespace ScriptLang

open Scoping (Site Phrase)

/-- If all names stay, so do those that are not variables. -/
theorem Mirror.refl_name (x : String) (_ : FrameId) : Equiv.refl String x = x := rfl

/-- The mirror that gives other labels, and leaves the names in frames as they are. -/
def Mirror.labels (R : Relabelling) (table : Bindings) : Mirror where
  toRelabelling := R
  frames _ := Equiv.refl String
  table := table
  asked _ := True
  this_eq := refl_name "this"
  super_eq := refl_name "super"

/-- No value on the machine has labels that change. -/
def Machine.Fixed (R : Relabelling) (m : Machine) : Prop :=
  ∀ table, m.mirror (.labels R table) = m.rebind table

/-- The labels of the code in the realm stay, and so do those of what a class brings into scope. -/
structure Realm.Fixed (A : Realm) (R : Relabelling) : Prop where
  code : ∀ t, A.code t → Fixes R t.ids
  self : ∀ members, R.names (.self members) = Equiv.refl String
  super : ∀ members, R.names (.super members) = Equiv.refl String

variable {A : Realm} {R : Relabelling}

/-- What is looked up is in the code that is evaluated. -/
theorem Moment.LooksUp.mem_ids {N : Moment} {ref : Ref} {m : Machine} (h : N.LooksUp ref m) :
    ∃ t, N.task.code? = some t ∧ ref.id ∈ t.ids := by
  cases h with
  | «variable» => exact ⟨_, rfl, by simp⟩
  | assign => exact ⟨_, rfl, by simp⟩
  | this => exact ⟨_, rfl, by simp⟩
  | super => exact ⟨_, rfl, by simp⟩
  | superclass => exact ⟨_, rfl, by simp⟩

theorem Moment.LooksUp.bindings {N : Moment} {ref : Ref} {m : Machine} (h : N.LooksUp ref m) :
    m.bindings = N.machine.bindings := by
  cases h with
  | assign hvalue => exact (Eval.grows_of_expression hvalue).bindings
  | _ => rfl

namespace Realm.Fixed

variable (h : A.Fixed R)

include h

theorem ref {t : Phrase} (ht : A.code t) {ref : Ref} (href : ref.id ∈ t.ids) :
    ref.relabel R = ref := (h.code t ht).refs ref href

/-- The names of a scope for which a frame is made stay. -/
theorem names {N : Moment} (hN : A.Fits N) {f : FrameId} {site : Site} (hsite : N.Activates f site) :
    R.names site = Equiv.refl String := by
  cases hsite with
  | block => exact (h.code _ (hN.code _ rfl)).names _ fun _ hid => hid
  | call => exact (h.code _ hN.supplies.1.code).names _ fun _ hid => hid
  | bind => exact h.self _
  | «class» => exact h.super _

theorem conforms {N : Moment} (hN : A.Fits N) : N.Conforms (.labels R N.machine.bindings) where
  knows ref m hm := by
    obtain ⟨t, ht, hmem⟩ := hm.mem_ids
    have hsame := h.ref (hN.code t ht) hmem
    have hid : R.id ref.id = ref.id := congrArg Ref.id hsame
    have hword : ref.word.text = R.word ref := (congrArg (·.word.text) hsame).symm
    refine ⟨?_, fun _ _ _ _ => hword, fun _ => hword⟩
    rw [hm.bindings]
    exact congrArg N.machine.bindings.hops? hid
  asks _ _ := trivial
  frame f site hsite := (h.names hN hsite).symm
  keeps _ _ := rfl

theorem relabel {p : Program} (hp : A.Admits p) : p.relabel R = p :=
  Program.relabel_of_fixed (h.code _ hp.statements) fun e he => h.code _ (hp.trailing e he)

end Realm.Fixed

namespace Machine.Fixed

variable {m : Machine}

/-- A run in a realm whose labels stay is its own mirror image. -/
theorem run_eq (hm : m.Fixed R) (h : A.Fixed R) (hclosed : A.Closed m) {p : Program}
    (hp : A.Admits p) (fuel : Nat) : ∃ outcome,
      (Mirror.labels R m.bindings).Ends (m.run fuel p).1 outcome ∧
        m.run fuel p = (outcome, (m.run fuel p).2.mirror (.labels R m.bindings)) := by
  have hconforms (N : Moment) (hN : m.Runs fuel p N) : N.Conforms (.labels R m.bindings) := by
    have hsame : N.machine.bindings = m.bindings := hN.leads.bindings
    exact hsame ▸ h.conforms (hclosed.fits_run hp hN)
  obtain ⟨outcome, hends, hrun⟩ := run_mirror rfl hconforms
  have hprogram : p.relabel (Mirror.labels R m.bindings).toRelabelling = p := h.relabel hp
  have hmachine : m.mirror (.labels R m.bindings) = m := hm m.bindings
  rw [hprogram, hmachine] at hrun
  exact ⟨outcome, hends, hrun⟩

/-- **A run in a realm whose labels stay brings no other labels.** -/
theorem run (hm : m.Fixed R) (h : A.Fixed R) (hclosed : A.Closed m) {p : Program} (hp : A.Admits p)
    (fuel : Nat) : (m.run fuel p).2.Fixed R := by
  intro table
  obtain ⟨outcome, -, hrun⟩ := run_eq hm h hclosed hp fuel
  have hsame : (m.run fuel p).2.mirror (.labels R m.bindings) = (m.run fuel p).2 :=
    (congrArg Prod.snd hrun).symm
  exact congrArg (rebind · table) hsame

/-- The labels in the value of the trailing expression stay, too. -/
theorem value (hm : m.Fixed R) (h : A.Fixed R) (hclosed : A.Closed m) {p : Program}
    (hp : A.Admits p) {fuel : Nat} {v : Value} (hv : (m.run fuel p).1 = .finished (some v)) :
    v.relabel R = v := by
  obtain ⟨outcome, hends, hrun⟩ := run_eq hm h hclosed hp fuel
  rw [hv] at hends
  cases hends with
  | finished =>
    have hsame : (m.run fuel p).1 = .finished (some (v.relabel R)) := congrArg Prod.fst hrun
    exact Option.some.inj (Outcome.finished.inj (hsame.symm.trans hv))

/-- The labels in the values of variables stay. -/
theorem here (hm : m.Fixed R) {f : FrameId} {x : String} {v : Value}
    (hv : m.frames.here? f x = some v) : v.relabel R = v := by
  have hmachine : m.mirror (.labels R m.bindings) = m := hm m.bindings
  have hframes : m.frames.relabel R (fun _ => Equiv.refl String) = m.frames :=
    congrArg (·.frames) hmachine
  have hhere := m.frames.here?_relabel R (fun _ => Equiv.refl String) f x
  rw [hframes, Equiv.refl_apply, hv] at hhere
  exact (Option.some.inj hhere).symm

/-- A variable whose value has labels that stay. -/
theorem defineGlobal (hm : m.Fixed R) (name : String) {v : Value} (hv : v.relabel R = v) :
    (m.defineGlobal name v).Fixed R := by
  intro table
  have hframes := m.frames.relabel_define R (fun _ => Equiv.refl String) m.globals name v
  have hmachine : (m.defineGlobal name v).mirror (.labels R table) =
      (m.mirror (.labels R table)).defineGlobal name (v.relabel R) :=
    congrArg (fun frames => { m.mirror (.labels R table) with frames }) hframes
  rw [hmachine, hm table, hv]
  rfl

theorem clearGlobals (hm : m.Fixed R) : m.clearGlobals.Fixed R := by
  intro table
  have hframes := m.frames.relabel_clear R (fun _ => Equiv.refl String) m.globals
  have hmachine : m.clearGlobals.mirror (.labels R table) =
      (m.mirror (.labels R table)).clearGlobals :=
    congrArg (fun frames => { m.mirror (.labels R table) with frames }) hframes
  rw [hmachine, hm table]
  rfl

theorem learn (hm : m.Fixed R) (bindings : Bindings) : (m.learn bindings).Fixed R := hm

theorem clearPrinted (hm : m.Fixed R) : m.clearPrinted.Fixed R :=
  fun table => congrArg Machine.clearPrinted (hm table)

end Machine.Fixed

/-- The only values of a new machine are the native functions. -/
theorem Machine.fixed_start (maxDepth : Nat) (clock : Nat → Float) :
    (Machine.start maxDepth clock).Fixed R := by
  intro table
  have hframes : (Machine.start maxDepth clock).frames.relabel R
      (fun _ => Equiv.refl String) = (Machine.start maxDepth clock).frames := by
    change ((Frames.empty.push none).define 0 "clock" (.callable (.native .clock))).relabel _ _ = _
    rw [Frames.relabel_define, Frames.relabel_push]
    rfl
  have hfields : (Machine.start maxDepth clock).fields.map
      (·.relabel (Equiv.refl String) (Value.relabel R)) = #[] := Array.map_empty
  exact congrArg₂ (fun frames fields =>
    { Machine.start maxDepth clock with frames, fields, bindings := table }) hframes hfields

end ScriptLang
