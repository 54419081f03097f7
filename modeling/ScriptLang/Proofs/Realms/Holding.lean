import ScriptLang.Proofs.Realms.Runs

/-!
# What there is at a moment

A value that a program may come across at some moment of a run is a value of a variable or of a field
on the machine, one that the host had before the run, or one that is on its way: evaluation that is not
over yet was given it (`Task.values`), or got it from one of its parts and holds it while another part
is evaluated (`Part.Holds`). These are the values that exist at the moment (`Machine.Existing`).

Whatever exists is in every realm that the run stays in (`Realm.Closed.has_existing`). For frames,
instances, functions and classes are only ever added on the way from a moment to its parts
(`Part.precedes`), and so what something holds that is not over yet is still there.
-/

namespace ScriptLang

open Relation (ReflTransGen)

/-! ## Machines in order -/

namespace Machine

variable {m m₁ m₂ : Machine}

theorem Precedes.refl (m : Machine) : m.Precedes m := ⟨Nat.le_refl _, Nat.le_refl _, Nat.le_refl _⟩

theorem Precedes.trans (h₁ : m.Precedes m₁) (h₂ : m₁.Precedes m₂) : m.Precedes m₂ :=
  ⟨Nat.le_trans h₁.frames h₂.frames, Nat.le_trans h₁.fields h₂.fields,
    Nat.le_trans h₁.made h₂.made⟩

/-- More frames, and perhaps another current one or another depth. -/
theorem Precedes.of_frames {fs : Frames} {f : FrameId} {d : Nat} (h : m.frames.count ≤ fs.count) :
    m.Precedes { m with frames := fs, current := f, depth := d } :=
  ⟨h, Nat.le_refl _, Nat.le_refl _⟩

theorem precedes_deeper (m : Machine) : m.Precedes m.deeper := .of_frames (Nat.le_refl _)

theorem precedes_withInstance (m : Machine) : m.Precedes m.withInstance :=
  ⟨Nat.le_refl _, by simp [withInstance], Nat.le_refl _⟩

theorem precedes_defining (m : Machine) (name : String) (v : Value) :
    m.Precedes (m.defining name v) := .of_frames (Nat.le_of_eq (Frames.count_define ..).symm)

theorem precedes_inBlock (m : Machine) : m.Precedes m.inBlock := by
  refine .of_frames ?_
  rw [Frames.count_push]
  exact Nat.le_succ _

theorem precedes_inCall (m : Machine) (f : Function) (arguments : List Value) :
    m.Precedes (m.inCall f arguments) := by
  refine .of_frames ?_
  rw [Frames.count_defineAll, Frames.count_push]
  exact Nat.le_succ _

end Machine

theorem Moment.precedes (M : Moment) {a : M.task.Result} {m' : Machine} (h : M.ending = .ok a m') :
    M.machine.Precedes m' := (Eval.Ends.of_ok M.keeps h).precedes

theorem Machine.Advances.precedes {m m₁ : Machine} (h : m.Advances m₁) : m.Precedes m₁ := by
  cases h with
  | @ended M a m' h => exact M.precedes h
  | inBlock => exact precedes_inBlock _
  | inCall => exact precedes_inCall ..
  | deeper => exact precedes_deeper _
  | withInstance => exact precedes_withInstance _
  | defining => exact precedes_defining ..

/-- From a moment to its parts nothing is lost. -/
theorem Part.precedes {M N : Moment} (h : Part M N) : M.machine.Precedes N.machine :=
  h.of_advances .refl (fun h₁ h₂ => h₁.trans h₂) fun hstep => hstep.precedes

theorem Part.precedes_path {M N : Moment} (h : ReflTransGen Part M N) :
    M.machine.Precedes N.machine := by
  induction h with
  | refl => exact .refl _
  | tail _ hlast ih => exact ih.trans hlast.precedes

namespace Machine

variable {m : Machine} {fuel : Nat} {p : Program} {N : Moment}

theorem Starts.precedes (h : m.Starts fuel p N) : m.Precedes N.machine := by
  have hhome : m.Precedes m.home := .of_frames (Nat.le_refl _)
  cases h with
  | statements => exact hhome
  | trailing _ hstatements =>
    exact hhome.trans (Moment.precedes ⟨fuel, .topLevel p.statements, _⟩ hstatements)

theorem Runs.precedes (h : m.Runs fuel p N) : m.Precedes N.machine :=
  h.induction (fun _ hM => hM.precedes) fun _ _ _ hM hN => hM.trans hN.precedes

end Machine

/-! ## Values on their way -/

/-- The values that a task is given. -/
def Task.values : Task → List Value
  | apply c arguments => .callable c :: arguments
  | call f arguments => .callable (.function f) :: arguments
  | bind f self => [.callable (.function f), self]
  | _ => []

open Eval in
/-- While the second moment, a part of the first one, is evaluated, the evaluation of the first one
holds a value that it has got by then. -/
inductive Part.Holds : Moment → Moment → Value → Prop
  | left {n m m₁ op sign left right v} (hleft : expression (.ofFuel n) left m = .ok v m₁) :
    Holds ⟨n, .expression (.binary op sign left right), m⟩ ⟨n, .expression right, m₁⟩ v
  | callee {n m m₁ callee arguments closing v}
    (hcallee : expression (.ofFuel n) callee m = .ok v m₁) :
    Holds ⟨n, .expression (.call callee arguments closing), m⟩ ⟨n, .expressions arguments, m₁⟩ v
  | argument {n m m₁ e es v} (hfirst : expression (.ofFuel n) e m = .ok v m₁) :
    Holds ⟨n, .expressions (e :: es), m⟩ ⟨n, .expressions es, m₁⟩ v
  | receiver {n m m₁ object property value i}
    (hobject : expression (.ofFuel n) object m = .ok (.instance i) m₁) :
    Holds ⟨n, .expression (.set object property value), m⟩ ⟨n, .expression value, m₁⟩ (.instance i)
  | constructed {n m m₁ c arguments f g} (hf : c.initializer? = some f)
    (hg : bindThis f (.instance (m.nextInstance c)) m.withInstance = .ok g m₁) :
    Holds ⟨n + 1, .apply (.class c) arguments, m⟩ ⟨n, .call g arguments, m₁⟩
      (.instance (m.nextInstance c))

theorem Part.Holds.part {M N : Moment} {v : Value} (h : Part.Holds M N v) : Part M N := by
  cases h with
  | left hleft => exact .binaryRight hleft
  | callee hcallee => exact .arguments hcallee
  | argument hfirst => exact .others hfirst
  | receiver hobject => exact .setValue hobject
  | constructed hf hg => exact .constructCall hf hg

/-- The value exists at a moment of the run of a program. The host of the run has some values of its
own. -/
inductive Machine.Existing (m : Machine) (fuel : Nat) (p : Program) (vs : List Value) (N : Moment) :
    Value → Prop
  | host {v} (h : v ∈ vs) : Existing m fuel p vs N v
  | variable {f x v} (h : N.machine.frames.here? f x = some v) : Existing m fuel p vs N v
  | field {i x v} (h : N.machine.field? i x = some v) : Existing m fuel p vs N v
  | given {M v} (hM : m.Runs fuel p M) (h : v ∈ M.task.values) (hpath : ReflTransGen Part M N) :
    Existing m fuel p vs N v
  | held {M A v} (hM : m.Runs fuel p M) (h : Part.Holds M A v) (hpath : ReflTransGen Part A N) :
    Existing m fuel p vs N v

/-! ## Realms -/

namespace Realm

variable {R : Realm} {M N : Moment} {v : Value}

theorem Fits.values (h : R.Fits M) (hv : v ∈ M.task.values) : R.Has M.machine v := by
  obtain ⟨n, t, m⟩ := M
  have hsupplies := h.supplies
  cases t with
  | apply c arguments =>
    rcases List.mem_cons.mp hv with rfl | hv
    · exact hsupplies.1
    · exact hsupplies.2 v hv
  | call f arguments =>
    rcases List.mem_cons.mp hv with rfl | hv
    · exact hsupplies.1
    · exact hsupplies.2 v hv
  | bind f self =>
    rcases List.mem_cons.mp hv with rfl | hv
    · exact hsupplies.1
    · rw [List.mem_singleton.mp hv]
      exact hsupplies.2
  | _ => cases hv

theorem Fits.holds (h : R.Fits M) (hv : Part.Holds M N v) : R.Has N.machine v := by
  have hfirst {A : Moment} (hA : Part M A) (hm : A.machine = M.machine)
      (hsupplies : R.Supplies A.machine A.task) {a : A.task.Result} {m₁ : Machine}
      (hend : A.ending = .ok a m₁) : R.Yields m₁ A.task a :=
    ((h.first hA hm hsupplies).after (R.preserves A) hend).2.2.1
  cases hv with
  | left hleft => exact hfirst .binaryLeft rfl trivial hleft
  | callee hcallee => exact hfirst .callee rfl trivial hcallee
  | argument hone => exact hfirst .first rfl trivial hone
  | receiver hobject => exact hfirst .setObject rfl trivial hobject
  | @constructed n m m₁ c arguments f g hf hg =>
    have hbind : Moment.ending ⟨n, .bind f (.instance (m.nextInstance c)), m.withInstance⟩ = .ok g m₁ :=
      hg
    exact (h.closed.has_nextInstance h.supplies.1).later (Moment.precedes _ hbind)

/-- **Whatever exists at a moment is in the realm of its run.** -/
theorem Closed.has_existing {m : Machine} {fuel : Nat} {p : Program} {vs : List Value}
    (h : R.Closed m) (hall : ∀ i, R.object i) (hframes : ∀ f, R.frame f) (hp : R.Admits p)
    (hvs : ∀ v ∈ vs, R.Has m v) (hN : m.Runs fuel p N) (hv : m.Existing fuel p vs N v) :
    R.Has N.machine v := by
  have hclosed := (h.fits_run hp hN).closed
  cases hv with
  | host hv => exact (hvs v hv).later hN.precedes
  | «variable» hv => exact hclosed.values _ _ _ (hframes _) hv
  | field hv => exact hclosed.field (hall _) hv
  | given hM hv hpath => exact ((h.fits_run hp hM).values hv).later (Part.precedes_path hpath)
  | held hM hv hpath => exact ((h.fits_run hp hM).holds hv).later (Part.precedes_path hpath)

end Realm

end ScriptLang
