import ScriptLang.Proofs.Evaluation.Runs
import ScriptLang.Proofs.Scoping.References

/-!
# Realms

A `Realm` is a part of a machine: some frames and instances, and the code that may be run. It is
*closed* if everything in it refers to things in it (`Realm.Closed`): the frames around its frames,
the values in its frames and in the fields of its instances, and the closures, classes, methods and
superclasses that those values refer to. All frames and instances that are made later belong to
it.

A closed realm also has its references in order. A frame is enclosed by one that was made before
it, and only the global one by none; closures are frames that were made; instances have fields;
and a superclass was made before its subclasses.

The lemmas here say that what the machine does in one step keeps a realm closed, as long as the
values it deals with are in the realm (`Realm.Has`).
-/

namespace ScriptLang

open Scoping (Place Visits Phrase)

/-! ## Counts -/

/-- The second machine has made at least what the first one has. -/
structure Machine.Precedes (m m' : Machine) : Prop where
  frames : m.frames.count ≤ m'.frames.count
  fields : m.fields.size ≤ m'.fields.size
  made : m.made ≤ m'.made

theorem Machine.Grows.precedes {xs : List String} {m m' : Machine} (h : m.Grows xs m') :
    m.Precedes m' := ⟨h.frames.count, h.fields, h.made⟩

/-! ## Realms -/

/-- A part of a machine: the frames and instances that belong to it, and the code that may be
run. Code inside such code may be run, too. -/
structure Realm where
  frame : FrameId → Prop
  object : Nat → Prop
  code : Phrase → Prop
  visits {P P' : Place} : Visits P P' → code P.phrase → code P'.phrase

namespace Realm

/-- Everything. -/
def all : Realm := ⟨fun _ => True, fun _ => True, fun _ => True, fun _ _ => trivial⟩

variable (R : Realm) (m : Machine)

/-- A function whose routine may be run and whose closure belongs to the realm. -/
structure HasFunction (f : Function) : Prop where
  code : R.code (.routine f.routine)
  closure : R.frame f.closure
  closure_lt : f.closure < m.frames.count

/-- A class whose methods are in the realm, those of its superclasses included. A superclass has
a smaller number than the class. -/
def HasClass : Class → Prop
  | ⟨id, _, none, methods⟩ =>
    id < m.made ∧ ∀ name f, methods.get? name = some f → R.HasFunction m f
  | ⟨id, _, some superclass, methods⟩ =>
    id < m.made ∧ (∀ name f, methods.get? name = some f → R.HasFunction m f) ∧
      superclass.id < id ∧ HasClass superclass

/-- Something in the realm that can be called. -/
def HasCallable : Callable → Prop
  | .function f => R.HasFunction m f
  | .native _ => True
  | .class c => R.HasClass m c

/-- A value in the realm. -/
def Has : Value → Prop
  | .callable c => R.HasCallable m c
  | .instance i => R.object i.id ∧ i.id < m.fields.size ∧ R.HasClass m i.ofClass
  | _ => True

/-- An end of a statement whose value is in the realm. -/
def HasFlow : Flow → Prop
  | .returned v => R.Has m v
  | .normal | .broken => True

variable {R m}
variable {m' : Machine}

theorem HasFunction.later {f : Function} (h : R.HasFunction m f) (hm : m.Precedes m') :
    R.HasFunction m' f := ⟨h.code, h.closure, Nat.lt_of_lt_of_le h.closure_lt hm.frames⟩

theorem HasClass.later : ∀ {c : Class}, R.HasClass m c → m.Precedes m' → R.HasClass m' c
  | ⟨_, _, none, _⟩, h, hm =>
    ⟨Nat.lt_of_lt_of_le h.1 hm.made, fun name f hf => (h.2 name f hf).later hm⟩
  | ⟨_, _, some _, _⟩, h, hm =>
    ⟨Nat.lt_of_lt_of_le h.1 hm.made, fun name f hf => (h.2.1 name f hf).later hm, h.2.2.1,
      HasClass.later h.2.2.2 hm⟩

theorem HasClass.id_lt {c : Class} (h : R.HasClass m c) : c.id < m.made := by
  obtain ⟨id, name, superclass, methods⟩ := c
  cases superclass with
  | none => exact h.1
  | some d => exact h.1

theorem HasClass.superclass {c d : Class} (h : R.HasClass m c) (hd : c.superclass = some d) :
    d.id < c.id ∧ R.HasClass m d := by
  obtain ⟨id, name, superclass, methods⟩ := c
  cases hd
  exact h.2.2

theorem HasClass.own {c : Class} (h : R.HasClass m c) {name : String} {f : Function}
    (hf : c.methods.get? name = some f) : R.HasFunction m f := by
  obtain ⟨id, className, superclass, methods⟩ := c
  cases superclass with
  | none => exact h.2 name f hf
  | some d => exact h.2.1 name f hf

/-- A method is in the realm wherever it is found. -/
theorem HasClass.method : ∀ {c : Class}, R.HasClass m c → ∀ {name : String} {f : Function},
    c.findMethod name = some f → R.HasFunction m f
  | ⟨_, _, none, _⟩, h, name, f, hf => h.2 name f hf
  | ⟨_, _, some d, methods⟩, h, name, f, hf => by
    rw [Class.findMethod] at hf
    split at hf
    · rename_i g hg
      cases hf
      exact h.2.1 name _ hg
    · exact HasClass.method h.2.2.2 hf

theorem HasCallable.later {c : Callable} (h : R.HasCallable m c) (hm : m.Precedes m') :
    R.HasCallable m' c := by
  cases c with
  | function f => exact HasFunction.later h hm
  | native n => exact trivial
  | «class» c => exact HasClass.later h hm

theorem Has.later {v : Value} (h : R.Has m v) (hm : m.Precedes m') : R.Has m' v := by
  cases v with
  | callable c => exact HasCallable.later h hm
  | «instance» i => exact ⟨h.1, Nat.lt_of_lt_of_le h.2.1 hm.fields, h.2.2.later hm⟩
  | nil => exact trivial
  | bool b => exact trivial
  | number x => exact trivial
  | text s => exact trivial

/-! ## Code -/

section Code

variable {t t' : Phrase}

/-- Code inside code. The scopes in which it is visited do not matter. -/
theorem inside (R : Realm) (h : R.code t)
    (hvisit : ∃ a S r a' S' r', Visits ⟨a, t, S, r⟩ ⟨a', t', S', r'⟩) : R.code t' := by
  obtain ⟨a, S, r, a', S', r', hvisits⟩ := hvisit
  exact R.visits hvisits h

theorem code_body {routine : Routine} (h : R.code (.routine routine)) :
    R.code (.statements routine.body) :=
  R.inside h ⟨{}, [], .start [], _, _, _, .body⟩

theorem code_method {members : List Method} {name : Lexeme} {routine : Routine}
    (h : R.code (.methods members)) (hmem : ⟨name, routine⟩ ∈ members) :
    R.code (.routine routine) := by
  induction members with
  | nil => simp at hmem
  | cons member rest ih =>
    rcases List.mem_cons.mp hmem with rfl | hrest
    · exact R.inside h ⟨{}, [], .start [], _, _, _, .method⟩
    · obtain ⟨other, otherRoutine⟩ := member
      exact ih (R.inside h ⟨{}, [], .start [], _, _, _, .otherMethods⟩) hrest

end Code

/-! ## Closed realms -/

variable (R m)

/-- Everything in the realm refers to things in the realm, and references are in order. -/
structure Closed : Prop where
  globals : R.frame m.globals
  globals_lt : m.globals < m.frames.count
  /-- Only the global frame has no frame around it, and all others have an earlier one. -/
  tree : ∀ f, f < m.frames.count → (f = m.globals ∧ m.frames.outward? f = none) ∨
    ∃ g, g < f ∧ m.frames.outward? f = some g
  outward : ∀ f g, R.frame f → m.frames.outward? f = some g → R.frame g
  values : ∀ f x v, R.frame f → m.frames.here? f x = some v → R.Has m v
  fields : ∀ (i : Nat) (slots : Slots Value), R.object i → m.fields[i]? = some slots → ∀ x v,
    slots.get? x = some v → R.Has m v
  laterFrames : ∀ f, m.frames.count ≤ f → R.frame f
  laterObjects : ∀ i, m.fields.size ≤ i → R.object i

variable {R m}

namespace Closed

variable {v : Value}

/-- Only what steers evaluation is different, and more functions and classes were made. -/
theorem congr (h : R.Closed m) (hframes : m'.frames = m.frames) (hfields : m'.fields = m.fields)
    (hglobals : m'.globals = m.globals) (hmade : m.made ≤ m'.made) : R.Closed m' := by
  have hm : m.Precedes m' := ⟨by rw [hframes], by rw [hfields], hmade⟩
  refine ⟨?_, ?_, ?_, ?_, ?_, ?_, ?_, ?_⟩
  · rw [hglobals]
    exact h.globals
  · rw [hglobals, hframes]
    exact h.globals_lt
  · rw [hglobals, hframes]
    exact h.tree
  · rw [hframes]
    exact h.outward
  · rw [hframes]
    exact fun f x v hf hv => (h.values f x v hf hv).later hm
  · rw [hfields]
    exact fun i slots hi hslots x v hv => (h.fields i slots hi hslots x v hv).later hm
  · rw [hframes]
    exact h.laterFrames
  · rw [hfields]
    exact h.laterObjects

/-- A variable with a value in the realm. -/
theorem define (h : R.Closed m) (f : FrameId) (name : String) (hv : R.Has m v) :
    R.Closed { m with frames := m.frames.define f name v } := by
  have hm : m.Precedes { m with frames := m.frames.define f name v } :=
    ⟨Nat.le_of_eq (Frames.count_define ..).symm, Nat.le_refl _, Nat.le_refl _⟩
  refine ⟨h.globals, ?_, ?_, ?_, ?_, ?_, ?_, h.laterObjects⟩
  · change m.globals < (m.frames.define f name v).count
    rw [Frames.count_define]
    exact h.globals_lt
  · intro g hg
    have hg' : g < m.frames.count := by rwa [Frames.count_define] at hg
    rw [Frames.outward?_define]
    exact h.tree g hg'
  · intro g g' hg hout
    rw [Frames.outward?_define] at hout
    exact h.outward g g' hg hout
  · intro g x w hg hw
    rw [Frames.here?_define] at hw
    split at hw
    · cases hw
      exact hv.later hm
    · exact (h.values g x w hg hw).later hm
  · intro i slots hi hslots x w hw
    exact (h.fields i slots hi hslots x w hw).later hm
  · intro g hg
    rw [Frames.count_define] at hg
    exact h.laterFrames g hg

/-- Without the global variables. -/
theorem clearGlobals (h : R.Closed m) : R.Closed m.clearGlobals := by
  have hcount : m.clearGlobals.frames.count = m.frames.count := Frames.count_clear ..
  have houtward (f : FrameId) : m.clearGlobals.frames.outward? f = m.frames.outward? f :=
    Frames.outward?_clear ..
  have hm : m.Precedes m.clearGlobals :=
    ⟨Nat.le_of_eq hcount.symm, Nat.le_refl _, Nat.le_refl _⟩
  refine ⟨h.globals, hcount ▸ h.globals_lt, fun f hf => ?_, fun f g hf hout => ?_,
    fun f x v hf hv => ?_, fun i slots hi hslots x v hv => ?_, fun f hf => ?_, h.laterObjects⟩
  · rw [houtward]
    exact h.tree f (hcount ▸ hf)
  · rw [houtward] at hout
    exact h.outward f g hf hout
  · have hv' : (m.frames.clear m.globals).here? f x = some v := hv
    rw [Frames.here?_clear] at hv'
    split at hv'
    · cases hv'
    · exact (h.values f x v hf hv').later hm
  · exact (h.fields i slots hi hslots x v hv).later hm
  · exact h.laterFrames f (hcount ▸ hf)

/-- A new frame with variables that have values in the realm. -/
theorem enter (h : R.Closed m) {e : FrameId} (he : R.frame e) (hlt : e < m.frames.count)
    (names : List String) (vs : List Value) (hvs : ∀ v ∈ vs, R.Has m v) :
    R.Closed { m with
      frames := (m.frames.push (some e)).defineAll m.frames.nextId names vs } := by
  have hcount : ((m.frames.push (some e)).defineAll m.frames.nextId names vs).count =
      m.frames.count + 1 := by rw [Frames.count_defineAll, Frames.count_push]
  have hm : m.Precedes { m with
      frames := (m.frames.push (some e)).defineAll m.frames.nextId names vs } :=
    ⟨by rw [hcount]; exact Nat.le_succ _, Nat.le_refl _, Nat.le_refl _⟩
  have hself : (m.frames.push (some e)).outward? m.frames.count = some e :=
    Frames.outward?_push_self ..
  refine ⟨h.globals, ?_, ?_, ?_, ?_, ?_, ?_, h.laterObjects⟩
  · rw [hcount]
    exact Nat.lt_succ_of_lt h.globals_lt
  · intro g hg
    rw [hcount] at hg
    rw [Frames.outward?_defineAll]
    rcases Nat.lt_succ_iff_lt_or_eq.mp hg with hg | rfl
    · rw [Frames.outward?_push_of_lt hg]
      exact h.tree g hg
    · exact .inr ⟨e, hlt, hself⟩
  · intro g g' hg hout
    rw [Frames.outward?_defineAll] at hout
    have hgcount := Frames.lt_count_of_outward? hout
    rw [Frames.count_push] at hgcount
    rcases Nat.lt_succ_iff_lt_or_eq.mp hgcount with hlt' | rfl
    · rw [Frames.outward?_push_of_lt hlt'] at hout
      exact h.outward g g' hg hout
    · rw [hself] at hout
      cases hout
      exact he
  · intro g x w hg hw
    rcases Frames.here?_defineAll_cases hw with hw | ⟨-, hmem, -⟩
    · rw [Frames.here?_push] at hw
      exact (h.values g x w hg hw).later hm
    · exact (hvs w hmem).later hm
  · intro i slots hi hslots x w hw
    exact (h.fields i slots hi hslots x w hw).later hm
  · intro g hg
    rw [hcount] at hg
    exact h.laterFrames g (Nat.le_of_succ_le hg)

theorem withInstance (h : R.Closed m) : R.Closed m.withInstance := by
  have hm : m.Precedes m.withInstance :=
    ⟨Nat.le_refl _, by simp [Machine.withInstance], Nat.le_refl _⟩
  refine ⟨h.globals, h.globals_lt, h.tree, h.outward, ?_, ?_, h.laterFrames, ?_⟩
  · exact fun f x v hf hv => (h.values f x v hf hv).later hm
  · intro i slots hi hslots x v hv
    have hslots' : (m.fields.push .empty)[i]? = some slots := hslots
    rw [Array.getElem?_push] at hslots'
    split at hslots'
    · cases hslots'
      rw [Slots.get?_empty] at hv
      cases hv
    · exact (h.fields i slots hi hslots' x v hv).later hm
  · intro i hi
    refine h.laterObjects i (Nat.le_trans ?_ hi)
    simp [Machine.withInstance]

theorem setField (h : R.Closed m) {i : Nat} {name : String} (hv : R.Has m v) :
    R.Closed { m with fields := m.fields.modify i (·.set name v) } := by
  have hm : m.Precedes { m with fields := m.fields.modify i (·.set name v) } :=
    ⟨Nat.le_refl _, by simp, Nat.le_refl _⟩
  refine ⟨h.globals, h.globals_lt, h.tree, h.outward, ?_, ?_, h.laterFrames, ?_⟩
  · exact fun f x v hf hv => (h.values f x v hf hv).later hm
  · intro j slots hj hslots x w hw
    have hslots' : (m.fields.modify i (·.set name v))[j]? = some slots := hslots
    rw [Array.getElem?_modify] at hslots'
    split at hslots'
    · cases hold : m.fields[j]? with
      | none =>
        rw [hold] at hslots'
        cases hslots'
      | some old =>
        rw [hold] at hslots'
        cases hslots'
        rw [Slots.get?_set] at hw
        split at hw
        · cases hw
          exact hv.later hm
        · exact (h.fields j old hj hold x w hw).later hm
    · exact (h.fields j slots hj hslots' x w hw).later hm
  · intro j hj
    refine h.laterObjects j (Nat.le_trans ?_ hj)
    simp

/-! ## What is found -/

/-- A frame outward from one that was made and is in the realm is another such. -/
theorem ancestor (h : R.Closed m) {f g : FrameId} (hf : R.frame f) (hlt : f < m.frames.count)
    {hops : Nat} (hg : m.frames.ancestor? hops f = some g) : R.frame g ∧ g < m.frames.count := by
  induction hops generalizing f with
  | zero =>
    cases hg
    exact ⟨hf, hlt⟩
  | succ hops ih =>
    rw [Frames.ancestor?] at hg
    split at hg
    · rename_i g' hout
      rcases h.tree f hlt with ⟨-, hnone⟩ | ⟨g'', hlt', hsome⟩
      · rw [hnone] at hout
        cases hout
      · rw [hsome] at hout
        cases hout
        exact ih (h.outward f _ hf hsome) (Nat.lt_trans hlt' hlt) hg
    · cases hg

/-- A value that is found from a frame of the realm is in the realm. -/
theorem nameAt (h : R.Closed m) {f : FrameId} (hf : R.frame f) (hlt : f < m.frames.count)
    {hops : Nat} {name : String} (hv : m.frames.nameAt? hops f name = some v) : R.Has m v := by
  obtain ⟨g, hg, hhere⟩ := Frames.nameAt?_eq_some hv
  exact h.values g name v (h.ancestor hf hlt hg).1 hhere

/-- The global frame was made first. -/
theorem globals_eq (h : R.Closed m) : m.globals = 0 := by
  rcases h.tree 0 (Nat.zero_lt_of_lt h.globals_lt) with ⟨hzero, -⟩ | ⟨g, hg, -⟩
  · exact hzero.symm
  · exact absurd hg (Nat.not_lt_zero g)

theorem outward_globals (h : R.Closed m) : m.frames.outward? m.globals = none := by
  rcases h.tree m.globals h.globals_lt with ⟨-, hnone⟩ | ⟨g, hg, -⟩
  · exact hnone
  · rw [h.globals_eq] at hg
    exact absurd hg (Nat.not_lt_zero g)

/-- With a step to spare for each frame, every way outward ends at the global frame. -/
theorem rootFrom_eq (h : R.Closed m) {fuel : Nat} {f : FrameId} (hlt : f < m.frames.count)
    (hfuel : f < fuel) : m.frames.rootFrom fuel f = m.globals := by
  induction fuel generalizing f with
  | zero => exact absurd hfuel (Nat.not_lt_zero f)
  | succ fuel ih =>
    rw [Frames.rootFrom]
    rcases h.tree f hlt with ⟨rfl, hnone⟩ | ⟨g, hg, hsome⟩
    · rw [hnone]
    · rw [hsome]
      exact ih (Nat.lt_trans hg hlt) (Nat.lt_of_lt_of_le hg (Nat.le_of_lt_succ hfuel))

theorem root_eq (h : R.Closed m) {f : FrameId} (hlt : f < m.frames.count) :
    m.frames.root f = m.globals := h.rootFrom_eq hlt hlt

/-- A field of an instance in the realm has a value in the realm. -/
theorem field (h : R.Closed m) {i : Instance} (hi : R.object i.id) {name : String}
    (hv : m.field? i name = some v) : R.Has m v := by
  obtain ⟨slots, hslots, hv⟩ := Option.bind_eq_some_iff.mp hv
  exact h.fields i.id slots hi hslots name v hv

end Closed

end Realm

end ScriptLang
