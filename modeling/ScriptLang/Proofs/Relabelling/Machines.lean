import ScriptLang.Machine.Basic
import ScriptLang.Proofs.Frames.Store
import ScriptLang.Proofs.Relabelling.Trees
import ScriptLang.Semantics.Operators
import ScriptLang.Value.Text

/-!
# Machines with other labels

The values of a machine have the bodies of functions in them, which have labels, and its frames
have the names of variables. A `Mirror` says what else these are in another run: what the names
of each frame are there, and what the bindings are. Nothing that evaluation makes of values
depends on their labels.
-/

namespace ScriptLang

open Scoping (Site)

/-! ## Values -/

section Values

variable (R : Relabelling)

/-- The function with other labels in its body. -/
def Function.relabel (f : Function) : Function := { f with routine := f.routine.relabel R }

/-- The class with other labels in the bodies of its methods. -/
def Class.relabel : Class → Class
  | ⟨id, name, none, methods⟩ =>
    ⟨id, name, none, methods.relabel (Equiv.refl String) (Function.relabel R)⟩
  | ⟨id, name, some superclass, methods⟩ =>
    ⟨id, name, some superclass.relabel, methods.relabel (Equiv.refl String) (Function.relabel R)⟩

/-- The callable with other labels in its bodies. -/
def Callable.relabel : Callable → Callable
  | function f => function (f.relabel R)
  | native n => native n
  | «class» c => «class» (c.relabel R)

/-- The instance with other labels in the methods of its class. -/
def Instance.relabel (i : Instance) : Instance := ⟨i.id, i.ofClass.relabel R⟩

/-- The value with other labels in the bodies of its functions. -/
def Value.relabel : Value → Value
  | callable c => callable (c.relabel R)
  | .instance i => .instance (i.relabel R)
  | v => v

theorem Function.arity_relabel (f : Function) : (f.relabel R).arity = f.arity :=
  List.length_map ..

theorem Function.params_relabel (f : Function) : (f.relabel R).routine.params.map (·.text) =
    (f.routine.params.map (·.text)).map (R.names (.routine f.routine)) := by
  unfold relabel Routine.relabel
  rw [List.map_map, List.map_map]
  rfl

theorem Class.id_relabel (c : Class) : (c.relabel R).id = c.id := by
  obtain ⟨id, name, superclass, methods⟩ := c
  cases superclass <;> rfl

theorem Class.name_relabel (c : Class) : (c.relabel R).name = c.name := by
  obtain ⟨id, name, superclass, methods⟩ := c
  cases superclass <;> rfl

theorem Class.findMethod_relabel (name : String) : (c : Class) →
    (c.relabel R).findMethod name = (c.findMethod name).map (Function.relabel R)
  | ⟨_, _, none, methods⟩ => Slots.get?_relabel (Equiv.refl String) (Function.relabel R) methods name
  | ⟨_, _, some superclass, methods⟩ => by
    have hmethods : (methods.relabel (Equiv.refl String) (Function.relabel R)).get? name =
        (methods.get? name).map (Function.relabel R) := Slots.get?_relabel ..
    simp only [Class.relabel, findMethod, hmethods]
    cases methods.get? name with
    | some f => rfl
    | none => exact findMethod_relabel name superclass

theorem Class.arity_relabel (c : Class) : (c.relabel R).arity = c.arity := by
  unfold arity initializer?
  rw [findMethod_relabel]
  cases c.findMethod "init" with
  | none => rfl
  | some f => exact f.arity_relabel R

theorem Callable.arity_relabel (c : Callable) : (c.relabel R).arity = c.arity := by
  cases c with
  | function f => exact f.arity_relabel R
  | native n => rfl
  | «class» c => exact c.arity_relabel R

theorem Callable.same_relabel (c d : Callable) : (c.relabel R).same (d.relabel R) = c.same d := by
  cases c <;> cases d <;> simp [relabel, same, Function.relabel, Class.id_relabel]

theorem Callable.display_relabel (c : Callable) : (c.relabel R).display = c.display := by
  cases c with
  | function f => rfl
  | native n => rfl
  | «class» c => exact c.name_relabel R

theorem Value.isTruthy_relabel (v : Value) : (v.relabel R).isTruthy = v.isTruthy := by
  cases v <;> rfl

theorem Value.display_relabel (v : Value) : (v.relabel R).display = v.display := by
  cases v with
  | callable c => exact c.display_relabel R
  | «instance» i => exact congrArg (· ++ " instance") (i.ofClass.name_relabel R)
  | _ => rfl

theorem Value.getD_relabel (v? : Option Value) :
    (v?.map (Value.relabel R)).getD nil = (v?.getD nil).relabel R := by
  cases v? <;> rfl

theorem Value.equals_relabel (v w : Value) : (v.relabel R).equals (w.relabel R) = v.equals w := by
  cases v <;> cases w <;>
    simp [relabel, equals, Callable.same_relabel, Instance.relabel]

theorem Literal.relabel_value (l : Literal) : l.value.relabel R = l.value := by
  cases l <;> rfl

theorem UnaryOp.apply_relabel (op : UnaryOp) (v : Value) :
    op.apply (v.relabel R) = (op.apply v).map (Value.relabel R) := by
  cases op with
  | not => exact congrArg (fun b => Except.ok (Value.bool !b)) (v.isTruthy_relabel R)
  | negate => cases v <;> rfl

theorem onNumbers_relabel {f : Float → Float → Value} (hf : ∀ x y, (f x y).relabel R = f x y)
    (v w : Value) :
    onNumbers f (v.relabel R) (w.relabel R) = (onNumbers f v w).map (Value.relabel R) := by
  cases v <;> cases w <;> first | rfl | exact congrArg Except.ok (hf ..).symm

theorem BinaryOp.apply_relabel (op : BinaryOp) (v w : Value) :
    op.apply (v.relabel R) (w.relabel R) = (op.apply v w).map (Value.relabel R) := by
  cases op with
  | add => cases v <;> cases w <;> rfl
  | equal => exact congrArg (fun b => Except.ok (Value.bool b)) (v.equals_relabel R w)
  | notEqual => exact congrArg (fun b => Except.ok (Value.bool !b)) (v.equals_relabel R w)
  | _ => exact onNumbers_relabel R (fun _ _ => rfl) v w

/-- Operators do not look for variables. -/
theorem UnaryOp.apply_ne_undefined (op : UnaryOp) (v : Value) (name : String) :
    op.apply v ≠ .error (.undefinedVariable name) := by
  cases op <;> cases v <;> nofun

theorem BinaryOp.apply_ne_undefined (op : BinaryOp) (v w : Value) (name : String) :
    op.apply v w ≠ .error (.undefinedVariable name) := by
  cases op <;> cases v <;> cases w <;> nofun

theorem LogicalOp.decides_relabel (op : LogicalOp) (v : Value) :
    op.decides (v.relabel R) = op.decides v := by
  cases op with
  | or => exact v.isTruthy_relabel R
  | and => exact congrArg (!·) (v.isTruthy_relabel R)

end Values

/-! ## Frames -/

namespace Frames

variable (R : Relabelling) (ν : FrameId → Equiv.Perm String)

/-- The frames with other names and other labels in their values. -/
def relabel (fs : Frames) : Frames :=
  ⟨fs.all.mapIdx fun f frame => ⟨frame.slots.relabel (ν f) (Value.relabel R), frame.enclosing⟩⟩

variable (fs : Frames)

theorem frame?_relabel (f : FrameId) : (fs.relabel R ν).frame? f =
    (fs.frame? f).map fun frame =>
      ⟨frame.slots.relabel (ν f) (Value.relabel R), frame.enclosing⟩ := by
  unfold frame? relabel
  rw [Array.getElem?_mapIdx]

@[simp]
theorem count_relabel : (fs.relabel R ν).count = fs.count := Array.size_mapIdx ..

@[simp]
theorem nextId_relabel : (fs.relabel R ν).nextId = fs.nextId := Array.size_mapIdx ..

@[simp]
theorem outward?_relabel (f : FrameId) : (fs.relabel R ν).outward? f = fs.outward? f := by
  unfold outward?
  rw [frame?_relabel]
  cases fs.frame? f <;> rfl

@[simp]
theorem ancestor?_relabel (hops : Nat) (f : FrameId) :
    (fs.relabel R ν).ancestor? hops f = fs.ancestor? hops f := by
  induction hops generalizing f with
  | zero => rfl
  | succ hops ih =>
    rw [ancestor?, ancestor?, outward?_relabel]
    cases fs.outward? f with
    | none => rfl
    | some g => exact ih g

@[simp]
theorem root_relabel (f : FrameId) : (fs.relabel R ν).root f = fs.root f := by
  have hfrom (fuel : Nat) (f : FrameId) :
      (fs.relabel R ν).rootFrom fuel f = fs.rootFrom fuel f := by
    induction fuel generalizing f with
    | zero => rfl
    | succ fuel ih =>
      rw [rootFrom, rootFrom, outward?_relabel]
      cases fs.outward? f with
      | none => rfl
      | some g => exact ih g
  unfold root
  rw [count_relabel, hfrom]

theorem here?_relabel (f : FrameId) (name : String) :
    (fs.relabel R ν).here? f (ν f name) = (fs.here? f name).map (Value.relabel R) := by
  unfold here?
  rw [frame?_relabel]
  cases fs.frame? f with
  | none => rfl
  | some frame => exact frame.slots.get?_relabel (ν f) (Value.relabel R) name

/-- The frame that is meant knows the name by its other name. -/
theorem nameAt?_relabel {name name' : String} (hops : Nat) (f : FrameId)
    (h : ∀ g, fs.ancestor? hops f = some g → ν g name = name') :
    (fs.relabel R ν).nameAt? hops f name' = (fs.nameAt? hops f name).map (Value.relabel R) := by
  unfold nameAt?
  rw [ancestor?_relabel]
  cases hg : fs.ancestor? hops f with
  | none => rfl
  | some g =>
    have hhere := fs.here?_relabel R ν g name
    rwa [h g hg] at hhere

theorem names_relabel (f : FrameId) : (fs.relabel R ν).names f = (fs.names f).map (ν f) := by
  unfold names
  rw [frame?_relabel]
  cases fs.frame? f with
  | none => rfl
  | some frame => exact frame.slots.names_relabel (ν f) (Value.relabel R)

theorem relabel_push (e : Option FrameId) :
    (fs.push e).relabel R ν = (fs.relabel R ν).push e := by
  unfold push relabel
  rw [Array.mapIdx_push]
  rfl

theorem relabel_change (f : FrameId) {g g' : Slots Value → Slots Value}
    (h : ∀ slots, (g slots).relabel (ν f) (Value.relabel R) =
      g' (slots.relabel (ν f) (Value.relabel R))) :
    (fs.change f g).relabel R ν = (fs.relabel R ν).change f g' := by
  unfold change relabel
  refine congrArg Frames.mk (Array.ext_getElem? fun i => ?_)
  rw [Array.getElem?_mapIdx, Array.getElem?_modify, Array.getElem?_modify, Array.getElem?_mapIdx]
  by_cases hi : f = i
  · subst hi
    rw [if_pos rfl, if_pos rfl]
    cases fs.all[f]? with
    | none => rfl
    | some frame =>
      exact congrArg (fun slots => some (Frame.mk slots frame.enclosing)) (h frame.slots)
  · rw [if_neg hi, if_neg hi]

theorem relabel_define (f : FrameId) (name : String) (v : Value) :
    (fs.define f name v).relabel R ν = (fs.relabel R ν).define f (ν f name) (v.relabel R) :=
  fs.relabel_change R ν f fun slots => slots.relabel_set (ν f) (Value.relabel R) name v

theorem relabel_clear (f : FrameId) : (fs.clear f).relabel R ν = (fs.relabel R ν).clear f :=
  fs.relabel_change R ν f fun _ => rfl

theorem relabel_defineAll (f : FrameId) (names : List String) (vs : List Value) :
    (fs.defineAll f names vs).relabel R ν =
      (fs.relabel R ν).defineAll f (names.map (ν f)) (vs.map (Value.relabel R)) := by
  induction names generalizing fs vs with
  | nil => rfl
  | cons name names ih =>
    cases vs with
    | nil => rfl
    | cons v vs =>
      rw [defineAll, ih, relabel_define]
      rfl

section Access

variable {word word' : Lexeme}

/-- Reading a variable, by its other name. -/
theorem getAt_relabel (hops : Nat) (f : FrameId)
    (h : ∀ g, fs.ancestor? hops f = some g → ν g word.text = word'.text) :
    (∃ v, fs.getAt hops f word = .ok v ∧
      (fs.relabel R ν).getAt hops f word' = .ok (v.relabel R)) ∨
    (fs.getAt hops f word = .error (undefined word) ∧
      (fs.relabel R ν).getAt hops f word' = .error (undefined word')) := by
  unfold getAt
  rw [fs.nameAt?_relabel R ν hops f h]
  cases fs.nameAt? hops f word.text with
  | none => exact .inr ⟨rfl, rfl⟩
  | some v => exact .inl ⟨v, rfl, rfl⟩

/-- Reading a global variable, by its other name. -/
theorem getGlobal_relabel (f : FrameId) (h : ν (fs.root f) word.text = word'.text) :
    (∃ v, fs.getGlobal f word = .ok v ∧
      (fs.relabel R ν).getGlobal f word' = .ok (v.relabel R)) ∨
    (fs.getGlobal f word = .error (undefined word) ∧
      (fs.relabel R ν).getGlobal f word' = .error (undefined word')) := by
  have hhere := fs.here?_relabel R ν (fs.root f) word.text
  unfold getGlobal
  rw [root_relabel, ← h, hhere]
  cases fs.here? (fs.root f) word.text with
  | none => exact .inr ⟨rfl, rfl⟩
  | some v => exact .inl ⟨v, rfl, rfl⟩

/-- Assigning a variable, by its other name. -/
theorem assignAt_relabel (hops : Nat) (f : FrameId) (v : Value)
    (h : ∀ g, fs.ancestor? hops f = some g → ν g word.text = word'.text) :
    (∃ fs', fs.assignAt hops f word v = .ok fs' ∧
      (fs.relabel R ν).assignAt hops f word' (v.relabel R) = .ok (fs'.relabel R ν)) ∨
    (fs.assignAt hops f word v = .error (undefined word) ∧
      (fs.relabel R ν).assignAt hops f word' (v.relabel R) = .error (undefined word')) := by
  unfold assignAt
  rw [ancestor?_relabel]
  cases hg : fs.ancestor? hops f with
  | none => exact .inr ⟨rfl, rfl⟩
  | some g =>
    have hhere := fs.here?_relabel R ν g word.text
    have hdefine := fs.relabel_define R ν g word.text v
    rw [h g hg] at hhere hdefine
    dsimp only
    rw [hhere]
    cases fs.here? g word.text with
    | none => exact .inr ⟨rfl, rfl⟩
    | some w => exact .inl ⟨_, rfl, congrArg Except.ok hdefine.symm⟩

/-- Assigning a global variable, by its other name. -/
theorem assignGlobal_relabel (f : FrameId) (v : Value) (h : ν (fs.root f) word.text = word'.text) :
    (∃ fs', fs.assignGlobal f word v = .ok fs' ∧
      (fs.relabel R ν).assignGlobal f word' (v.relabel R) = .ok (fs'.relabel R ν)) ∨
    (fs.assignGlobal f word v = .error (undefined word) ∧
      (fs.relabel R ν).assignGlobal f word' (v.relabel R) = .error (undefined word')) := by
  unfold assignGlobal
  rw [root_relabel]
  refine fs.assignAt_relabel R ν 0 (fs.root f) v fun g hg => ?_
  cases hg
  exact h

end Access

end Frames

/-! ## Machines -/

/-- What a machine looks like in another run: other labels, other names in each of its frames,
and other bindings. The references that may ask for a variable that is not there are known. -/
structure Mirror extends Relabelling where
  frames : FrameId → Equiv.Perm String
  table : Bindings
  asked : Ref → Prop
  this_eq : ∀ f, frames f "this" = "this"
  super_eq : ∀ f, frames f "super" = "super"

/-- The machine as it is in the other run. -/
def Machine.mirror (μ : Mirror) (m : Machine) : Machine :=
  { m with
    frames := m.frames.relabel μ.toRelabelling μ.frames
    fields := m.fields.map (·.relabel (Equiv.refl String) (Value.relabel μ.toRelabelling))
    bindings := μ.table }

end ScriptLang
