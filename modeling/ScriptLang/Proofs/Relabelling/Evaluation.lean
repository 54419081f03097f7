import ScriptLang.Proofs.Agreement.World
import ScriptLang.Proofs.Relabelling.Machines

/-!
# Evaluation under other labels

Evaluation does the same with other labels, if they fit together: wherever a reference is looked
up, the other bindings say the same of its other number, and its other word is what the variable is
called in the frame that is meant; and every frame has its names from the site that it was made
for (`Moment.Conforms`). Then the other run goes on in step with the first one, and its machine is
always the mirror image of that one (`Moment.mirrored_of_conforms`).

`Eval.Mirrors` says this of one computation and its image, and is closed under the ways
computations are built. The proof follows `Moment.induction`.
-/

namespace ScriptLang

open Scoping (Site)
open Relation (ReflTransGen)

/-! ## Images of machines -/

namespace Machine

variable (μ : Mirror) (m : Machine)

theorem mirror_defining (name : String) (v : Value) :
    (m.mirror μ).defining (μ.frames m.current name) (v.relabel μ.toRelabelling) =
      (m.defining name v).mirror μ := by
  unfold defining mirror
  rw [Frames.relabel_define]

theorem mirror_withInstance : (m.mirror μ).withInstance = m.withInstance.mirror μ := by
  unfold withInstance mirror
  rw [Array.map_push]
  rfl

theorem mirror_nextInstance (c : Class) :
    (m.mirror μ).nextInstance (c.relabel μ.toRelabelling) =
      (m.nextInstance c).relabel μ.toRelabelling := by
  have hsize : (m.mirror μ).fields.size = m.fields.size := Array.size_map ..
  exact congrArg (Instance.mk · (c.relabel μ.toRelabelling)) hsize

theorem mirror_field? (i : Instance) (name : String) :
    (m.mirror μ).field? (i.relabel μ.toRelabelling) name =
      (m.field? i name).map (Value.relabel μ.toRelabelling) := by
  have hfields : (m.mirror μ).fields[i.id]? =
      m.fields[i.id]?.map (·.relabel (Equiv.refl String) (Value.relabel μ.toRelabelling)) :=
    Array.getElem?_map ..
  unfold field?
  change (m.mirror μ).fields[i.id]?.bind _ = _
  rw [hfields]
  cases m.fields[i.id]? with
  | none => rfl
  | some slots => exact slots.get?_relabel (Equiv.refl String) (Value.relabel μ.toRelabelling) name

theorem mirror_nameAt? (hops : Nat) (f : FrameId) {name : String}
    (hname : ∀ g, μ.frames g name = name) :
    (m.mirror μ).frames.nameAt? hops f name =
      (m.frames.nameAt? hops f name).map (Value.relabel μ.toRelabelling) :=
  m.frames.nameAt?_relabel μ.toRelabelling μ.frames hops f fun g _ => hname g

theorem mirror_thisInside (hops : Nat) :
    (m.mirror μ).thisInside hops = (m.thisInside hops).relabel μ.toRelabelling := by
  cases hops with
  | zero => rfl
  | succ hops =>
    have hthis := m.mirror_nameAt? μ hops m.current μ.this_eq
    change ((m.mirror μ).frames.nameAt? hops m.current "this").getD .nil = _
    rw [hthis]
    exact Value.getD_relabel ..

end Machine

theorem Eval.mirror_boundMachine (μ : Mirror) (f : Function) (self : Value) (m : Machine) :
    boundMachine (f.relabel μ.toRelabelling) (self.relabel μ.toRelabelling) (m.mirror μ) =
      (boundMachine f self m).mirror μ := by
  have hdefine := (m.frames.push (some f.closure)).relabel_define μ.toRelabelling μ.frames
    m.frames.nextId "this" self
  rw [μ.this_eq, Frames.relabel_push] at hdefine
  unfold boundMachine Machine.mirror
  rw [hdefine]
  dsimp only
  rw [Frames.nextId_relabel]
  rfl

theorem Eval.mirror_boundFunction (μ : Mirror) (f : Function) (m : Machine) :
    boundFunction (f.relabel μ.toRelabelling) (m.mirror μ) =
      (boundFunction f m).relabel μ.toRelabelling := by
  have hnext : (m.mirror μ).frames.nextId = m.frames.nextId := Frames.nextId_relabel ..
  unfold boundFunction
  rw [hnext]
  rfl

/-! ## Computations and their images -/

/-- How a stop looks in the other run. Only if a variable is not there does the error have a name
of the program in it, and then it is a reference that asks for it. -/
inductive Mirror.Stops (μ : Mirror) : Abort → Abort → Prop
  | outOfFuel : Stops μ .outOfFuel .outOfFuel
  | same {e : RunError} (h : ∀ name, e.fault ≠ .undefinedVariable name := by rintro _ ⟨⟩) :
    Stops μ (.error e) (.error e)
  | undefined {ref : Ref} (h : μ.asked ref) :
    Stops μ (.error (Frames.undefined ref.word))
      (.error (Frames.undefined (ref.relabel μ.toRelabelling).word))

namespace Eval

variable {α α' β β' : Type}

/-- The second end is the image of the first one. -/
def Mirrored (μ : Mirror) (image : α → α') :
    EStateM.Result Abort Machine α → EStateM.Result Abort Machine α' → Prop
  | .ok a m, r => r = .ok (image a) (m.mirror μ)
  | .error stop m, r => ∃ stop', μ.Stops stop stop' ∧ r = .error stop' (m.mirror μ)

/-- The second computation does on the image of the machine what the first one does on the
machine. -/
def Mirrors (μ : Mirror) (image : α → α') (act : Eval α) (act' : Eval α') (m : Machine) : Prop :=
  Mirrored μ image (act m) (act' (m.mirror μ))

section Computations

variable {μ : Mirror} {image : α → α'} {act : Eval α} {act' : Eval α'} {m : Machine}

theorem Mirrors.of_ok (h : Mirrors μ image act act' m) {a : α} {m₁ : Machine}
    (hact : act m = .ok a m₁) : act' (m.mirror μ) = .ok (image a) (m₁.mirror μ) := by
  unfold Mirrors at h
  rwa [hact] at h

theorem Mirrors.of_error (h : Mirrors μ image act act' m) {stop : Abort} {m₁ : Machine}
    (hact : act m = .error stop m₁) :
    ∃ stop', μ.Stops stop stop' ∧ act' (m.mirror μ) = .error stop' (m₁.mirror μ) := by
  unfold Mirrors at h
  rwa [hact] at h

theorem mirrors_of_eq {a : α} {a' : α'} {m₁ m₁' : Machine} (h : act m = .ok a m₁)
    (h' : act' (m.mirror μ) = .ok a' m₁') (ha : a' = image a) (hm : m₁' = m₁.mirror μ) :
    Mirrors μ image act act' m := by
  unfold Mirrors
  rw [h, h', ha, hm]
  rfl

theorem mirrors_pure {a : α} {a' : α'} (h : a' = image a) :
    Mirrors μ image (pure a) (pure a') m := mirrors_of_eq rfl rfl h rfl

theorem mirrors_fail {word : Lexeme} {fault : RunFault}
    (h : ∀ name, fault ≠ .undefinedVariable name) :
    Mirrors μ image (fail word fault) (fail word fault) m := ⟨_, .same h, rfl⟩

theorem mirrors_outOfFuel : Mirrors μ image outOfFuel outOfFuel m := ⟨_, .outOfFuel, rfl⟩

theorem mirrors_bind {next : α → Eval β} {next' : α' → Eval β'} {image' : β → β'}
    (h : Mirrors μ image act act' m)
    (hnext : ∀ a m₁, act m = .ok a m₁ → Mirrors μ image' (next a) (next' (image a)) m₁) :
    Mirrors μ image' (act >>= next) (act' >>= next') m := by
  cases hact : act m with
  | ok a m₁ =>
    have hact' := h.of_ok hact
    unfold Mirrors
    rw [bind_of_ok hact, bind_of_ok hact']
    exact hnext a m₁ hact
  | error stop m₁ =>
    obtain ⟨stop', hstop, hact'⟩ := h.of_error hact
    unfold Mirrors
    rw [bind_of_error hact, bind_of_error hact']
    exact ⟨stop', hstop, rfl⟩

theorem mirrors_map {f : α → β} {f' : α' → β'} {image' : β → β'} (h : Mirrors μ image act act' m)
    (hf : ∀ a, f' (image a) = image' (f a)) : Mirrors μ image' (f <$> act) (f' <$> act') m := by
  unfold Mirrors
  change Mirrored μ image' (EStateM.map f act m) (EStateM.map f' act' (m.mirror μ))
  unfold EStateM.map
  cases hact : act m with
  | ok a m₁ =>
    rw [h.of_ok hact]
    dsimp only
    rw [hf a]
    rfl
  | error stop m₁ =>
    obtain ⟨stop', hstop, hact'⟩ := h.of_error hact
    rw [hact']
    exact ⟨stop', hstop, rfl⟩

theorem mirrors_within {frame : FrameId} (h : Mirrors μ image act act' { m with current := frame }) :
    Mirrors μ image (within frame act) (within frame act') m := by
  have hframe : { m.mirror μ with current := frame } =
      ({ m with current := frame } : Machine).mirror μ := rfl
  unfold Mirrors within
  rw [hframe]
  cases hact : act { m with current := frame } with
  | ok a m₁ =>
    rw [h.of_ok hact]
    rfl
  | error stop m₁ =>
    obtain ⟨stop', hstop, hact'⟩ := h.of_error hact
    rw [hact']
    exact ⟨stop', hstop, rfl⟩

theorem mirrors_deeper {word : Lexeme} (h : m.depth < m.maxDepth → Mirrors μ image act act' m.deeper) :
    Mirrors μ image (deeper word act) (deeper word act') m := by
  have hdeeper : { m.mirror μ with depth := (m.mirror μ).depth + 1 } = m.deeper.mirror μ := rfl
  unfold Mirrors deeper
  rw [hdeeper]
  by_cases hd : m.maxDepth ≤ m.depth
  · have hd' : (m.mirror μ).maxDepth ≤ (m.mirror μ).depth := hd
    rw [if_pos hd, if_pos hd']
    exact ⟨_, .same, rfl⟩
  · have hd' : ¬ (m.mirror μ).maxDepth ≤ (m.mirror μ).depth := hd
    rw [if_neg hd, if_neg hd']
    have hinner := h (Nat.lt_of_not_le hd)
    have hsame : { m with depth := m.depth + 1 } = m.deeper := rfl
    rw [hsame]
    cases hact : act m.deeper with
    | ok a m₁ =>
      rw [hinner.of_ok hact]
      rfl
    | error stop m₁ =>
      obtain ⟨stop', hstop, hact'⟩ := hinner.of_error hact
      rw [hact']
      exact ⟨stop', hstop, rfl⟩

theorem mirrors_ite {other : Eval α} {other' : Eval α'} {b b' : Bool} (hb : b' = b)
    (htrue : b = true → Mirrors μ image act act' m)
    (hfalse : b = false → Mirrors μ image other other' m) :
    Mirrors μ image (if b then act else other) (if b' then act' else other') m := by
  subst hb
  cases b' with
  | true => exact htrue rfl
  | false => exact hfalse rfl

theorem mirrors_ofOperator {sign : Lexeme} {r r' : Except RunFault Value}
    (h : r' = r.map (Value.relabel μ.toRelabelling))
    (hfault : ∀ name, r ≠ .error (.undefinedVariable name)) :
    Mirrors μ (Value.relabel μ.toRelabelling) (ofOperator sign r) (ofOperator sign r') m := by
  subst h
  cases r with
  | ok v => exact mirrors_pure rfl
  | error fault => exact mirrors_fail fun name hname => hfault name (congrArg Except.error hname)

/-! ## Functions -/

theorem mirrors_bindThis (f : Function) (self : Value) :
    Mirrors μ (Function.relabel μ.toRelabelling) (bindThis f self)
      (bindThis (f.relabel μ.toRelabelling) (self.relabel μ.toRelabelling)) m :=
  mirrors_of_eq (bindThis_eq f self m) (bindThis_eq ..) (mirror_boundFunction μ f m)
    (mirror_boundMachine μ f self m)

theorem mirrors_boundMethod (f : Function) (self : Value) :
    Mirrors μ (Value.relabel μ.toRelabelling)
      (do return .callable (.function (← bindThis f self)))
      (do return .callable (.function (← bindThis (f.relabel μ.toRelabelling)
        (self.relabel μ.toRelabelling)))) m :=
  mirrors_bind (mirrors_bindThis f self) fun _ _ _ => mirrors_pure rfl

theorem mirrors_makeFunction (name : Option String) (routine : Routine) (closure : FrameId)
    (isInitializer : Bool) :
    Mirrors μ (Function.relabel μ.toRelabelling) (makeFunction name routine closure isInitializer)
      (makeFunction name (routine.relabel μ.toRelabelling) closure isInitializer) m :=
  mirrors_of_eq rfl rfl rfl rfl

theorem mirrors_declaredFunction (name : Option String) (routine : Routine) :
    Mirrors μ (Value.relabel μ.toRelabelling) (declaredFunction name routine)
      (declaredFunction name (routine.relabel μ.toRelabelling)) m :=
  mirrors_of_eq (declaredFunction_eq ..) (declaredFunction_eq ..) rfl rfl

/-! ## Variables of frames -/

theorem mirrors_newFrame (enclosing : FrameId) :
    Mirrors μ id (newFrame enclosing) (newFrame enclosing) m := by
  refine mirrors_of_eq rfl rfl (Frames.nextId_relabel ..) ?_
  unfold Machine.mirror
  rw [Frames.relabel_push]

theorem mirrors_define {name name' : String} (v : Value) (h : μ.frames m.current name = name') :
    Mirrors μ id (define name v) (define name' (v.relabel μ.toRelabelling)) m := by
  subst h
  exact mirrors_of_eq rfl rfl rfl (m.mirror_defining μ name v)

end Computations

/-! ## Classes -/

section Classes

variable {μ : Mirror} {m : Machine}

theorem mirrors_makeMethods (closure : FrameId) (members : List Method) (made : Slots Function) :
    Mirrors μ (·.relabel (Equiv.refl String) (Function.relabel μ.toRelabelling))
      (makeMethods closure members made)
      (makeMethods closure (Method.relabelAll μ.toRelabelling members)
        (made.relabel (Equiv.refl String) (Function.relabel μ.toRelabelling))) m := by
  induction members generalizing m made with
  | nil => exact mirrors_pure rfl
  | cons member rest ih =>
    obtain ⟨name, params, body⟩ := member
    have hmake : Mirrors μ (Function.relabel μ.toRelabelling)
        (makeFunction (some name.text) ⟨params, body⟩ closure (name.text = "init"))
        (makeFunction (some name.text) (Routine.relabel μ.toRelabelling ⟨params, body⟩) closure
          (name.text = "init")) m := mirrors_makeFunction ..
    refine mirrors_bind hmake fun f m₁ _ => ?_
    have hset := made.relabel_set (Equiv.refl String) (Function.relabel μ.toRelabelling)
      name.text f
    have hrest := ih (made.set name.text f) (m := m₁)
    rw [hset] at hrest
    exact hrest

theorem mirrors_methodFrame (parent : Option Class) :
    Mirrors μ id (methodFrame parent) (methodFrame (parent.map (Class.relabel μ.toRelabelling)))
      m := by
  cases parent with
  | none => exact mirrors_of_eq rfl rfl rfl rfl
  | some c =>
    have hdefine := (m.frames.push (some m.current)).relabel_define μ.toRelabelling μ.frames
      m.frames.nextId "super" (.callable (.class c))
    rw [μ.super_eq, Frames.relabel_push] at hdefine
    refine mirrors_of_eq (methodFrame_eq ..) (methodFrame_eq ..) (Frames.nextId_relabel ..) ?_
    unfold methodMachine Machine.mirror
    dsimp only [Option.map]
    rw [hdefine, Frames.nextId_relabel]
    rfl

theorem mirrors_finishClass {name : Lexeme} (members : List Method) (parent : Option Class)
    (hname : μ.frames m.current name.text = name.text) :
    Mirrors μ id (finishClass name members parent)
      (finishClass name (Method.relabelAll μ.toRelabelling members)
        (parent.map (Class.relabel μ.toRelabelling))) m := by
  refine mirrors_bind (mirrors_define .nil hname) fun _ m₁ hm₁ => ?_
  cases hm₁
  refine mirrors_bind (mirrors_methodFrame parent) fun frame m₂ hm₂ => ?_
  have hcurrent : m₂.current = m.current := by
    rw [methodFrame_eq] at hm₂
    cases hm₂
    cases parent <;> rfl
  refine mirrors_bind (mirrors_makeMethods frame members .empty) fun methods m₃ hm₃ => ?_
  obtain ⟨made, k, hmade, -⟩ := makeMethods_eq frame members .empty m₂
  rw [hmade] at hm₃
  cases hm₃
  have hidentity : Mirrors μ id identity identity { m₂ with made := k } :=
    mirrors_of_eq rfl rfl rfl rfl
  refine mirrors_bind hidentity fun id m₄ hm₄ => ?_
  cases hm₄
  have hclass : Mirrors μ _ _ _ { m₂ with made := k + 1 } :=
    mirrors_define (.callable (.class ⟨k, name.text, parent, methods⟩)) (hcurrent ▸ hname)
  cases parent <;> exact hclass

end Classes

end Eval

/-! ## References -/

/-- The other run finds for the reference what this one finds. -/
structure Mirror.Knows (μ : Mirror) (ref : Ref) (m : Machine) : Prop where
  hops : μ.table.hops? (μ.id ref.id) = m.bindings.hops? ref.id
  outward : ∀ hops f, m.bindings.hops? ref.id = some hops →
    m.frames.ancestor? hops m.current = some f → μ.frames f ref.word.text = μ.word ref
  outermost : m.bindings.hops? ref.id = none →
    μ.frames (m.frames.root m.globals) ref.word.text = μ.word ref

namespace Eval

section References

variable {μ : Mirror} {ref : Ref} {m : Machine} (h : μ.Knows ref m)

include h

omit h in
theorem mirrors_undefined {α α' : Type} {image : α → α'} (hasked : μ.asked ref) :
    Mirrors μ image (throw (.error (Frames.undefined ref.word)))
      (throw (.error (Frames.undefined (ref.relabel μ.toRelabelling).word))) m :=
  ⟨_, .undefined hasked, rfl⟩

theorem hops?_mirror : (m.mirror μ).bindings.hops? (ref.relabel μ.toRelabelling).id =
    m.bindings.hops? ref.id := h.hops

omit h in
/-- What is left of reading once it is known whether there is such a variable. -/
theorem mirrors_ofExcept {r r' : Except RunError Value}
    (hasked : ofExcept r m = .error (.error (Frames.undefined ref.word)) m → μ.asked ref) :
    ((∃ v, r = .ok v ∧ r' = .ok (v.relabel μ.toRelabelling)) ∨
      (r = .error (Frames.undefined ref.word) ∧
        r' = .error (Frames.undefined (ref.relabel μ.toRelabelling).word))) →
    Mirrors μ (Value.relabel μ.toRelabelling) (ofExcept r) (ofExcept r') m := by
  rintro (⟨v, rfl, rfl⟩ | ⟨rfl, rfl⟩)
  · exact mirrors_pure rfl
  · exact mirrors_undefined (hasked rfl)

theorem mirrors_readVariable
    (hasked : readVariable ref m = .error (.error (Frames.undefined ref.word)) m → μ.asked ref) :
    Mirrors μ (Value.relabel μ.toRelabelling) (readVariable ref)
      (readVariable (ref.relabel μ.toRelabelling)) m := by
  unfold readVariable at hasked
  unfold Mirrors readVariable
  rw [hops?_mirror h]
  cases hbound : m.bindings.hops? ref.id with
  | none =>
    rw [hbound] at hasked
    exact mirrors_ofExcept hasked (m.frames.getGlobal_relabel μ.toRelabelling μ.frames m.globals
      (h.outermost hbound))
  | some hops =>
    rw [hbound] at hasked
    exact mirrors_ofExcept hasked (m.frames.getAt_relabel μ.toRelabelling μ.frames hops m.current
      fun f => h.outward hops f hbound)

omit h in
/-- What is left of an assignment once it is known whether there is such a variable. -/
theorem mirrored_assigned {r r' : Except RunError Frames} :
    (r = .error (Frames.undefined ref.word) → μ.asked ref) →
    ((∃ fs, r = .ok fs ∧ r' = .ok (fs.relabel μ.toRelabelling μ.frames)) ∨
      (r = .error (Frames.undefined ref.word) ∧
        r' = .error (Frames.undefined (ref.relabel μ.toRelabelling).word))) →
    Mirrored μ (id : Unit → Unit)
      (match r with
        | .ok frames => .ok () { m with frames }
        | .error e => .error (.error e) m)
      (match r' with
        | .ok frames => .ok () { m.mirror μ with frames }
        | .error e => .error (.error e) (m.mirror μ)) := by
  rintro hasked (⟨fs, rfl, rfl⟩ | ⟨rfl, rfl⟩)
  · rfl
  · exact mirrors_undefined (hasked rfl)

theorem mirrors_assignVariable (v : Value)
    (hasked : assignVariable ref v m = .error (.error (Frames.undefined ref.word)) m →
      μ.asked ref) :
    Mirrors μ id (assignVariable ref v)
      (assignVariable (ref.relabel μ.toRelabelling) (v.relabel μ.toRelabelling)) m := by
  unfold assignVariable at hasked
  unfold Mirrors assignVariable
  rw [hops?_mirror h]
  cases hbound : m.bindings.hops? ref.id with
  | none =>
    rw [hbound] at hasked
    refine mirrored_assigned (fun hr => hasked ?_) (m.frames.assignGlobal_relabel μ.toRelabelling
      μ.frames m.globals v (h.outermost hbound))
    dsimp only at hr ⊢
    rw [hr]
  | some hops =>
    rw [hbound] at hasked
    refine mirrored_assigned (fun hr => hasked ?_) (m.frames.assignAt_relabel μ.toRelabelling
      μ.frames hops m.current v fun f => h.outward hops f hbound)
    dsimp only at hr ⊢
    rw [hr]

theorem mirrors_superclassOf
    (hasked : superclassOf ref m = .error (.error (Frames.undefined ref.word)) m → μ.asked ref) :
    Mirrors μ (Class.relabel μ.toRelabelling) (superclassOf ref)
      (superclassOf (ref.relabel μ.toRelabelling)) m := by
  refine mirrors_bind (mirrors_readVariable h fun hread => hasked (bind_of_error hread))
    fun v m₁ _ => ?_
  cases v with
  | callable c =>
    cases c with
    | «class» c => exact mirrors_pure rfl
    | function f => exact ⟨_, .same, rfl⟩
    | native n => exact ⟨_, .same, rfl⟩
  | _ => exact ⟨_, .same, rfl⟩

theorem mirrors_superMethod (method : Lexeme)
    (hasked : superMethod ref method m = .error (.error (Frames.undefined ref.word)) m →
      μ.asked ref) :
    Mirrors μ (Value.relabel μ.toRelabelling) (superMethod ref method)
      (superMethod (ref.relabel μ.toRelabelling) method) m := by
  unfold superMethod at hasked
  unfold Mirrors superMethod
  rw [hops?_mirror h]
  cases hbound : m.bindings.hops? ref.id with
  | none =>
    rw [hbound] at hasked
    exact mirrors_undefined (hasked rfl)
  | some hops =>
    have hsuper := m.mirror_nameAt? μ hops m.current μ.super_eq
    have hcurrent : (m.mirror μ).current = m.current := rfl
    rw [hbound] at hasked
    dsimp only at hasked ⊢
    rw [hcurrent, hsuper]
    cases hfound : m.frames.nameAt? hops m.current "super" with
    | none =>
      rw [hfound] at hasked
      exact mirrors_undefined (hasked rfl)
    | some v =>
      cases v with
      | callable c =>
        cases c with
        | «class» c =>
          have hmethod := c.findMethod_relabel μ.toRelabelling method.text
          dsimp only [Option.map, Value.relabel, Callable.relabel]
          rw [hmethod]
          cases c.findMethod method.text with
          | none => exact ⟨_, .same, rfl⟩
          | some f =>
            have hself := m.mirror_thisInside μ hops
            have hbind : Mirrors μ (Value.relabel μ.toRelabelling)
                (do return .callable (.function (← bindThis f (m.thisInside hops))))
                (do return .callable (.function (← bindThis (f.relabel μ.toRelabelling)
                  ((m.mirror μ).thisInside hops)))) m := by
              rw [hself]
              exact mirrors_boundMethod f _
            cases hops with
            | zero => exact hbind
            | succ hops => exact hbind
        | function f =>
          rw [hfound] at hasked
          exact mirrors_undefined (hasked rfl)
        | native n =>
          rw [hfound] at hasked
          exact mirrors_undefined (hasked rfl)
      | _ =>
        rw [hfound] at hasked
        exact mirrors_undefined (hasked rfl)

end References

theorem mirrors_declareClass {μ : Mirror} {m : Machine} {name : Lexeme} {superclass : Option Ref}
    (members : List Method) (hname : μ.frames m.current name.text = name.text)
    (h : ∀ ref, superclass = some ref → μ.Knows ref m)
    (hasked : ∀ ref, superclass = some ref → declareClass name superclass members m =
      .error (.error (Frames.undefined ref.word)) m → μ.asked ref) :
    Mirrors μ id (declareClass name superclass members)
      (declareClass name (superclass.map (Ref.relabel μ.toRelabelling))
        (Method.relabelAll μ.toRelabelling members)) m := by
  have hparent : Mirrors μ (Option.map (Class.relabel μ.toRelabelling)) (parentOf superclass)
      (parentOf (superclass.map (Ref.relabel μ.toRelabelling))) m := by
    cases superclass with
    | none => exact mirrors_pure rfl
    | some ref =>
      refine mirrors_map (mirrors_superclassOf (h ref rfl) fun hc => hasked ref rfl ?_) fun _ => rfl
      rw [declareClass_eq]
      exact bind_of_error (map_of_error hc)
  rw [declareClass_eq, declareClass_eq]
  refine mirrors_bind hparent fun parent m₁ hm₁ => ?_
  obtain ⟨rfl, -⟩ := parentOf_ok hm₁
  exact mirrors_finishClass members parent hname

/-! ## Instances -/

section Instances

variable {μ : Mirror} {m : Machine}

theorem mirrors_getOf (v : Value) (property : Lexeme) :
    Mirrors μ (Value.relabel μ.toRelabelling) (getOf v property)
      (getOf (v.relabel μ.toRelabelling) property) m := by
  cases v with
  | «instance» i =>
    have hfield : Mirrors μ (Option.map (Value.relabel μ.toRelabelling)) (field? i property.text)
        (field? (i.relabel μ.toRelabelling) property.text) m :=
      mirrors_of_eq rfl rfl (m.mirror_field? μ i property.text) rfl
    refine mirrors_bind hfield fun found m₁ _ => ?_
    cases found with
    | some w => exact mirrors_pure rfl
    | none =>
      have hmethod : (i.relabel μ.toRelabelling).ofClass.findMethod property.text =
          (i.ofClass.findMethod property.text).map (Function.relabel μ.toRelabelling) :=
        i.ofClass.findMethod_relabel μ.toRelabelling property.text
      simp only [Option.map_none, hmethod]
      cases i.ofClass.findMethod property.text with
      | none => exact ⟨_, .same, rfl⟩
      | some f => exact mirrors_boundMethod f (.instance i)
  | _ => exact ⟨_, .same, rfl⟩

theorem mirrors_instanceOf (v : Value) (property : Lexeme) :
    Mirrors μ (Instance.relabel μ.toRelabelling) (instanceOf v property)
      (instanceOf (v.relabel μ.toRelabelling) property) m := by
  cases v with
  | «instance» i => exact mirrors_pure rfl
  | _ => exact ⟨_, .same, rfl⟩

theorem mirrors_setField (i : Instance) (property : Lexeme) (v : Value) :
    Mirrors μ id (setField i property v)
      (setField (i.relabel μ.toRelabelling) property (v.relabel μ.toRelabelling)) m := by
  have hfields : (m.fields.map (·.relabel (Equiv.refl String) (Value.relabel μ.toRelabelling))).modify
        i.id (·.set property.text (v.relabel μ.toRelabelling)) =
      (m.fields.modify i.id (·.set property.text v)).map
        (·.relabel (Equiv.refl String) (Value.relabel μ.toRelabelling)) := by
    refine Array.ext_getElem? fun j => ?_
    rw [Array.getElem?_modify, Array.getElem?_map, Array.getElem?_map, Array.getElem?_modify]
    by_cases hj : i.id = j
    · rw [if_pos hj, if_pos hj]
      cases m.fields[j]? with
      | none => rfl
      | some slots =>
        have hset := slots.relabel_set (Equiv.refl String) (Value.relabel μ.toRelabelling)
          property.text v
        exact congrArg some hset.symm
    · rw [if_neg hj, if_neg hj]
  refine mirrors_of_eq rfl rfl rfl ?_
  unfold Machine.mirror
  dsimp only
  rw [← hfields]
  rfl

end Instances

/-! ## Calls -/

section Calls

variable {μ : Mirror} {m : Machine} {n : Nat}

theorem mirrors_callFunction {f : Function} {arguments : List Value}
    (hframe : μ.frames m.frames.nextId = μ.names (.routine f.routine))
    (h : Mirrors μ (Value.relabel μ.toRelabelling) (runBody n f.routine.body)
      (runBody n (f.relabel μ.toRelabelling).routine.body) (m.inCall f arguments)) :
    Mirrors μ (Value.relabel μ.toRelabelling) (callFunction (runBody n) f arguments)
      (callFunction (runBody n) (f.relabel μ.toRelabelling)
        (arguments.map (Value.relabel μ.toRelabelling))) m := by
  refine mirrors_bind (mirrors_newFrame f.closure) fun frame m₁ hm₁ => ?_
  cases hm₁
  have harguments : Mirrors μ (id : Unit → Unit)
      (fun m' => .ok () { m' with
        frames := m'.frames.defineAll m.frames.nextId (f.routine.params.map (·.text)) arguments })
      (fun m' => .ok () { m' with
        frames := m'.frames.defineAll m.frames.nextId
          ((f.relabel μ.toRelabelling).routine.params.map (·.text))
          (arguments.map (Value.relabel μ.toRelabelling)) })
      { m with frames := m.frames.push (some f.closure) } := by
    refine mirrors_of_eq rfl rfl rfl ?_
    unfold Machine.mirror
    rw [Frames.relabel_defineAll, Function.params_relabel, hframe]
  refine mirrors_bind harguments fun _ m₂ hm₂ => ?_
  cases hm₂
  refine mirrors_bind (mirrors_within h) fun result m₃ _ => ?_
  change Mirrors μ _ _ (if f.isInitializer then _ else _) m₃
  cases f.isInitializer with
  | false => exact mirrors_pure rfl
  | true =>
    have hthis := m₃.mirror_nameAt? μ 0 f.closure μ.this_eq
    refine mirrors_of_eq rfl rfl ?_ rfl
    exact (congrArg (Option.getD · .nil) hthis).trans (Value.getD_relabel ..)

theorem mirrors_construct {c : Class} {arguments : List Value}
    (h : ∀ f g m₁, c.initializer? = some f →
      bindThis f (.instance (m.nextInstance c)) m.withInstance = .ok g m₁ →
      Mirrors μ (Value.relabel μ.toRelabelling) (callFunction (runBody n) g arguments)
        (callFunction (runBody n) (g.relabel μ.toRelabelling)
          (arguments.map (Value.relabel μ.toRelabelling))) m₁) :
    Mirrors μ (Value.relabel μ.toRelabelling) (construct (runBody n) c arguments)
      (construct (runBody n) (c.relabel μ.toRelabelling)
        (arguments.map (Value.relabel μ.toRelabelling))) m := by
  have hnew : Mirrors μ (Instance.relabel μ.toRelabelling) (newInstance c)
      (newInstance (c.relabel μ.toRelabelling)) m :=
    mirrors_of_eq rfl rfl (m.mirror_nextInstance μ c) (m.mirror_withInstance μ)
  refine mirrors_bind hnew fun i m₁ hm₁ => ?_
  cases hm₁
  have hinit : (c.relabel μ.toRelabelling).initializer? =
      c.initializer?.map (Function.relabel μ.toRelabelling) := c.findMethod_relabel ..
  rw [hinit]
  cases hf : c.initializer? with
  | none => exact mirrors_pure rfl
  | some f =>
    refine mirrors_bind (mirrors_bindThis f (.instance (m.nextInstance c))) fun g m₂ hg => ?_
    exact mirrors_bind (h f g m₂ hf hg) fun _ m₃ _ => mirrors_pure rfl

theorem mirrors_callValue {v : Value} {arguments : List Value} {closing : Lexeme}
    (h : ∀ c, v = .callable c → arguments.length = c.arity → m.depth < m.maxDepth →
      Mirrors μ (Value.relabel μ.toRelabelling) (invokeWith n c arguments)
        (invokeWith n (c.relabel μ.toRelabelling) (arguments.map (Value.relabel μ.toRelabelling)))
        m.deeper) :
    Mirrors μ (Value.relabel μ.toRelabelling) (callValue (invokeWith n) v arguments closing)
      (callValue (invokeWith n) (v.relabel μ.toRelabelling)
        (arguments.map (Value.relabel μ.toRelabelling)) closing) m := by
  cases v with
  | callable c =>
    have harity := c.arity_relabel μ.toRelabelling
    have hdisplay := c.display_relabel μ.toRelabelling
    change Mirrors μ _ _ (callValue (invokeWith n) (.callable (c.relabel μ.toRelabelling)) _ closing)
      m
    unfold callValue
    dsimp only
    rw [harity, hdisplay, List.length_map]
    by_cases hcount : arguments.length = c.arity
    · simp only [hcount, ne_eq, not_true_eq_false, if_false]
      exact mirrors_deeper fun hdepth => h c rfl hcount hdepth
    · simp only [ne_eq, hcount, not_false_eq_true, if_true]
      exact mirrors_fail nofun
  | _ => exact ⟨_, .same, rfl⟩

end Calls

end Eval

/-! ## Tasks -/

section Tasks

variable (R : Relabelling) (π : Equiv.Perm String)

/-- The way a statement ends, with other labels. -/
def Flow.relabel : Flow → Flow
  | returned v => returned (v.relabel R)
  | flow => flow

theorem Flow.result_relabel (flow : Flow) : (flow.relabel R).result = flow.result.relabel R := by
  cases flow <;> rfl

/-- The task with other labels, in a frame whose variables have the names `π`. -/
def Task.relabel : Task → Task
  | expression e => expression (e.relabel R)
  | expressions es => expressions (Expr.relabelAll R es)
  | statement s => statement (s.relabel R π)
  | statements body => statements (Stmt.relabelAll R π body)
  | declarators ds => declarators (Declarator.relabelAll R π ds)
  | loop condition body rounds => loop (condition.relabel R) (body.relabel R π) rounds
  | topLevel body => topLevel (Stmt.relabelAll R π body)
  | apply c arguments => apply (c.relabel R) (arguments.map (Value.relabel R))
  | call f arguments => call (f.relabel R) (arguments.map (Value.relabel R))
  | bind f self => bind (f.relabel R) (self.relabel R)

/-- What the task leads to, with other labels. -/
def Task.relabelResult : (t : Task) → t.Result → (t.relabel R π).Result
  | expression _, v => v.relabel R
  | expressions _, vs => vs.map (Value.relabel R)
  | statement _, flow => flow.relabel R
  | statements _, flow => flow.relabel R
  | declarators _, u => u
  | loop _ _ _, flow => flow.relabel R
  | topLevel _, u => u
  | apply _ _, v => v.relabel R
  | call _ _, v => v.relabel R
  | bind _ _, f => f.relabel R

end Tasks

/-- At the moment, a function or class of that name is declared. -/
inductive Moment.Names : Moment → String → Prop
  | function {n name routine m} : Names ⟨n, .statement (.function name routine), m⟩ name.text
  | class {n name superclass members m} :
    Names ⟨n, .statement (.class name superclass members), m⟩ name.text

/-- At the moment, the reference asks for a variable that is not there. -/
structure Moment.Asks (N : Moment) (ref : Ref) : Prop where
  lookup : ∃ m, N.LooksUp ref m
  ending : ∃ m, N.ending = .error (.error (Frames.undefined ref.word)) m

/-- The labels of the other run fit together at the moment. -/
structure Moment.Conforms (μ : Mirror) (N : Moment) : Prop where
  knows : ∀ ref m, N.LooksUp ref m → μ.Knows ref m
  asks : ∀ ref, N.Asks ref → μ.asked ref
  frame : ∀ f site, N.Activates f site → μ.frames f = μ.names site
  keeps : ∀ name, N.Names name → μ.frames N.machine.current name = name

/-- What is evaluated at the moment is mirrored, in a frame whose variables have the names `π`. -/
def Moment.MirroredAt (μ : Mirror) (π : Equiv.Perm String) (M : Moment) : Prop :=
  Eval.Mirrors μ (M.task.relabelResult μ.toRelabelling π) (M.task.perform M.fuel)
    ((M.task.relabel μ.toRelabelling π).perform M.fuel) M.machine

/-- What is evaluated at the moment is mirrored. -/
def Moment.Mirrored (μ : Mirror) (M : Moment) : Prop :=
  M.MirroredAt μ (μ.frames M.machine.current)

theorem Moment.Mirrored.at {μ : Mirror} {M : Moment} {π : Equiv.Perm String} (h : M.Mirrored μ)
    (hπ : μ.frames M.machine.current = π) : M.MirroredAt μ π := hπ ▸ h

namespace Eval

section Tasks

variable {n : Nat} {m : Machine} {μ : Mirror}

theorem mirrored_expression (e : Expr) (hself : Moment.Conforms μ ⟨n, .expression e, m⟩)
    (ih : ∀ N, Part ⟨n, .expression e, m⟩ N → N.Mirrored μ) :
    Mirrors μ (Value.relabel μ.toRelabelling) (expression (.ofFuel n) e)
      (expression (.ofFuel n) (e.relabel μ.toRelabelling)) m := by
  cases e with
  | literal value => exact mirrors_pure (Literal.relabel_value _ value).symm
  | «variable» ref =>
    exact mirrors_readVariable (hself.knows ref m .variable) fun hread =>
      hself.asks ref ⟨⟨m, .variable⟩, m, hread⟩
  | assign ref value =>
    refine mirrors_bind (ih _ .assignValue) fun v m₁ hvalue => ?_
    have hassign := mirrors_assignVariable (hself.knows ref m₁ (.assign hvalue)) v fun hfails =>
      hself.asks ref ⟨⟨m₁, .assign hvalue⟩, m₁, (bind_of_ok hvalue).trans (bind_of_error hfails)⟩
    exact mirrors_bind hassign fun _ m₂ _ => mirrors_pure rfl
  | unary op sign operand =>
    refine mirrors_bind (ih _ .unaryOperand) fun v m₁ _ => ?_
    exact mirrors_ofOperator (op.apply_relabel _ v) (op.apply_ne_undefined v)
  | binary op sign left right =>
    refine mirrors_bind (ih _ .binaryLeft) fun v m₁ hleft => ?_
    refine mirrors_bind (ih _ (.binaryRight hleft)) fun w m₂ _ => ?_
    exact mirrors_ofOperator (op.apply_relabel _ v w) (op.apply_ne_undefined v w)
  | logical op sign left right =>
    refine mirrors_bind (ih _ .logicalLeft) fun v m₁ hleft => ?_
    exact mirrors_ite (op.decides_relabel _ v) (fun _ => mirrors_pure rfl)
      fun hdecides => ih _ (.logicalRight hleft hdecides)
  | comma left right =>
    exact mirrors_bind (ih _ .commaLeft) fun v m₁ hleft => ih _ (.commaRight hleft)
  | conditional condition whenTrue whenFalse =>
    refine mirrors_bind (ih _ .condition) fun v m₁ hcondition => ?_
    exact mirrors_ite (v.isTruthy_relabel _) (fun hv => ih _ (.whenTrue hcondition hv))
      fun hv => ih _ (.whenFalse hcondition hv)
  | grouping inner => exact ih _ .grouping
  | call callee arguments closing =>
    refine mirrors_bind (ih _ .callee) fun v m₁ hcallee => ?_
    refine mirrors_bind (ih _ (.arguments hcallee)) fun vs m₂ harguments => ?_
    refine mirrors_callValue fun c hc harity hdepth => ?_
    subst hc
    exact ih _ (.apply hcallee harguments harity hdepth)
  | get object property =>
    exact mirrors_bind (ih _ .getObject) fun v m₁ _ => mirrors_getOf v property
  | set object property value =>
    refine mirrors_bind (ih _ .setObject) fun v m₁ hobject => ?_
    refine mirrors_bind (mirrors_instanceOf v property) fun i m₂ hi => ?_
    obtain ⟨rfl, rfl⟩ := instanceOf_ok hi
    refine mirrors_bind (ih _ (.setValue hobject)) fun w m₃ _ => ?_
    exact mirrors_bind (mirrors_setField i property w) fun _ m₄ _ => mirrors_pure rfl
  | this ref =>
    exact mirrors_readVariable (hself.knows ref m .this) fun hread =>
      hself.asks ref ⟨⟨m, .this⟩, m, hread⟩
  | super ref method =>
    exact mirrors_superMethod (hself.knows ref m .super) method fun hfails =>
      hself.asks ref ⟨⟨m, .super⟩, m, hfails⟩
  | function routine =>
    rw [Expr.relabel_function]
    exact mirrors_declaredFunction none routine

theorem mirrored_expressions (es : List Expr)
    (ih : ∀ N, Part ⟨n, .expressions es, m⟩ N → N.Mirrored μ) :
    Mirrors μ (List.map (Value.relabel μ.toRelabelling)) (expressions (.ofFuel n) es)
      (expressions (.ofFuel n) (Expr.relabelAll μ.toRelabelling es)) m := by
  cases es with
  | nil => exact mirrors_pure rfl
  | cons e es =>
    refine mirrors_bind (ih _ .first) fun v m₁ hfirst => ?_
    exact mirrors_bind (ih _ (.others hfirst)) fun vs m₂ _ => mirrors_pure rfl

theorem mirrored_statement (s : Stmt) (hself : Moment.Conforms μ ⟨n, .statement s, m⟩)
    (ih : ∀ N, Part ⟨n, .statement s, m⟩ N → N.Mirrored μ) :
    Mirrors μ (Flow.relabel μ.toRelabelling) (statement (.ofFuel n) s)
      (statement (.ofFuel n) (s.relabel μ.toRelabelling (μ.frames m.current))) m := by
  cases s with
  | expression e => exact mirrors_bind (ih _ .evaluated) fun v m₁ _ => mirrors_pure rfl
  | print e =>
    refine mirrors_bind (ih _ .printed) fun v m₁ _ => ?_
    have hprint : Mirrors μ id (println v.display)
        (println (v.relabel μ.toRelabelling).display) m₁ := by
      rw [Value.display_relabel]
      exact mirrors_of_eq rfl rfl rfl rfl
    exact mirrors_bind hprint fun _ m₂ _ => mirrors_pure rfl
  | vars ds => exact mirrors_bind (ih _ .declared) fun _ m₁ _ => mirrors_pure rfl
  | block body =>
    have hbody := (ih _ .block).at (hself.frame _ _ .block)
    have hcurrent : Mirrors μ id current current m := mirrors_of_eq rfl rfl rfl rfl
    refine mirrors_bind hcurrent fun f m₁ hm₁ => ?_
    cases hm₁
    refine mirrors_bind (mirrors_newFrame m.current) fun frame m₁ hm₁ => ?_
    cases hm₁
    exact mirrors_within hbody
  | ifElse condition whenTrue whenFalse =>
    cases whenFalse with
    | none =>
      refine mirrors_bind (ih _ .choice) fun v m₁ hcondition => ?_
      have hcurrent : μ.frames m₁.current = μ.frames m.current :=
        congrArg μ.frames (grows_of_expression hcondition).current
      exact mirrors_ite (v.isTruthy_relabel _)
        (fun hv => (ih _ (.chosen hcondition hv)).at hcurrent) fun _ => mirrors_pure rfl
    | some whenFalse =>
      refine mirrors_bind (ih _ .choice) fun v m₁ hcondition => ?_
      have hcurrent : μ.frames m₁.current = μ.frames m.current :=
        congrArg μ.frames (grows_of_expression hcondition).current
      exact mirrors_ite (v.isTruthy_relabel _)
        (fun hv => (ih _ (.chosen hcondition hv)).at hcurrent)
        fun hv => (ih _ (.alternative hcondition hv)).at hcurrent
  | whileLoop condition body => exact ih _ .loop
  | breakLoop keyword => exact mirrors_pure rfl
  | returnFrom keyword value =>
    cases value with
    | none => exact mirrors_pure rfl
    | some e => exact mirrors_bind (ih _ .returned) fun v m₁ _ => mirrors_pure rfl
  | function name routine =>
    rw [Stmt.relabel_function]
    refine mirrors_bind (mirrors_declaredFunction (some name.text) routine) fun v m₁ hm₁ => ?_
    cases hm₁
    refine mirrors_bind (mirrors_define _ ?_) fun _ m₂ _ => mirrors_pure rfl
    exact hself.keeps _ .function
  | «class» name superclass members =>
    have hsuperclass (ref : Ref) (href : superclass = some ref) : μ.Knows ref m := by
      subst href
      exact hself.knows ref m .superclass
    have hasked (ref : Ref) (href : superclass = some ref) (hfails : declareClass name superclass
        members m = .error (.error (Frames.undefined ref.word)) m) : μ.asked ref := by
      subst href
      exact hself.asks ref ⟨⟨m, .superclass⟩, m, bind_of_error hfails⟩
    have hclass := mirrors_declareClass members (hself.keeps _ .class) hsuperclass hasked
    exact mirrors_bind hclass fun _ m₁ _ => mirrors_pure rfl

theorem mirrored_statements (body : List Stmt)
    (ih : ∀ N, Part ⟨n, .statements body, m⟩ N → N.Mirrored μ) :
    Mirrors μ (Flow.relabel μ.toRelabelling) (statements (.ofFuel n) body)
      (statements (.ofFuel n) (Stmt.relabelAll μ.toRelabelling (μ.frames m.current) body)) m := by
  cases body with
  | nil => exact mirrors_pure rfl
  | cons s rest =>
    refine mirrors_bind (ih _ .head) fun flow m₁ hhead => ?_
    cases flow with
    | normal =>
      exact (ih _ (.tail hhead)).at (congrArg μ.frames (grows_of_statement hhead).current)
    | broken => exact mirrors_pure rfl
    | returned v => exact mirrors_pure rfl

theorem mirrored_declarators (ds : List Declarator)
    (ih : ∀ N, Part ⟨n, .declarators ds, m⟩ N → N.Mirrored μ) :
    Mirrors μ id (declarators (.ofFuel n) ds)
      (declarators (.ofFuel n) (Declarator.relabelAll μ.toRelabelling (μ.frames m.current) ds))
      m := by
  cases ds with
  | nil => exact mirrors_pure rfl
  | cons d rest =>
    obtain ⟨name, initializer⟩ := d
    cases initializer with
    | none =>
      refine mirrors_bind (mirrors_define .nil rfl) fun _ m₁ hm₁ => ?_
      cases hm₁
      exact ih _ .afterName
    | some e =>
      refine mirrors_bind (ih _ .initializer) fun v m₁ he => ?_
      have hcurrent : μ.frames m₁.current = μ.frames m.current :=
        congrArg μ.frames (grows_of_expression he).current
      refine mirrors_bind (mirrors_define v (congrArg (· name.text) hcurrent)) fun _ m₂ hm₂ => ?_
      cases hm₂
      exact (ih _ (.afterInitializer he)).at hcurrent

theorem mirrored_loop (condition : Expr) (body : Stmt) (rounds : Nat)
    (ih : ∀ N, Part ⟨n, .loop condition body rounds, m⟩ N → N.Mirrored μ) :
    Mirrors μ (Flow.relabel μ.toRelabelling) (Task.perform n (.loop condition body rounds))
      (Task.perform n (.loop (condition.relabel μ.toRelabelling)
        (body.relabel μ.toRelabelling (μ.frames m.current)) rounds)) m := by
  cases rounds with
  | zero => exact mirrors_outOfFuel
  | succ k =>
    refine mirrors_bind (ih _ .roundCondition) fun v m₁ hcondition => ?_
    have hcurrent : μ.frames m₁.current = μ.frames m.current :=
      congrArg μ.frames (grows_of_expression hcondition).current
    refine mirrors_ite (v.isTruthy_relabel _) (fun hv => ?_) fun _ => mirrors_pure rfl
    refine mirrors_bind ((ih _ (.roundBody hcondition hv)).at hcurrent) fun flow m₂ hround => ?_
    cases flow with
    | normal =>
      refine (ih _ (.nextRound hcondition hv hround)).at ?_
      exact (congrArg μ.frames (grows_of_statement hround).current).trans hcurrent
    | broken => exact mirrors_pure rfl
    | returned w => exact mirrors_pure rfl

theorem mirrored_topLevel (body : List Stmt)
    (ih : ∀ N, Part ⟨n, .topLevel body, m⟩ N → N.Mirrored μ) :
    Mirrors μ id (topLevel (.ofFuel n) body)
      (topLevel (.ofFuel n) (Stmt.relabelAll μ.toRelabelling (μ.frames m.current) body)) m := by
  cases body with
  | nil => exact mirrors_pure rfl
  | cons s rest =>
    refine mirrors_bind (ih _ .topHead) fun flow m₁ hhead => ?_
    exact (ih _ (.topTail hhead)).at (congrArg μ.frames (grows_of_statement hhead).current)

theorem mirrored_apply (c : Callable) (arguments : List Value)
    (ih : ∀ N, Part ⟨n, .apply c arguments, m⟩ N → N.Mirrored μ) :
    Mirrors μ (Value.relabel μ.toRelabelling) (invokeWith n c arguments)
      (invokeWith n (c.relabel μ.toRelabelling) (arguments.map (Value.relabel μ.toRelabelling)))
      m := by
  cases n with
  | zero => exact mirrors_outOfFuel
  | succ k =>
    cases c with
    | function f => exact ih _ .function
    | native g =>
      cases g
      exact mirrors_of_eq rfl rfl rfl rfl
    | «class» d => exact mirrors_construct fun f g m₁ hf hg => ih _ (.constructCall hf hg)

theorem mirrored_call (f : Function) (arguments : List Value)
    (hself : Moment.Conforms μ ⟨n, .call f arguments, m⟩)
    (ih : ∀ N, Part ⟨n, .call f arguments, m⟩ N → N.Mirrored μ) :
    Mirrors μ (Value.relabel μ.toRelabelling) (callFunction (runBody n) f arguments)
      (callFunction (runBody n) (f.relabel μ.toRelabelling)
        (arguments.map (Value.relabel μ.toRelabelling))) m := by
  have hframe := hself.frame _ _ .call
  refine mirrors_callFunction hframe ?_
  refine mirrors_bind ((ih _ .body).at hframe) fun flow m₁ _ => ?_
  exact mirrors_pure (flow.result_relabel _)

end Tasks

end Eval

/-- **Evaluation under other labels.** If the labels of the other run fit together at every moment
that a moment leads to, then what is evaluated is mirrored. -/
theorem Moment.mirrored_of_conforms {μ : Mirror} (M : Moment)
    (h : ∀ N, ReflTransGen Part M N → N.Conforms μ) : M.Mirrored μ := by
  let C (M : Moment) : Prop := (∀ N, ReflTransGen Part M N → N.Conforms μ) → M.Mirrored μ
  refine M.induction (C := C) (fun M ih h => ?_) h
  have hself : M.Conforms μ := h M .refl
  have hparts (N : Moment) (hN : Part M N) : N.Mirrored μ :=
    ih N hN fun N' hN' => h N' (.head hN hN')
  obtain ⟨n, t, m⟩ := M
  cases t with
  | expression e => exact Eval.mirrored_expression e hself hparts
  | expressions es => exact Eval.mirrored_expressions es hparts
  | statement s => exact Eval.mirrored_statement s hself hparts
  | statements body => exact Eval.mirrored_statements body hparts
  | declarators ds => exact Eval.mirrored_declarators ds hparts
  | loop condition body rounds => exact Eval.mirrored_loop condition body rounds hparts
  | topLevel body => exact Eval.mirrored_topLevel body hparts
  | apply c arguments => exact Eval.mirrored_apply c arguments hparts
  | call f arguments => exact Eval.mirrored_call f arguments hself hparts
  | bind f self => exact Eval.mirrors_bindThis f self

end ScriptLang
