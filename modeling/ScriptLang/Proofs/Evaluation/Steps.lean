import ScriptLang.Proofs.Evaluation.Moments
import ScriptLang.Proofs.Frames.Store

/-!
# The steps of the machine

What the parts of evaluation that make frames, functions, classes and instances leave
behind, one equation or rule for each. A rule about a computation that contains a part of
evaluation (`call`, `construct`) says how its end follows from the ends of
the parts.
-/

namespace ScriptLang.Eval

variable {α : Type} {m : Machine}

/-! ## Variables -/

theorem ofExcept_eq_ok {r : Except RunError α} {a : α} {m' : Machine}
    (h : ofExcept r m = .ok a m') : r = .ok a ∧ m' = m := by
  cases r with
  | ok b =>
    cases h
    exact ⟨rfl, rfl⟩
  | error e => cases h

/-- What is read stands in some frame, and reading changes nothing. -/
theorem readVariable_ok {ref : Ref} {v : Value} {m' : Machine}
    (h : readVariable ref m = .ok v m') :
    m' = m ∧ ∃ f, m.frames.here? f ref.word.text = some v := by
  unfold readVariable at h
  split at h
  · obtain ⟨hr, hm⟩ := ofExcept_eq_ok h
    obtain ⟨f, -, hf⟩ := Frames.getAt_eq_ok hr
    exact ⟨hm, f, hf⟩
  · obtain ⟨hr, hm⟩ := ofExcept_eq_ok h
    exact ⟨hm, _, Frames.getGlobal_eq_ok hr⟩

theorem ofExcept_eq_error {r : Except RunError α} {stop : Abort} {m' : Machine}
    (h : ofExcept r m = .error stop m') : m' = m ∧ ∃ e, stop = .error e := by
  cases r with
  | ok b => cases h
  | error e =>
    cases h
    exact ⟨rfl, e, rfl⟩

theorem readVariable_error {ref : Ref} {stop : Abort} {m' : Machine}
    (h : readVariable ref m = .error stop m') : m' = m ∧ ∃ e, stop = .error e := by
  unfold readVariable at h
  split at h <;> exact ofExcept_eq_error h

theorem ends_readVariable {ref : Ref} {ok : Value → Machine → Prop}
    {stopped : Abort → Machine → Prop}
    (hok : ∀ v f, m.frames.here? f ref.word.text = some v → ok v m)
    (herror : ∀ e, stopped (.error e) m) : Ends (readVariable ref) m ok stopped := by
  refine ends_of (fun v m' h => ?_) (fun stop m' h => ?_)
  · obtain ⟨rfl, f, hf⟩ := readVariable_ok h
    exact hok v f hf
  · obtain ⟨rfl, e, rfl⟩ := readVariable_error h
    exact herror e

/-- An assignment that succeeds gives a new value to a variable that was there. -/
theorem ends_assignVariable {ref : Ref} {v : Value} {ok : Unit → Machine → Prop}
    {stopped : Abort → Machine → Prop}
    (hok : ∀ f, (m.frames.here? f ref.word.text).isSome →
      ok () { m with frames := m.frames.define f ref.word.text v })
    (herror : ∀ e, stopped (.error e) m) : Ends (assignVariable ref v) m ok stopped := by
  unfold Ends assignVariable
  cases hhops : m.bindings.hops? ref.id with
  | some hops =>
    cases hr : m.frames.assignAt hops m.current ref.word v with
    | ok frames =>
      obtain ⟨g, -, hg, rfl⟩ := Frames.assignAt_eq_ok hr
      simp only [hr]
      exact hok g hg
    | error e =>
      simp only [hr]
      exact herror e
  | none =>
    cases hr : m.frames.assignGlobal m.globals ref.word v with
    | ok frames =>
      obtain ⟨g, -, hg, rfl⟩ := Frames.assignAt_eq_ok hr
      exact hok g hg
    | error e => exact herror e

theorem define_eq (name : String) (v : Value) (m : Machine) :
    define name v m = .ok () (m.defining name v) := rfl

theorem isSome_defining (hm : m.current < m.frames.count) (name : String) (v : Value) :
    ((m.defining name v).frames.here? m.current name).isSome := by
  change ((m.frames.define m.current name v).here? m.current name).isSome
  rw [Frames.here?_define_self hm]
  rfl

/-! ## Functions -/

theorem declaredFunction_eq (name : Option String) (routine : Routine) (m : Machine) :
    declaredFunction name routine m =
      .ok (.callable (.function ⟨m.made, name, routine, m.current, false⟩))
        { m with made := m.made + 1 } := rfl

/-- The function that `bindThis` makes. -/
def boundFunction (f : Function) (m : Machine) : Function :=
  ⟨m.made, f.name, f.routine, m.frames.nextId, f.isInitializer⟩

/-- The machine after `bindThis`, which has a frame with `this`. -/
def boundMachine (f : Function) (self : Value) (m : Machine) : Machine :=
  { m with
    frames := (m.frames.push (some f.closure)).define m.frames.nextId "this" self
    made := m.made + 1 }

theorem bindThis_eq (f : Function) (self : Value) (m : Machine) :
    bindThis f self m = .ok (boundFunction f m) (boundMachine f self m) := rfl

theorem ends_bindThis {f : Function} {self : Value} {ok : Function → Machine → Prop}
    {stopped : Abort → Machine → Prop} (h : ok (boundFunction f m) (boundMachine f self m)) :
    Ends (bindThis f self) m ok stopped := h

/-! ## Classes -/

/-- What the methods of a class are made from. -/
structure MadeFrom (closure : FrameId) (members : List Method) (f : Function) : Prop where
  member : ∃ name, ⟨name, f.routine⟩ ∈ members ∧ f.isInitializer = (name.text = "init" : Bool)
  closure : f.closure = closure

theorem makeMethods_eq (closure : FrameId) (members : List Method) (made : Slots Function)
    (m : Machine) :
    ∃ methods k, makeMethods closure members made m = .ok methods { m with made := k } ∧
      m.made ≤ k ∧ ∀ name f, methods.get? name = some f →
        made.get? name = some f ∨ MadeFrom closure members f := by
  induction members generalizing made m with
  | nil => exact ⟨made, m.made, rfl, Nat.le_refl _, fun _ _ h => .inl h⟩
  | cons member members ih =>
    obtain ⟨name, routine⟩ := member
    let f : Function := ⟨m.made, some name.text, routine, closure, name.text = "init"⟩
    obtain ⟨methods, k, heq, hk, hget⟩ :=
      ih (made.set name.text f) { m with made := m.made + 1 }
    refine ⟨methods, k, heq, Nat.le_of_succ_le hk, fun other g hg => ?_⟩
    rcases hget other g hg with h | ⟨⟨name', hmem, hinit⟩, hclosure⟩
    · rw [Slots.get?_set] at h
      split at h
      · cases h
        exact .inr ⟨⟨name, List.mem_cons_self, rfl⟩, rfl⟩
      · exact .inl h
    · exact .inr ⟨⟨name', List.mem_cons_of_mem _ hmem, hinit⟩, hclosure⟩

/-- What makes the frame in which the methods of a class are closed. -/
def methodMachine (m : Machine) : Option Class → Machine
  | none => m
  | some c => { m with
      frames := (m.frames.push (some m.current)).define m.frames.nextId "super"
        (.callable (.class c)) }

/-- The frame in which the methods of a class are closed. -/
def methodClosure (m : Machine) : Option Class → FrameId
  | none => m.current
  | some _ => m.frames.nextId

theorem methodFrame_eq (parent : Option Class) (m : Machine) :
    methodFrame parent m = .ok (methodClosure m parent) (methodMachine m parent) := by
  cases parent <;> rfl

/-- Reading a superclass changes nothing. -/
theorem superclassOf_ok {ref : Ref} {c : Class} {m' : Machine}
    (h : superclassOf ref m = .ok c m') :
    m' = m ∧ readVariable ref m = .ok (.callable (.class c)) m := by
  obtain ⟨v, m₁, hv, hc⟩ := bind_eq_ok h
  obtain ⟨rfl, -⟩ := readVariable_ok hv
  split at hc
  · cases hc
    exact ⟨rfl, hv⟩
  · cases hc


theorem superclassOf_error {ref : Ref} {stop : Abort} {m' : Machine}
    (h : superclassOf ref m = .error stop m') : m' = m ∧ ∃ e, stop = .error e := by
  change (readVariable ref >>= _) m = _ at h
  cases hv : readVariable ref m with
  | ok v m₁ =>
    rw [bind_of_ok hv] at h
    obtain ⟨rfl, -⟩ := readVariable_ok hv
    split at h
    · cases h
    · cases h
      exact ⟨rfl, _, rfl⟩
  | error stop' m₁ =>
    rw [bind_of_error hv] at h
    cases h
    exact readVariable_error hv

/-- The machine after a class was declared: its name is defined twice, with its methods made
in between. -/
def classMachine (name : Lexeme) (parent : Option Class) (methods : Slots Function) (k : Nat)
    (m : Machine) : Machine :=
  { (methodMachine (m.defining name.text .nil) parent).defining name.text
      (.callable (.class ⟨k, name.text, parent, methods⟩)) with made := k + 1 }

/-- What a frame has after a class was declared in the current one. -/
theorem isSome_classMachine {name : Lexeme} {parent : Option Class} {methods : Slots Function}
    {k : Nat} (hm : m.current < m.frames.count) :
    ((classMachine name parent methods k m).frames.here?
      (classMachine name parent methods k m).current name.text).isSome := by
  cases parent with
  | none =>
    refine isSome_defining (m := m.defining name.text .nil) ?_ ..
    change m.current < (m.frames.define m.current name.text .nil).count
    rwa [Frames.count_define]
  | some c =>
    refine isSome_defining (m := methodMachine (m.defining name.text .nil) (some c)) ?_ ..
    change m.current < (((m.frames.define m.current name.text .nil).push
      (some m.current)).define _ "super" _).count
    rw [Frames.count_define, Frames.count_push, Frames.count_define]
    exact Nat.lt_succ_of_lt hm

/-- The superclass that a class declaration names. -/
def parentOf : Option Ref → Eval (Option Class)
  | some ref => some <$> superclassOf ref
  | none => pure none

/-- What is left of a class declaration once its superclass is known. -/
def finishClass (name : Lexeme) (members : List Method) (parent : Option Class) :
    Eval Unit := do
  define name.text .nil
  let frame ← methodFrame parent
  let methods ← makeMethods frame members .empty
  define name.text (.callable (.class ⟨← identity, name.text, parent, methods⟩))

theorem declareClass_eq (name : Lexeme) (superclass : Option Ref) (members : List Method) :
    declareClass name superclass members = parentOf superclass >>= finishClass name members := by
  cases superclass <;> rfl

theorem declareClass_of_parent (name : Lexeme) {superclass : Option Ref}
    (members : List Method) {parent : Option Class}
    (hparent : parentOf superclass m = .ok parent m) :
    ∃ methods k, m.made ≤ k ∧
      declareClass name superclass members m = .ok () (classMachine name parent methods k m) ∧
      ∀ method f, methods.get? method = some f →
        MadeFrom (methodClosure (m.defining name.text .nil) parent) members f := by
  obtain ⟨methods, k, heq, hk, hget⟩ :=
    makeMethods_eq (methodClosure (m.defining name.text .nil) parent) members .empty
      (methodMachine (m.defining name.text .nil) parent)
  have hmade : (methodMachine (m.defining name.text .nil) parent).made = m.made := by
    cases parent <;> rfl
  refine ⟨methods, k, hmade ▸ hk, ?_, fun method f h => ?_⟩
  · rw [declareClass_eq, bind_of_ok hparent]
    change (methodFrame parent >>= fun frame => _) (m.defining name.text .nil) = _
    rw [bind_of_ok (methodFrame_eq ..), bind_of_ok heq]
    rfl
  · rcases hget method f h with h | h
    · rw [Slots.get?_empty] at h
      cases h
    · exact h

theorem parentOf_ok {superclass : Option Ref} {parent : Option Class} {m' : Machine}
    (h : parentOf superclass m = .ok parent m') :
    m' = m ∧ ((superclass = none ∧ parent = none) ∨
      ∃ ref c, superclass = some ref ∧ parent = some c ∧ superclassOf ref m = .ok c m) := by
  cases superclass with
  | none =>
    cases h
    exact ⟨rfl, .inl ⟨rfl, rfl⟩⟩
  | some ref =>
    obtain ⟨c, hc, rfl⟩ := map_eq_ok h
    obtain ⟨rfl, -⟩ := superclassOf_ok hc
    exact ⟨rfl, .inr ⟨ref, c, rfl, rfl, hc⟩⟩

/-- Declaring a class stops before anything was changed, or leaves a class whose methods
are made from its members. -/
theorem ends_declareClass {name : Lexeme} {superclass : Option Ref} {members : List Method}
    {ok : Unit → Machine → Prop} {stopped : Abort → Machine → Prop}
    (hok : ∀ parent methods k, parentOf superclass m = .ok parent m → m.made ≤ k →
      (∀ method f, methods.get? method = some f →
        MadeFrom (methodClosure (m.defining name.text .nil) parent) members f) →
      ok () (classMachine name parent methods k m))
    (herror : ∀ e, stopped (.error e) m) :
    Ends (declareClass name superclass members) m ok stopped := by
  cases hparent : parentOf superclass m with
  | ok parent m' =>
    obtain ⟨rfl, -⟩ := parentOf_ok hparent
    obtain ⟨methods, k, hk, heq, hmethods⟩ :=
      declareClass_of_parent name members hparent
    unfold Ends
    rw [heq]
    exact hok parent methods k hparent hk hmethods
  | error stop m' =>
    cases superclass with
    | none => cases hparent
    | some ref =>
      have hstop : superclassOf ref m = .error stop m' := by
        change EStateM.map some (superclassOf ref) m = _ at hparent
        unfold EStateM.map at hparent
        split at hparent
        · cases hparent
        · rename_i h
          cases hparent
          exact h
      obtain ⟨rfl, e, rfl⟩ := superclassOf_error hstop
      unfold Ends
      rw [declareClass_eq, bind_of_error hparent]
      exact herror e

/-! ## Properties -/

theorem ends_getOf {v : Value} {property : Lexeme} {ok : Value → Machine → Prop}
    {stopped : Abort → Machine → Prop}
    (hfield : ∀ i w, v = .instance i → m.field? i property.text = some w → ok w m)
    (hmethod : ∀ i f, v = .instance i → m.field? i property.text = none →
      i.ofClass.findMethod property.text = some f →
      Ends (bindThis f (.instance i)) m (fun g m' => ok (.callable (.function g)) m') stopped)
    (herror : ∀ e, stopped (.error e) m) : Ends (getOf v property) m ok stopped := by
  cases v with
  | «instance» i =>
    have hread : field? i property.text m = .ok (m.field? i property.text) m := rfl
    change Ends (getProperty i property) m ok stopped
    unfold getProperty
    refine ends_bind_of_ok hread ?_
    cases hf : m.field? i property.text with
    | some w => exact hfield i w rfl hf
    | none =>
      cases hm : i.ofClass.findMethod property.text with
      | some f => exact hmethod i f rfl hf hm
      | none => exact herror _
  | nil => exact herror _
  | bool b => exact herror _
  | number x => exact herror _
  | text s => exact herror _
  | callable c => exact herror _

theorem ends_instanceOf {v : Value} {property : Lexeme} {ok : Instance → Machine → Prop}
    {stopped : Abort → Machine → Prop} (hok : ∀ i, v = .instance i → ok i m)
    (herror : ∀ e, stopped (.error e) m) : Ends (instanceOf v property) m ok stopped := by
  cases v with
  | «instance» i => exact hok i rfl
  | nil => exact herror _
  | bool b => exact herror _
  | number x => exact herror _
  | text s => exact herror _
  | callable c => exact herror _

theorem instanceOf_ok {v : Value} {property : Lexeme} {i : Instance} {m' : Machine}
    (h : instanceOf v property m = .ok i m') : v = .instance i ∧ m' = m := by
  cases v with
  | «instance» j =>
    cases h
    exact ⟨rfl, rfl⟩
  | nil => cases h
  | bool b => cases h
  | number x => cases h
  | text s => cases h
  | callable c => cases h

theorem ends_superMethod {ref : Ref} {method : Lexeme} {ok : Value → Machine → Prop}
    {stopped : Abort → Machine → Prop}
    (hok : ∀ hops c f, m.bindings.hops? ref.id = some hops →
      m.frames.nameAt? hops m.current "super" = some (.callable (.class c)) →
      c.findMethod method.text = some f →
      Ends (bindThis f (m.thisInside hops)) m (fun g m' => ok (.callable (.function g)) m')
        stopped)
    (herror : ∀ e, stopped (.error e) m) : Ends (superMethod ref method) m ok stopped := by
  unfold Ends superMethod
  dsimp only
  cases hhops : m.bindings.hops? ref.id with
  | none => exact herror _
  | some hops =>
    dsimp only
    split
    · rename_i c hsuper
      split
      · rename_i f hf
        cases hops with
        | zero => exact hok 0 c f hhops hsuper hf
        | succ hops => exact hok (hops + 1) c f hhops hsuper hf
      · exact herror _
    · exact herror _

/-! ## Calls -/

/-- What a call of a function gives back when its body ends. -/
def callResult (f : Function) (flow : Flow) (m : Machine) : Value :=
  if f.isInitializer then (m.frames.here? f.closure "this").getD .nil else flow.result

theorem ends_callFunction {n : Nat} {f : Function} {arguments : List Value}
    {ok : Value → Machine → Prop} {stopped : Abort → Machine → Prop}
    (h : Ends (statements (.ofFuel n) f.routine.body) (m.inCall f arguments)
      (fun flow m' => ok (callResult f flow m') { m' with current := m.current })
      (fun stop m' => stopped stop { m' with current := m.current })) :
    Ends (callFunction (runBody n) f arguments) m ok stopped := by
  have hbody : Ends (runBody n f.routine.body) (m.inCall f arguments)
      (fun v m' => ok (if f.isInitializer then (m'.frames.here? f.closure "this").getD .nil else v)
        { m' with current := m.current })
      (fun stop m' => stopped stop { m' with current := m.current }) :=
    ends_bind h fun flow m' _ hflow => ends_pure hflow
  have hwithin : Ends (within m.frames.nextId (runBody n f.routine.body))
      { m with frames := (m.inCall f arguments).frames }
      (fun v m' =>
        ok (if f.isInitializer then (m'.frames.here? f.closure "this").getD .nil else v) m')
      stopped := ends_within hbody
  unfold callFunction
  refine ends_bind_of_ok (a := m.frames.nextId) rfl (ends_bind_of_ok rfl ?_)
  refine ends_bind hwithin fun v m' _ hv => ?_
  cases hf : f.isInitializer with
  | true =>
    simp only [hf] at hv
    exact hv
  | false =>
    simp only [hf] at hv
    exact hv

theorem ends_construct {n : Nat} {c : Class} {arguments : List Value}
    {ok : Value → Machine → Prop} {stopped : Abort → Machine → Prop}
    (hnone : c.initializer? = none → ok (.instance (m.nextInstance c)) m.withInstance)
    (hsome : ∀ f, c.initializer? = some f →
      Ends (bindThis f (.instance (m.nextInstance c))) m.withInstance
        (fun g m₁ => Ends (callFunction (runBody n) g arguments) m₁
          (fun _ m' => ok (.instance (m.nextInstance c)) m') stopped) stopped) :
    Ends (construct (runBody n) c arguments) m ok stopped := by
  have hnew : newInstance c m = .ok (m.nextInstance c) m.withInstance := rfl
  unfold construct
  refine ends_bind_of_ok hnew ?_
  cases hf : c.initializer? with
  | none => exact hnone hf
  | some f =>
    refine ends_bind (hsome f hf) fun g m₁ _ hcall => ?_
    exact ends_bind hcall fun v m' _ hok => ends_pure hok

/-- A call goes on with a function, the clock or a class, as long as there is fuel. -/
theorem ends_apply {n : Nat} {c : Callable} {arguments : List Value}
    {ok : Value → Machine → Prop} {stopped : Abort → Machine → Prop}
    (hfuel : n = 0 → stopped .outOfFuel m)
    (hfunction : ∀ k f, n = k + 1 → c = .function f →
      Ends (callFunction (runBody k) f arguments) m ok stopped)
    (hclock : ∀ x, ok (.number x) { m with readings := m.readings + 1 })
    (hclass : ∀ k d, n = k + 1 → c = .class d →
      Ends (construct (runBody k) d arguments) m ok stopped) :
    Ends (invokeWith n c arguments) m ok stopped := by
  cases n with
  | zero => exact hfuel rfl
  | succ k =>
    cases c with
    | function f => exact hfunction k f rfl rfl
    | native g =>
      cases g
      exact hclock _
    | «class» d => exact hclass k d rfl rfl

/-- A call is faulty before anything happens, or its arguments fit and it goes one call
deeper. -/
theorem ends_callValue {n : Nat} {v : Value} {arguments : List Value} {closing : Lexeme}
    {ok : Value → Machine → Prop} {stopped : Abort → Machine → Prop}
    (herror : ∀ e, stopped (.error e) m)
    (hcall : ∀ c, v = .callable c → arguments.length = c.arity → m.depth < m.maxDepth →
      Ends (invokeWith n c arguments) m.deeper
        (fun w m' => ok w { m' with depth := m'.depth - 1 })
        (fun stop m' => stopped stop { m' with depth := m'.depth - 1 })) :
    Ends (callValue (invokeWith n) v arguments closing) m ok stopped := by
  cases v with
  | callable c =>
    unfold callValue
    by_cases harity : arguments.length = c.arity
    · simp only [harity, ne_eq, not_true_eq_false, if_false]
      exact ends_deeper (fun _ => herror _) (hcall c rfl harity)
    · simp only [ne_eq, harity, not_false_eq_true, if_true]
      exact ends_fail (herror _)
  | nil => exact herror _
  | bool b => exact herror _
  | number x => exact herror _
  | text s => exact herror _
  | «instance» i => exact herror _

end ScriptLang.Eval
