import ScriptLang.Proofs.Evaluation.Course
import ScriptLang.Proofs.Realms.Holding

/-!
# Where classes and instances come from

A class comes from a declaration: its methods are made from the members there, the last one of each
name, and its superclass is the class that the declaration names (`Moment.Declares`). Classes are
values that never change, and evaluation makes no other ones. So wherever a class is come across, it
was declared at some moment that happened, and so was its superclass (`Class.Declared`). An instance
comes from a call of its class (`Instance.Made`). This is an invariant of all that values pass
through: of the variables and fields on a machine, of what tasks are given, and of what they lead to
(`Moment.preserves_known`).
-/

namespace ScriptLang

open Relation (ReflTransGen)

/-! ## Declarations of classes -/

/-- The last one of the members of a class with the given name. -/
def Method.last? (members : List Method) (name : String) : Option Method :=
  members.reverse.find? (·.name.text = name)

/-- The methods of a class that has the given members. -/
def Method.Make (members : List Method) (closure : FrameId) (methods : Slots Function) : Prop :=
  ∀ name, match last? members name with
    | some method =>
      ∃ id, methods.get? name = some ⟨id, some name, method.routine, closure, name = "init"⟩
    | none => methods.get? name = none

/-- A class is declared at the moment. -/
inductive Moment.Declares : Moment → Class → Prop
  | intro {n name superclass members m parent methods k}
    (hparent : Eval.parentOf superclass m = .ok parent m)
    (hmethods : Method.Make members (Eval.methodClosure (m.defining name.text .nil) parent) methods) :
    Declares ⟨n, .statement (.class name superclass members), m⟩ ⟨k, name.text, parent, methods⟩

/-- The class was declared at a moment that happened, and so were those above it. -/
inductive Class.Declared (H : Moment → Prop) : Class → Prop
  | intro {N c} (hN : H N) (h : N.Declares c)
    (hsuper : ∀ d, c.superclass = some d → Declared H d) : Declared H c

theorem Class.Declared.mono {H H' : Moment → Prop} (hH : ∀ N, H N → H' N) {c : Class}
    (h : c.Declared H) : c.Declared H' := by
  induction h with
  | intro hN h _ ih => exact .intro (hH _ hN) h ih

/-- The instance is made at the moment, by a call of its class. -/
inductive Moment.Makes : Moment → Instance → Prop
  | intro {n c arguments m} : Makes ⟨n + 1, .apply (.class c) arguments, m⟩ (m.nextInstance c)

/-- The class of the instance was declared, and the instance was made at a moment that happened. -/
structure Instance.Made (H : Moment → Prop) (i : Instance) : Prop where
  declared : i.ofClass.Declared H
  made : ∃ N, H N ∧ N.Makes i

theorem Instance.Made.mono {H H' : Moment → Prop} (hH : ∀ N, H N → H' N) {i : Instance}
    (h : i.Made H) : i.Made H' := by
  obtain ⟨N, hN, hmakes⟩ := h.made
  exact ⟨h.declared.mono hH, N, hH N hN, hmakes⟩

theorem Method.last?_cons (method : Method) (members : List Method) (name : String) :
    last? (method :: members) name =
      (last? members name).or (if method.name.text = name then some method else none) := by
  unfold last?
  rw [List.reverse_cons, List.find?_append]
  by_cases h : method.name.text = name <;> simp [h]

namespace Eval

/-- What methods are made of members after some others are there. -/
theorem makeMethods_last (closure : FrameId) (members : List Method) (made : Slots Function)
    (m : Machine) :
    ∃ methods k, makeMethods closure members made m = .ok methods { m with made := k } ∧
      ∀ name, match Method.last? members name with
        | some method =>
          ∃ id, methods.get? name = some ⟨id, some name, method.routine, closure, name = "init"⟩
        | none => methods.get? name = made.get? name := by
  induction members generalizing made m with
  | nil => exact ⟨made, m.made, rfl, fun _ => rfl⟩
  | cons method members ih =>
    obtain ⟨word, routine⟩ := method
    let f : Function := ⟨m.made, some word.text, routine, closure, word.text = "init"⟩
    obtain ⟨methods, k, heq, hmethods⟩ := ih (made.set word.text f) { m with made := m.made + 1 }
    refine ⟨methods, k, heq, fun name => ?_⟩
    have hname := hmethods name
    rw [Method.last?_cons]
    cases hlast : Method.last? members name with
    | some other =>
      rw [hlast] at hname
      exact hname
    | none =>
      rw [hlast] at hname
      dsimp only at hname
      rw [Slots.get?_set] at hname
      by_cases h : word.text = name
      · subst h
        rw [if_pos rfl] at hname ⊢
        exact ⟨m.made, hname⟩
      · rw [if_neg (Ne.symm h)] at hname
        rw [if_neg h]
        exact hname

/-- What a class declaration leads to. -/
theorem ends_declaration {n : Nat} {name : Lexeme} {superclass : Option Ref}
    {members : List Method} {m : Machine} {ok : Unit → Machine → Prop}
    {stopped : Abort → Machine → Prop}
    (hok : ∀ parent methods k, parentOf superclass m = .ok parent m →
      Moment.Declares ⟨n, .statement (.class name superclass members), m⟩
        ⟨k, name.text, parent, methods⟩ →
      ok () (classMachine name parent methods k m))
    (herror : ∀ e, stopped (.error e) m) :
    Ends (declareClass name superclass members) m ok stopped := by
  have hends : Ends (declareClass name superclass members) m
      (fun _ _ => ∃ parent, parentOf superclass m = .ok parent m)
      fun stop m' => m' = m ∧ ∃ e, stop = .error e :=
    ends_declareClass (fun parent _ _ hparent _ _ => ⟨parent, hparent⟩) fun e => ⟨rfl, e, rfl⟩
  refine ends_of (fun a m' h => ?_) fun stop m' h => ?_
  · obtain ⟨parent, hparent⟩ := hends.of_ok h
    let named := m.defining name.text .nil
    obtain ⟨methods, k, heq, hmethods⟩ := makeMethods_last (methodClosure named parent) members .empty
      (methodMachine named parent)
    have hclass : declareClass name superclass members m =
        .ok () (classMachine name parent methods k m) := by
      rw [declareClass_eq, bind_of_ok hparent]
      change (methodFrame parent >>= fun frame => _) named = _
      rw [bind_of_ok (methodFrame_eq ..), bind_of_ok heq]
      rfl
    cases hclass.symm.trans h
    refine hok parent methods k hparent (.intro hparent fun x => ?_)
    have hx := hmethods x
    rwa [Slots.get?_empty] at hx
  · obtain ⟨rfl, e, rfl⟩ := hends.of_error h
    exact herror e

end Eval

/-! ## Known values -/

section Known

variable (H : Moment → Prop)

/-- The value was declared if it is a class, and it was made if it is an instance. -/
def Value.Known : Value → Prop
  | .callable (.class c) => c.Declared H
  | .instance i => i.Made H
  | _ => True

/-- All values of variables and fields are known. -/
structure Machine.Known (m : Machine) : Prop where
  frames : ∀ f x v, m.frames.here? f x = some v → v.Known H
  fields : ∀ i x v, m.field? i x = some v → v.Known H

/-- The machine and the values that are given are known. -/
structure Moment.Known (M : Moment) : Prop where
  machine : M.machine.Known H
  values : ∀ v ∈ M.task.values, v.Known H

/-- The values that a task leads to are known. -/
def Task.Tells : (t : Task) → t.Result → Prop
  | .expression _, v => v.Known H
  | .expressions _, vs => ∀ v ∈ vs, v.Known H
  | .statement _, flow => flow.result.Known H
  | .statements _, flow => flow.result.Known H
  | .loop _ _ _, flow => flow.result.Known H
  | .apply _ _, v => v.Known H
  | .call _ _, v => v.Known H
  | .declarators _, _ | .topLevel _, _ | .bind _ _, _ => True

end Known

variable {H : Moment → Prop} {m m' : Machine}

theorem Value.known_of_isPlain {v : Value} (h : v.IsPlain) : v.Known H := by
  cases v with
  | callable c => exact h.elim
  | «instance» i => exact h.elim
  | _ => exact trivial

namespace Machine.Known

/-- Only the variables and the fields matter. -/
theorem congr (h : m.Known H) (hframes : m'.frames = m.frames) (hfields : m'.fields = m.fields) :
    m'.Known H := by
  refine ⟨by rw [hframes]; exact h.frames, fun i x v hv => h.fields i x v ?_⟩
  unfold field? at hv ⊢
  rwa [hfields] at hv

theorem define (h : m.Known H) (f : FrameId) (name : String) {v : Value} (hv : v.Known H) :
    Known H { m with frames := m.frames.define f name v } := by
  refine ⟨fun g x w hw => ?_, h.fields⟩
  have hw' : (m.frames.define f name v).here? g x = some w := hw
  rw [Frames.here?_define] at hw'
  split at hw'
  · cases hw'
    exact hv
  · exact h.frames g x w hw'

theorem defining (h : m.Known H) (name : String) {v : Value} (hv : v.Known H) :
    (m.defining name v).Known H := h.define m.current name hv

/-- A new frame in which variables have known values. -/
theorem enter (h : m.Known H) (e : Option FrameId) (names : List String)
    {vs : List Value} (hvs : ∀ v ∈ vs, v.Known H) :
    Known H { m with frames := (m.frames.push e).defineAll m.frames.nextId names vs } := by
  refine ⟨fun g x w hw => ?_, h.fields⟩
  rcases Frames.here?_defineAll_cases hw with hw | ⟨-, hmem, -⟩
  · rw [Frames.here?_push] at hw
    exact h.frames g x w hw
  · exact hvs w hmem

theorem withInstance (h : m.Known H) : m.withInstance.Known H := by
  refine ⟨h.frames, fun i x v hv => h.fields i x v ?_⟩
  unfold field? Machine.withInstance at hv
  dsimp only at hv
  rw [Array.getElem?_push] at hv
  unfold field?
  split at hv
  · cases hv
  · exact hv

theorem setField (h : m.Known H) (i : Instance) (name : String) {v : Value} (hv : v.Known H) :
    Known H { m with fields := m.fields.modify i.id (·.set name v) } := by
  refine ⟨h.frames, fun j x w hw => ?_⟩
  unfold field? at hw
  dsimp only at hw
  rw [Array.getElem?_modify] at hw
  by_cases hid : i.id = j.id
  · rw [if_pos hid] at hw
    cases hold : m.fields[j.id]? with
    | none =>
      rw [hold] at hw
      cases hw
    | some old =>
      rw [hold] at hw
      have hset : (old.set name v).get? x = some w := hw
      rw [Slots.get?_set] at hset
      split at hset
      · cases hset
        exact hv
      · refine h.fields j x w ?_
        unfold field?
        rw [hold]
        exact hset
  · rw [if_neg hid] at hw
    exact h.fields j x w hw

theorem nameAt (h : m.Known H) {hops : Nat} {f : FrameId} {name : String} {v : Value}
    (hv : m.frames.nameAt? hops f name = some v) : v.Known H := by
  obtain ⟨g, -, hhere⟩ := Frames.nameAt?_eq_some hv
  exact h.frames g name v hhere

theorem thisInside (h : m.Known H) (hops : Nat) : (m.thisInside hops).Known H := by
  rcases m.thisInside_eq hops with hnil | ⟨k, hthis⟩
  · rw [hnil]
    exact trivial
  · exact h.nameAt hthis

theorem bound (h : m.Known H) (f : Function) {self : Value} (hself : self.Known H) :
    (Eval.boundMachine f self m).Known H := by
  have hvs : ∀ v ∈ [self], v.Known H := by simpa using hself
  exact (h.enter (some f.closure) ["this"] hvs).congr rfl rfl

theorem classMachine (h : m.Known H) {name : Lexeme} {parent : Option Class}
    {methods : Slots Function} {k : Nat} (hparent : ∀ c, parent = some c → c.Declared H)
    (hclass : Class.Declared H ⟨k, name.text, parent, methods⟩) :
    (Eval.classMachine name parent methods k m).Known H := by
  have hnamed : (m.defining name.text .nil).Known H := h.defining name.text trivial
  have hmethods : (Eval.methodMachine (m.defining name.text .nil) parent).Known H := by
    cases parent with
    | none => exact hnamed
    | some c =>
      have hc : ∀ v ∈ [Value.callable (.class c)], v.Known H := by
        intro v hv
        cases List.mem_singleton.mp hv
        exact hparent c rfl
      exact hnamed.enter (some _) ["super"] hc
  exact (hmethods.defining name.text (v := .callable (.class _)) hclass).congr rfl rfl

end Machine.Known

/-! ## Evaluation -/

section

variable (H)

/-- If the moment is known, then the machine that it leaves is, and so is what it leads to. -/
def Moment.Preserves (M : Moment) : Prop :=
  M.Known H → Eval.Ends (M.task.perform M.fuel) M.machine
    (fun a m' => m'.Known H ∧ M.task.Tells H a) fun _ m' => m'.Known H

/-- The computation leaves a known machine and a result as `good` asks, and the parts among its steps
are known. -/
structure Eval.Tells {α : Type} (act : Eval α) (m : Machine) (steps : List Step) (good : α → Prop) :
    Prop where
  ends : Ends act m (fun a m' => m'.Known H ∧ good a) fun _ m' => m'.Known H
  parts : ∀ N, .part N ∈ steps → N.Known H

end

namespace Eval

variable {α β : Type} {act : Eval α} {good : α → Prop} {after : β → Prop}

theorem tells_alone (h : Ends act m (fun a m' => m'.Known H ∧ good a) fun _ m' => m'.Known H) :
    Tells H act m [] good := ⟨h, nofun⟩

theorem tells_part {N : Moment} (hN : N.Known H) (h : N.Preserves H) :
    Tells H (N.task.perform N.fuel) N.machine [.part N] (N.task.Tells H) := by
  refine ⟨h hN, fun K hK => ?_⟩
  cases List.mem_singleton.mp hK
  exact hN

theorem tells_followedBy {N : Moment} {next : N.task.Result → Eval β}
    {steps : N.task.Result → Machine → List Step} (hN : N.Known H) (h : N.Preserves H)
    (hnext : ∀ a m₁, N.ending = .ok a m₁ → N.task.Tells H a → m₁.Known H →
      Tells H (next a) m₁ (steps a m₁) after) :
    Tells H (N.task.perform N.fuel >>= next) N.machine (N.followedBy steps) after := by
  refine ⟨ends_bind (h hN |>.mono (fun a m' hend ha => (hnext a m' hend ha.2 ha.1).ends)
    fun _ _ hstop => hstop) fun a m₁ _ hends => hends, fun K hK => ?_⟩
  rcases Moment.part_mem_followedBy_iff.mp hK with rfl | ⟨a, m₁, hend, hK⟩
  · exact hN
  · obtain ⟨hm₁, ha⟩ := (h hN).of_ok hend
    exact (hnext a m₁ hend ha hm₁).parts K hK

/-- Only a part, and something that has no parts. -/
theorem tells_first {N : Moment} {next : N.task.Result → Eval β} (hN : N.Known H)
    (h : N.Preserves H)
    (hnext : ∀ a m₁, N.task.Tells H a → m₁.Known H →
      Ends (next a) m₁ (fun b m' => m'.Known H ∧ after b) fun _ m' => m'.Known H) :
    Tells H (N.task.perform N.fuel >>= next) N.machine [.part N] after :=
  ⟨ends_bind (h hN) fun a m₁ _ ha => hnext a m₁ ha.2 ha.1, (tells_part hN h).parts⟩

theorem tells_bind_of_ok {next : α → Eval β} {a : α} {m₁ : Machine} {steps : List Step}
    (h : act m = .ok a m₁) (hnext : Tells H (next a) m₁ steps after) :
    Tells H (act >>= next) m steps after := ⟨ends_bind_of_ok h hnext.ends, hnext.parts⟩

/-- A method that gets its `this`. -/
theorem tells_bindingSteps {n : Nat} {method : Option Function} {self : Value} (hm : m.Known H)
    (hself : self.Known H)
    (h : Ends act m (fun a m' => m'.Known H ∧ good a) fun _ m' => m'.Known H) :
    Tells H act m (bindingSteps n method self m) good := by
  refine ⟨h, fun K hK => ?_⟩
  cases method with
  | none => cases hK
  | some f =>
    cases List.mem_singleton.mp hK
    refine ⟨hm, fun v hv => ?_⟩
    rcases List.mem_cons.mp hv with rfl | hv
    · exact trivial
    · cases List.mem_singleton.mp hv
      exact hself

section Tasks

variable {n : Nat}

/-- What has no values that it is given is known on a known machine. -/
theorem known_of_values {N : Moment} (hm : N.machine.Known H) (h : N.task.values = []) :
    N.Known H := ⟨hm, by simp [h]⟩

theorem ends_getOf_known {v : Value} (property : Lexeme) (hm : m.Known H) (hv : v.Known H) :
    Ends (getOf v property) m (fun w m' => m'.Known H ∧ w.Known H) fun _ m' => m'.Known H := by
  refine ends_getOf (fun i w hi hw => ⟨hm, hm.fields i _ w hw⟩) (fun i f hi _ _ => ?_) fun _ => hm
  subst hi
  exact ⟨hm.bound f hv, trivial⟩

theorem ends_superMethod_known (ref : Ref) (method : Lexeme) (hm : m.Known H) :
    Ends (superMethod ref method) m (fun w m' => m'.Known H ∧ w.Known H) fun _ m' => m'.Known H :=
  ends_superMethod (fun hops _ f _ _ _ => ⟨hm.bound f (hm.thisInside hops), trivial⟩) fun _ => hm

theorem tells_callValue {v : Value} {arguments : List Value} {closing : Lexeme} (hm : m.Known H)
    (hv : v.Known H) (harguments : ∀ w ∈ arguments, w.Known H)
    (ih : ∀ c, v = .callable c → arguments.length = c.arity → m.depth < m.maxDepth →
      Moment.Preserves H ⟨n, .apply c arguments, m.deeper⟩) :
    Tells H (callValue (invokeWith n) v arguments closing) m (callingSteps n v arguments m)
      (Value.Known H) := by
  have hknown (c : Callable) (hc : v = .callable c) :
      Moment.Known H ⟨n, .apply c arguments, m.deeper⟩ := by
    refine ⟨hm.congr rfl rfl, fun w hw => ?_⟩
    rcases List.mem_cons.mp hw with rfl | hw
    · exact hc ▸ hv
    · exact harguments w hw
  constructor
  · refine ends_callValue (fun _ => hm) fun c hc harity hdepth => ?_
    exact (ih c hc harity hdepth (hknown c hc)).mono
      (fun _ _ _ h => ⟨h.1.congr rfl rfl, h.2⟩) fun _ _ h => h.congr rfl rfl
  · intro K hK
    unfold callingSteps at hK
    split at hK
    · split at hK
      · cases List.mem_singleton.mp hK
        exact hknown _ rfl
      · cases hK
    · cases hK

theorem tells_expression (e : Expr) (hm : m.Known H)
    (ih : ∀ N, Part ⟨n, .expression e, m⟩ N → N.Preserves H) :
    Tells H (expression (.ofFuel n) e) m (e.course n m) (Value.Known H) := by
  have hread (ref : Ref) : Ends (readVariable ref) m (fun v m' => m'.Known H ∧ v.Known H)
      fun _ m' => m'.Known H :=
    ends_readVariable (fun v f hf => ⟨hm, hm.frames f _ v hf⟩) fun _ => hm
  have hpart (e : Expr) {m : Machine} (hm : m.Known H) : Moment.Known H ⟨n, .expression e, m⟩ :=
    known_of_values hm rfl
  cases e with
  | literal value => exact tells_alone ⟨hm, Value.known_of_isPlain value.isPlain_value⟩
  | «variable» ref => exact tells_alone (hread ref)
  | assign ref value =>
    rw [expression]
    refine tells_first (hpart value hm) (ih _ .assignValue) fun v m₁ hv hm₁ => ?_
    have hassign : Ends (assignVariable ref v) m₁ (fun _ m' => m'.Known H) fun _ m' => m'.Known H :=
      ends_assignVariable (fun f _ => hm₁.define f _ hv) fun _ => hm₁
    exact ends_bind hassign fun _ m₂ _ hm₂ => ends_pure ⟨hm₂, hv⟩
  | unary op sign operand =>
    rw [expression]
    refine tells_first (hpart operand hm) (ih _ .unaryOperand) fun v m₁ hv hm₁ => ?_
    refine ends_ofOperator (fun w hw => ?_) fun _ => hm₁
    exact ⟨hm₁, Value.known_of_isPlain (UnaryOp.isPlain_of_apply hw)⟩
  | binary op sign left right =>
    rw [expression]
    refine tells_followedBy (hpart left hm) (ih _ .binaryLeft) fun v m₁ hleft hv hm₁ => ?_
    refine tells_first (hpart right hm₁) (ih _ (.binaryRight hleft)) fun w m₂ hw hm₂ => ?_
    refine ends_ofOperator (fun u hu => ?_) fun _ => hm₂
    exact ⟨hm₂, Value.known_of_isPlain (BinaryOp.isPlain_of_apply hu)⟩
  | logical op sign left right =>
    rw [expression]
    refine tells_followedBy (hpart left hm) (ih _ .logicalLeft) fun v m₁ hleft hv hm₁ => ?_
    cases hdecides : op.decides v with
    | true => exact tells_alone ⟨hm₁, hv⟩
    | false => exact tells_part (hpart right hm₁) (ih _ (.logicalRight hleft hdecides))
  | comma left right =>
    rw [expression]
    refine tells_followedBy (hpart left hm) (ih _ .commaLeft) fun v m₁ hleft hv hm₁ => ?_
    exact tells_part (hpart right hm₁) (ih _ (.commaRight hleft))
  | conditional condition whenTrue whenFalse =>
    rw [expression]
    refine tells_followedBy (hpart condition hm) (ih _ .condition) fun v m₁ hcondition hv hm₁ => ?_
    cases hv : v.isTruthy with
    | true => exact tells_part (hpart whenTrue hm₁) (ih _ (.whenTrue hcondition hv))
    | false => exact tells_part (hpart whenFalse hm₁) (ih _ (.whenFalse hcondition hv))
  | grouping inner => exact tells_part (hpart inner hm) (ih _ .grouping)
  | call callee arguments closing =>
    rw [expression]
    refine tells_followedBy (hpart callee hm) (ih _ .callee) fun v m₁ hcallee hv hm₁ => ?_
    have harguments : Moment.Known H ⟨n, .expressions arguments, m₁⟩ := known_of_values hm₁ rfl
    refine tells_followedBy harguments (ih _ (.arguments hcallee)) fun vs m₂ hends hvs hm₂ => ?_
    refine tells_callValue hm₂ hv hvs fun c hc harity hdepth => ?_
    subst hc
    exact ih _ (.apply hcallee hends harity hdepth)
  | get object property =>
    rw [expression]
    refine tells_followedBy (hpart object hm) (ih _ .getObject) fun v m₁ hobject hv hm₁ => ?_
    have hget := ends_getOf_known property hm₁ hv
    cases v with
    | «instance» i =>
      dsimp only
      cases m₁.field? i property.text with
      | some w => exact tells_alone hget
      | none => exact tells_bindingSteps hm₁ hv hget
    | _ => exact tells_alone hget
  | set object property value =>
    rw [expression]
    refine tells_followedBy (hpart object hm) (ih _ .setObject) fun v m₁ hobject hv hm₁ => ?_
    cases v with
    | «instance» i =>
      have hvalue : Tells H (expression (.ofFuel n) value >>= fun w =>
          setField i property w >>= fun _ => pure w) m₁
          (Moment.followedBy ⟨n, .expression value, m₁⟩ fun w _ => [.set ⟨i, property.text, w⟩])
          (Value.Known H) := by
        refine tells_followedBy (hpart value hm₁) (ih _ (.setValue hobject)) fun w m₂ _ hw hm₂ => ?_
        exact ⟨⟨hm₂.setField i property.text hw, hw⟩, by simp⟩
      exact hvalue
    | _ => exact tells_alone hm₁
  | this ref => exact tells_alone (hread ref)
  | super ref method =>
    rw [expression, Expr.course]
    have hsuper := ends_superMethod_known ref method hm
    cases m.bindings.hops? ref.id with
    | none => exact tells_alone hsuper
    | some hops =>
      dsimp only
      split
      · exact tells_bindingSteps hm (hm.thisInside hops) hsuper
      · exact tells_alone hsuper
  | function routine => exact tells_alone ⟨hm.congr rfl rfl, trivial⟩

theorem tells_expressions (es : List Expr) (hm : m.Known H)
    (ih : ∀ N, Part ⟨n, .expressions es, m⟩ N → N.Preserves H) :
    Tells H (expressions (.ofFuel n) es) m (Task.course n m (.expressions es))
      fun vs => ∀ v ∈ vs, v.Known H := by
  cases es with
  | nil => exact tells_alone ⟨hm, by simp⟩
  | cons e es =>
    rw [expressions]
    have he : Moment.Known H ⟨n, .expression e, m⟩ := known_of_values hm rfl
    refine tells_followedBy he (ih _ .first) fun v m₁ hfirst hv hm₁ => ?_
    have hes : Moment.Known H ⟨n, .expressions es, m₁⟩ := known_of_values hm₁ rfl
    refine tells_first hes (ih _ (.others hfirst)) fun vs m₂ hvs hm₂ => ?_
    refine ends_pure ⟨hm₂, fun w hw => ?_⟩
    rcases List.mem_cons.mp hw with rfl | hw
    · exact hv
    · exact hvs w hw

theorem tells_statement (s : Stmt) (hm : m.Known H) (hM : H ⟨n, .statement s, m⟩)
    (ih : ∀ N, Part ⟨n, .statement s, m⟩ N → N.Preserves H) :
    Tells H (statement (.ofFuel n) s) m (s.course n m) fun flow => flow.result.Known H := by
  have hpart (e : Expr) : Moment.Known H ⟨n, .expression e, m⟩ := known_of_values hm rfl
  have hbranch (s : Stmt) {m : Machine} (hm : m.Known H) : Moment.Known H ⟨n, .statement s, m⟩ :=
    known_of_values hm rfl
  cases s with
  | expression e =>
    rw [statement]
    exact tells_first (hpart e) (ih _ .evaluated) fun v m₁ _ hm₁ => ends_pure ⟨hm₁, trivial⟩
  | print e =>
    rw [statement]
    refine tells_first (hpart e) (ih _ .printed) fun v m₁ _ hm₁ => ?_
    exact ends_bind_of_ok rfl (ends_pure ⟨hm₁.congr rfl rfl, trivial⟩)
  | vars ds =>
    rw [statement]
    have hds : Moment.Known H ⟨n, .declarators ds, m⟩ := known_of_values hm rfl
    exact tells_first hds (ih _ .declared) fun _ m₁ _ hm₁ => ends_pure ⟨hm₁, trivial⟩
  | block body =>
    have hnone : ∀ v ∈ ([] : List Value), v.Known H := by simp
    have hentered : m.inBlock.Known H := (hm.enter (some m.current) [] hnone).congr rfl rfl
    have hbody : Moment.Known H ⟨n, .statements body, m.inBlock⟩ := known_of_values hentered rfl
    rw [statement]
    refine ⟨ends_bind_of_ok (a := m.current) rfl (ends_bind_of_ok rfl (ends_within ?_)),
      (tells_part hbody (ih _ .block)).parts⟩
    exact (ih _ .block hbody).mono (fun _ _ _ h => ⟨h.1.congr rfl rfl, h.2⟩)
      fun _ _ h => h.congr rfl rfl
  | ifElse condition whenTrue whenFalse =>
    cases whenFalse with
    | none =>
      rw [statement]
      refine tells_followedBy (hpart condition) (ih _ .choice) fun v m₁ hcondition _ hm₁ => ?_
      cases hv : v.isTruthy with
      | true => exact tells_part (hbranch whenTrue hm₁) (ih _ (.chosen hcondition hv))
      | false => exact tells_alone ⟨hm₁, trivial⟩
    | some whenFalse =>
      rw [statement]
      refine tells_followedBy (hpart condition) (ih _ .choice) fun v m₁ hcondition _ hm₁ => ?_
      cases hv : v.isTruthy with
      | true => exact tells_part (hbranch whenTrue hm₁) (ih _ (.chosen hcondition hv))
      | false => exact tells_part (hbranch whenFalse hm₁) (ih _ (.alternative hcondition hv))
  | whileLoop condition body =>
    have hloop : Moment.Known H ⟨n, .loop condition body n, m⟩ := known_of_values hm rfl
    exact tells_part hloop (ih _ .loop)
  | breakLoop keyword => exact tells_alone ⟨hm, trivial⟩
  | returnFrom keyword value =>
    cases value with
    | none => exact tells_alone ⟨hm, trivial⟩
    | some e =>
      rw [statement]
      exact tells_first (hpart e) (ih _ .returned) fun v m₁ hv hm₁ => ends_pure ⟨hm₁, hv⟩
  | function name routine =>
    have hmade : Machine.Known H { m with made := m.made + 1 } := hm.congr rfl rfl
    exact tells_alone ⟨hmade.defining name.text trivial, trivial⟩
  | «class» name superclass members =>
    rw [statement]
    have hclass : Ends (declareClass name superclass members) m (fun _ m' => m'.Known H)
        fun _ m' => m'.Known H := by
      refine ends_declaration (n := n) (fun parent methods k hparent hdeclares => ?_) fun _ => hm
      have hsuper (c : Class) (hc : parent = some c) : c.Declared H := by
        subst hc
        obtain ⟨-, ⟨-, hnone⟩ | ⟨ref, d, -, hd, hread⟩⟩ := parentOf_ok hparent
        · cases hnone
        · cases hd
          obtain ⟨-, f, hf⟩ := readVariable_ok (superclassOf_ok hread).2
          exact hm.frames f _ _ hf
      exact hm.classMachine hsuper (.intro hM hdeclares hsuper)
    exact tells_alone (ends_bind hclass fun _ m₁ _ hm₁ => ends_pure ⟨hm₁, trivial⟩)

theorem tells_statements (body : List Stmt) (hm : m.Known H)
    (ih : ∀ N, Part ⟨n, .statements body, m⟩ N → N.Preserves H) :
    Tells H (statements (.ofFuel n) body) m (Task.course n m (.statements body))
      fun flow => flow.result.Known H := by
  cases body with
  | nil => exact tells_alone ⟨hm, trivial⟩
  | cons s rest =>
    rw [statements]
    have hs : Moment.Known H ⟨n, .statement s, m⟩ := known_of_values hm rfl
    refine tells_followedBy hs (ih _ .head) fun flow m₁ hhead hflow hm₁ => ?_
    cases flow with
    | normal =>
      have hrest : Moment.Known H ⟨n, .statements rest, m₁⟩ := known_of_values hm₁ rfl
      exact tells_part hrest (ih _ (.tail hhead))
    | broken => exact tells_alone ⟨hm₁, trivial⟩
    | returned v => exact tells_alone ⟨hm₁, hflow⟩

theorem tells_declarators (ds : List Declarator) (hm : m.Known H)
    (ih : ∀ N, Part ⟨n, .declarators ds, m⟩ N → N.Preserves H) :
    Tells H (declarators (.ofFuel n) ds) m (Declarator.courseOfAll n m ds) fun _ => True := by
  cases ds with
  | nil => exact tells_alone ⟨hm, trivial⟩
  | cons declarator rest =>
    obtain ⟨name, initializer⟩ := declarator
    have hrest {m : Machine} (hm : m.Known H) {v : Value} (hv : v.Known H) :
        Moment.Known H ⟨n, .declarators rest, m.defining name.text v⟩ :=
      known_of_values (hm.defining _ hv) rfl
    cases initializer with
    | none =>
      rw [declarators]
      exact tells_bind_of_ok (define_eq ..)
        (tells_part (hrest hm (v := .nil) trivial) (ih _ .afterName))
    | some e =>
      rw [declarators]
      have he : Moment.Known H ⟨n, .expression e, m⟩ := known_of_values hm rfl
      refine tells_followedBy he (ih _ .initializer) fun v m₁ hend hv hm₁ => ?_
      exact tells_bind_of_ok (define_eq ..) (tells_part (hrest hm₁ hv) (ih _ (.afterInitializer hend)))

theorem tells_loop (condition : Expr) (body : Stmt) (rounds : Nat) (hm : m.Known H)
    (ih : ∀ N, Part ⟨n, .loop condition body rounds, m⟩ N → N.Preserves H) :
    Tells H (Task.perform n (.loop condition body rounds)) m
      (Task.course n m (.loop condition body rounds)) fun flow => flow.result.Known H := by
  cases rounds with
  | zero => exact tells_alone hm
  | succ k =>
    have hcondition : Moment.Known H ⟨n, .expression condition, m⟩ := known_of_values hm rfl
    refine tells_followedBy hcondition (ih _ .roundCondition) fun v m₁ hend _ hm₁ => ?_
    cases hv : v.isTruthy with
    | true =>
      have hbody : Moment.Known H ⟨n, .statement body, m₁⟩ := known_of_values hm₁ rfl
      refine tells_followedBy hbody (ih _ (.roundBody hend hv)) fun flow m₂ hbody' hflow hm₂ => ?_
      cases flow with
      | normal =>
        have hnext : Moment.Known H ⟨n, .loop condition body k, m₂⟩ := known_of_values hm₂ rfl
        exact tells_part hnext (ih _ (.nextRound hend hv hbody'))
      | broken => exact tells_alone ⟨hm₂, trivial⟩
      | returned w => exact tells_alone ⟨hm₂, hflow⟩
    | false => exact tells_alone ⟨hm₁, trivial⟩

theorem tells_topLevel (body : List Stmt) (hm : m.Known H)
    (ih : ∀ N, Part ⟨n, .topLevel body, m⟩ N → N.Preserves H) :
    Tells H (topLevel (.ofFuel n) body) m (Task.course n m (.topLevel body)) fun _ => True := by
  cases body with
  | nil => exact tells_alone ⟨hm, trivial⟩
  | cons s rest =>
    rw [topLevel]
    have hs : Moment.Known H ⟨n, .statement s, m⟩ := known_of_values hm rfl
    refine tells_followedBy hs (ih _ .topHead) fun flow m₁ hhead _ hm₁ => ?_
    have hrest : Moment.Known H ⟨n, .topLevel rest, m₁⟩ := known_of_values hm₁ rfl
    exact tells_part hrest (ih _ (.topTail hhead))

theorem tells_call {f : Function} {arguments : List Value}
    (hM : Moment.Known H ⟨n, .call f arguments, m⟩)
    (ih : ∀ N, Part ⟨n, .call f arguments, m⟩ N → N.Preserves H) :
    Tells H (callFunction (runBody n) f arguments) m
      [.part ⟨n, .statements f.routine.body, m.inCall f arguments⟩] (Value.Known H) := by
  have hm : m.Known H := hM.machine
  have harguments (v : Value) (hv : v ∈ arguments) : v.Known H :=
    hM.values v (List.mem_cons_of_mem _ hv)
  have hentered : (m.inCall f arguments).Known H :=
    (hm.enter (some f.closure) (f.routine.params.map (·.text)) harguments).congr rfl rfl
  have hbody : Moment.Known H ⟨n, .statements f.routine.body, m.inCall f arguments⟩ :=
    known_of_values hentered rfl
  refine ⟨ends_callFunction ?_, (tells_part hbody (ih _ .body)).parts⟩
  refine (ih _ .body hbody).mono (fun flow m' _ h => ⟨h.1.congr rfl rfl, ?_⟩)
    fun _ _ h => h.congr rfl rfl
  unfold callResult
  split
  · cases hthis : m'.frames.here? f.closure "this" with
    | none => exact trivial
    | some v => exact h.1.frames _ _ v hthis
  · exact h.2

theorem tells_apply {c : Callable} {arguments : List Value}
    (hH : H ⟨n, .apply c arguments, m⟩) (hM : Moment.Known H ⟨n, .apply c arguments, m⟩)
    (ih : ∀ N, Part ⟨n, .apply c arguments, m⟩ N → N.Preserves H) :
    Tells H (invokeWith n c arguments) m (Task.course n m (.apply c arguments)) (Value.Known H) := by
  have hm : m.Known H := hM.machine
  have harguments (v : Value) (hv : v ∈ arguments) : v.Known H :=
    hM.values v (List.mem_cons_of_mem _ hv)
  have hcall {k : Nat} (g : Function) {m : Machine} (hm : m.Known H) :
      Moment.Known H ⟨k, .call g arguments, m⟩ := by
    refine ⟨hm, fun v hv => ?_⟩
    rcases List.mem_cons.mp hv with rfl | hv
    · exact trivial
    · exact harguments v hv
  cases n with
  | zero => exact tells_alone hm
  | succ k =>
    cases c with
    | function f => exact tells_part (hcall f hm) (ih _ .function)
    | native g =>
      cases g
      exact tells_alone ⟨hm.congr rfl rfl, trivial⟩
    | «class» d =>
      have hi : (m.nextInstance d).Made H := ⟨hM.values _ List.mem_cons_self, _, hH, .intro⟩
      have hnew : newInstance d m = .ok (m.nextInstance d) m.withInstance := rfl
      have hbind (f : Function) :
          Moment.Known H ⟨k, .bind f (.instance (m.nextInstance d)), m.withInstance⟩ := by
        refine ⟨hm.withInstance, fun v hv => ?_⟩
        rcases List.mem_cons.mp hv with rfl | hv
        · exact trivial
        · cases List.mem_singleton.mp hv
          exact hi
      have hconstruct : Tells H (construct (runBody k) d arguments) m
          (Callable.course k m arguments (.class d)) (Value.Known H) := by
        rw [Callable.course]
        unfold construct
        refine tells_bind_of_ok hnew ?_
        cases hf : d.initializer? with
        | none => exact tells_alone ⟨hm.withInstance, hi⟩
        | some f =>
          refine tells_followedBy (hbind f) (ih _ (.constructBind hf)) fun g m₁ hg _ hm₁ => ?_
          exact tells_first (hcall g hm₁) (ih _ (.constructCall hf hg)) fun v m₂ _ hm₂ =>
            ends_pure ⟨hm₂, hi⟩
      exact hconstruct

end Tasks

end Eval

namespace Moment

variable {M N : Moment}

open Eval in
/-- What a known moment leads to is known, and its parts are. -/
theorem tells_course (hM : H M) (h : M.Known H) (ih : ∀ N, Part M N → N.Preserves H) :
    Tells H (M.task.perform M.fuel) M.machine M.course (M.task.Tells H) := by
  obtain ⟨n, task, m⟩ := M
  cases task with
  | expression e => exact tells_expression e h.machine ih
  | expressions es => exact tells_expressions es h.machine ih
  | statement s => exact tells_statement s h.machine hM ih
  | statements body => exact tells_statements body h.machine ih
  | declarators ds => exact tells_declarators ds h.machine ih
  | loop condition body rounds => exact tells_loop condition body rounds h.machine ih
  | topLevel body => exact tells_topLevel body h.machine ih
  | apply c arguments => exact tells_apply hM h ih
  | call f arguments => exact tells_call h ih
  | bind f self =>
    exact tells_alone ⟨h.machine.bound f (h.values self (by simp [Task.values])), trivial⟩

/-- **Evaluation makes no classes but those that are declared.** -/
theorem preserves_known (hH : ∀ M N, H M → Part M N → H N) (M : Moment) (hM : H M) :
    M.Preserves H := by
  induction M using Moment.induction with
  | _ M ih => exact fun h => (tells_course hM h fun N hN => ih N hN (hH M N hM hN)).ends

/-- The parts of a known moment are known. -/
theorem Known.part (h : M.Known H) (hH : ∀ M N, H M → Part M N → H N) (hM : H M) (hN : Part M N) :
    N.Known H :=
  (tells_course hM h fun K hK => preserves_known hH K (hH M K hM hK)).parts N hN.mem_course

/-- What a known moment holds while one of its parts is evaluated is known. -/
theorem Known.holds (h : M.Known H) (hH : ∀ M N, H M → Part M N → H N) (hM : H M) {v : Value}
    (hv : Part.Holds M N v) : v.Known H := by
  have hends {A : Moment} (hA : Part M A) {a : A.task.Result} {m₁ : Machine}
      (hend : A.ending = .ok a m₁) : A.task.Tells H a :=
    ((preserves_known hH A (hH M A hM hA) (h.part hH hM hA)).of_ok hend).2
  cases hv with
  | left hleft => exact hends .binaryLeft hleft
  | callee hcallee => exact hends .callee hcallee
  | argument hfirst => exact hends .first hfirst
  | receiver hobject => exact hends .setObject hobject
  | constructed => exact ⟨h.values (.callable (.class _)) List.mem_cons_self, _, hM, .intro⟩

end Moment

/-! ## Runs -/

namespace Machine.Known

variable {fuel : Nat} {p : Program} {N : Moment}
variable (h : m.Known H) (hH : ∀ M N, H M → Part M N → H N) (hruns : ∀ N, m.Runs fuel p N → H N)

include h hH hruns

theorem statements : Eval.Ends (Eval.topLevel (.ofFuel fuel) p.statements) m.home
    (fun _ m' => m'.Known H) fun _ m' => m'.Known H := by
  have hstart : Moment.Known H ⟨fuel, .topLevel p.statements, m.home⟩ :=
    Eval.known_of_values (h.congr rfl rfl) rfl
  exact (Moment.preserves_known hH _ (hruns _ Starts.statements.runs) hstart).mono
    (fun _ _ _ h => h.1) fun _ _ h => h

theorem starts (hN : m.Starts fuel p N) : N.Known H := by
  cases hN with
  | statements => exact Eval.known_of_values (h.congr rfl rfl) rfl
  | trailing _ hstatements =>
    exact Eval.known_of_values ((h.statements hH hruns).of_ok hstatements) rfl

/-- All moments of a run are known. -/
theorem runs (hN : m.Runs fuel p N) : N.Known H :=
  hN.induction (fun _ hM => h.starts hH hruns hM) fun _ _ hM hknown hpart =>
    hknown.part hH (hruns _ hM) hpart

/-- Whatever exists at a moment of a run is known. -/
theorem existing {vs : List Value} {v : Value} (hvs : ∀ v ∈ vs, v.Known H) (hN : m.Runs fuel p N)
    (hv : m.Existing fuel p vs N v) : v.Known H := by
  have hknown {M : Moment} (hM : m.Runs fuel p M) : M.Known H := h.runs hH hruns hM
  cases hv with
  | host hv => exact hvs v hv
  | «variable» hv => exact (hknown hN).machine.frames _ _ _ hv
  | field hv => exact (hknown hN).machine.fields _ _ _ hv
  | given hM hv _ => exact (hknown hM).values v hv
  | held hM hv _ => exact (hknown hM).holds hH (hruns _ hM) hv

/-- What is left by a run is known, and so is the value of the trailing expression. -/
theorem run : (m.run fuel p).2.Known H ∧
    ∀ v, (m.run fuel p).1 = .finished (some v) → v.Known H := by
  have hends : Eval.Ends (Eval.topLevel (.ofFuel fuel) p.statements >>= fun _ => finish fuel p) m.home
      (fun v m' => m'.Known H ∧ ∀ w, v = some w → w.Known H) fun _ m' => m'.Known H := by
    refine Eval.ends_bind (h.statements hH hruns) fun _ m₁ hstatements hm₁ => ?_
    unfold finish
    cases htrailing : p.trailing with
    | none => exact ⟨hm₁, nofun⟩
    | some e =>
      have hstart : m.Starts fuel p ⟨fuel, .expression e, m₁⟩ := .trailing htrailing hstatements
      have he := Moment.preserves_known hH _ (hruns _ hstart.runs) (h.starts hH hruns hstart)
      refine Eval.ends_map (he.mono (fun v m' _ hv => ⟨hv.1, fun w hw => ?_⟩) fun _ _ h => h)
      cases hw
      exact hv.2
  unfold Machine.run
  rw [program_eq]
  cases hend : (Eval.topLevel (.ofFuel fuel) p.statements >>= fun _ => finish fuel p) m.home with
  | ok v m' =>
    obtain ⟨hm', hv⟩ := hends.of_ok hend
    refine ⟨hm', fun w hw => hv w ?_⟩
    cases hw
    rfl
  | error stop m' => cases stop <;> exact ⟨hends.of_error hend, nofun⟩

end Machine.Known

end ScriptLang
