import ScriptLang.Proofs.Agreement.Fits

/-!
# Evaluation keeps scopes and frames together

If a moment fits a world, its end is good (`World.preserves`): the values it leads to were made
by functions whose closures are lodged in the right scopes, and so are all values that it leaves
on the machine. After an error this is still so, but the variables whose initializers were
given up have to be counted as pending from then on.

The proof is by induction over moments. `Fits.part` says that the parts of a moment fit, and
so their ends are good by the induction hypothesis (`Fits.ends`). What is left are the steps
that the machine does by itself between the parts.
-/

namespace ScriptLang

open Scoping (Place Visits Site Scope Phrase)

/-- Of all tasks, only declarators start initializers. -/
def Task.isDeclarators : Task → Bool
  | declarators _ => true
  | _ => false

namespace Moment

/-- An initializer that a part gave up was given up by the whole. -/
theorem Aborts.of_part {M N : Moment} (h : Part M N) {f : FrameId} {x : String}
    (hN : N.Aborts f x) : M.Aborts f x := by
  obtain ⟨N', I, hpath, hinit, hend⟩ := hN
  exact ⟨N', I, .head h hpath, hinit, hend⟩

end Moment

/-- A method comes from the class itself or from its superclass. -/
theorem Class.findMethod_cases {c : Class} {name : String} {f : Function}
    (h : c.findMethod name = some f) :
    c.methods.get? name = some f ∨ ∃ d, c.superclass = some d ∧ d.findMethod name = some f := by
  obtain ⟨id, className, superclass, methods⟩ := c
  cases superclass with
  | none =>
    rw [findMethod] at h
    exact .inl h
  | some d =>
    rw [findMethod] at h
    split at h
    · rename_i g hg
      cases h
      exact .inl hg
    · exact .inr ⟨d, rfl, h⟩

namespace World

variable {W : World} {pending aborted aborted' : Pending} {m : Machine}

theorem Stops.mono {stop : Abort} (h : W.Stops pending m aborted stop)
    (hsub : ∀ f x, aborted f x → aborted' f x) : W.Stops pending m aborted' stop := by
  cases stop with
  | outOfFuel => exact trivial
  | error e =>
    have hstands : W.Stands (fun f x => pending f x ∨ aborted f x) m := h
    exact hstands.more fun f x hp => hp.imp_right (hsub f x)

/-- A stop in which nothing was given up. -/
theorem Stands.stops (h : W.Stands pending m) (stop : Abort) : W.Stops pending m aborted stop := by
  cases stop with
  | outOfFuel => exact trivial
  | error e => exact h.more fun _ _ hp => .inl hp

theorem Stops.congr {stop : Abort} {m' : Machine} (h : W.Stops pending m aborted stop)
    (hframes : m'.frames = m.frames) (hfields : m'.fields = m.fields)
    (hglobals : m'.globals = m.globals) (hbindings : m'.bindings = m.bindings) :
    W.Stops pending m' aborted stop := by
  cases stop with
  | outOfFuel => exact trivial
  | error e => exact Stands.congr h hframes hfields hglobals hbindings

/-- A computation leaves a good machine and a result as `good` asks, or it stops, with only
the given initializers given up. -/
def Ensures {α : Type} (W : World) (pending aborted : Pending) (act : Eval α) (m : Machine)
    (good : α → Machine → Prop) : Prop :=
  Eval.Ends act m (fun a m' => W.Stands pending m' ∧ good a m')
    fun stop m' => W.Stops pending m' aborted stop

/-- The ends of the parts of a moment are good. -/
theorem Fits.ends_of {M N : Moment} (hM : W.Fits pending M) (h : Part M N)
    (ih : ∀ N, Part M N → W.Preserves N) (hinit : ∀ f x, ¬ M.Initializes f x N) :
    W.Ensures pending M.Aborts (N.task.perform N.fuel) N.machine
      fun a m' => W.Yields pending m' N.task a := by
  have hend := ih N h pending (hM.part h ih hinit)
  exact Eval.Ends.mono hend (fun _ _ _ hok => hok) fun _ _ hstop =>
    hstop.mono fun _ _ => .of_part h

/-- The parts that are no initializers. -/
theorem Fits.ends {M N : Moment} (hM : W.Fits pending M) (h : Part M N)
    (ih : ∀ N, Part M N → W.Preserves N) (hnone : M.task.isDeclarators = false) :
    W.Ensures pending M.Aborts (N.task.perform N.fuel) N.machine
      fun a m' => W.Yields pending m' N.task a := by
  refine hM.ends_of h ih fun f x hinit => ?_
  cases hinit
  cases hnone

/-! ## Steps of the machine -/

section Steps

variable {v : Value}

theorem good_of_isPlain {fs : Frames} (h : v.IsPlain) : W.Good fs pending v := by
  cases v with
  | callable c => exact h.elim
  | «instance» i => exact h.elim
  | _ => exact trivial

/-- A name of the current frame gets a good value. -/
theorem Stands.defining {name : String} (h : W.Stands pending m)
    (hv : W.Good (m.defining name v).frames pending v) (hfree : IsFree name) :
    W.Stands pending (m.defining name v) := by
  have hfs : m.frames.Extends (fun _ _ => True) (m.frames.define m.current name v) :=
    .of_define v (.inr trivial)
  exact h.define hfs (fun _ _ hp => .inr hp) hv (not_super_of_free hfree) fun _ => hfree

/-- A function that is bound to `this`. -/
theorem Stands.bound {n : Nat} {f : Function} {self : Value} (h : W.Stands pending m)
    (hhappens : W.happens ⟨n, .bind f self, m⟩) (hself : W.Good m.frames pending self) :
    W.Stands pending (Eval.boundMachine f self m) := by
  have hprovided : ∀ x ∈ ["this"], ¬ IsFree x → ∀ v ∈ [self], ∃ N, W.happens N ∧
      N.Provides m.frames.nextId x v := by
    intro x hx _ v hv
    cases List.mem_singleton.mp hx
    cases List.mem_singleton.mp hv
    exact ⟨_, hhappens, .this⟩
  have henter := h.enter (some f.closure) ["this"] [self] (by simpa using hself) (by simp) hprovided
  exact henter.congr rfl rfl rfl rfl

/-- A superclass is good. -/
theorem Stands.parent {superclass : Option Ref} {c : Class} (h : W.Stands pending m)
    (hparent : Eval.parentOf superclass m = .ok (some c) m) :
    W.GoodClass m.frames pending c := by
  rcases Eval.parentOf_ok hparent with ⟨-, ⟨-, hnone⟩ | ⟨ref, c', -, hc, hsuperclass⟩⟩
  · cases hnone
  · cases hc
    obtain ⟨-, hread⟩ := Eval.superclassOf_ok hsuperclass
    obtain ⟨-, f, hf⟩ := Eval.readVariable_ok hread
    exact h.values f _ _ hf

theorem Stands.methodMachine {parent : Option Class} (h : W.Stands pending m)
    (hparent : ∀ c, parent = some c → W.GoodClass m.frames pending c ∧
      ∃ N, W.happens N ∧ N.Provides m.frames.nextId "super" (.callable (.class c))) :
    W.Stands pending (Eval.methodMachine m parent) := by
  cases parent with
  | none => exact h
  | some c =>
    obtain ⟨hc, hprovides⟩ := hparent c rfl
    have hgood : W.Good m.frames pending (.callable (.class c)) := hc
    have hprovided : ∀ x ∈ ["super"], ¬ IsFree x → ∀ v ∈ [Value.callable (.class c)],
        ∃ N, W.happens N ∧ N.Provides m.frames.nextId x v := by
      intro x hx _ v hv
      cases List.mem_singleton.mp hx
      cases List.mem_singleton.mp hv
      exact hprovides
    have henter := h.enter (some m.current) ["super"] [.callable (.class c)]
      (by simpa using hgood) (by simp) hprovided
    exact henter.congr rfl rfl rfl rfl

/-- A class declaration leaves a good class. -/
theorem Stands.classMachine {n : Nat} {name : Lexeme} {superclass : Option Ref}
    {members : List Method} {parent : Option Class} {methods : Slots Function} {k : Nat}
    (hM : W.Fits pending ⟨n, .statement (.class name superclass members), m⟩)
    (hparent : Eval.parentOf superclass m = .ok parent m)
    (hmethods : ∀ method f, methods.get? method = some f →
      Eval.MadeFrom (Eval.methodClosure (m.defining name.text .nil) parent) members f) :
    W.Stands pending (Eval.classMachine name parent methods k m) := by
  have hat : W.At pending m (.statement (.class name superclass members)) := hM.suits
  have hfree : IsFree name.text := hat.wellFormed.1
  have hcurrent : m.current < m.frames.count := hat.current_lt hM.stands
  have hnamed : W.Stands pending (m.defining name.text .nil) := hM.stands.defining trivial hfree
  have hgrows : m.Grows [name.text] (m.defining name.text .nil) := .of_defining _ (by simp)
  have hsuper (c : Class) (hc : parent = some c) :
      W.GoodClass (m.defining name.text .nil).frames pending c := by
    subst hc
    have hgood : W.Good m.frames pending (.callable (.class c)) := hM.stands.parent hparent
    exact hgood.later hgrows
  have hprovides (c : Class) (hc : parent = some c) : ∃ N, W.happens N ∧
      N.Provides (m.defining name.text .nil).frames.nextId "super" (.callable (.class c)) := by
    subst hc
    rcases Eval.parentOf_ok hparent with ⟨-, ⟨-, hnone⟩ | ⟨ref, c', rfl, hc, hsuperclass⟩⟩
    · cases hnone
    · cases hc
      have hcount : (m.defining name.text .nil).frames.nextId = m.frames.nextId :=
        Frames.count_define ..
      rw [hcount]
      exact ⟨_, hM.happens, .super hsuperclass⟩
  have hinner := hnamed.methodMachine fun c hc => ⟨hsuper c hc, hprovides c hc⟩
  have hframe : (m.defining name.text .nil).Grows []
      (Eval.methodMachine (m.defining name.text .nil) parent) := .of_methodMachine
  refine World.Stands.congr (m := (Eval.methodMachine (m.defining name.text .nil) parent).defining
    name.text (.callable (.class ⟨k, name.text, parent, methods⟩))) (hinner.defining ?_ hfree)
    rfl rfl rfl rfl
  -- the methods of the class are its own ones and those of the superclass
  have hdefined : (Eval.methodMachine (m.defining name.text .nil) parent).frames.Extends
      (fun _ _ => True) ((Eval.methodMachine (m.defining name.text .nil) parent).defining
        name.text (.callable (.class ⟨k, name.text, parent, methods⟩))).frames :=
    .of_define _ (.inr trivial)
  intro method f hf
  refine GoodMethod.mono (.refl W) hdefined (fun _ _ hp => .inr hp) ?_
  rcases Class.findMethod_cases hf with hown | ⟨c, hc, hinherited⟩
  · exact hat.goodMethod hM.happens hparent hcurrent (hmethods method f hown)
  · have hgood : W.Good (m.defining name.text .nil).frames pending (.callable (.class c)) :=
      hsuper c hc
    exact hgood.later hframe method f hinherited

end Steps

/-! ## Computations of the machine -/

section Computations

open Eval

theorem ensures_readVariable {ref : Ref} (h : W.Stands pending m) :
    W.Ensures pending aborted (readVariable ref) m fun v m' => W.Good m'.frames pending v :=
  ends_readVariable (fun v f hf => ⟨h, h.values f _ v hf⟩) fun _ => h.stops _

theorem ensures_assignVariable {ref : Ref} {v : Value} (h : W.Stands pending m)
    (hv : W.Good m.frames pending v) (hfree : IsFree ref.word.text) :
    W.Ensures pending aborted (assignVariable ref v) m fun _ m' => W.Good m'.frames pending v := by
  refine ends_assignVariable (fun f hf => ?_) fun e => h.stops _
  have hfs : m.frames.Extends (fun _ _ => True) (m.frames.define f ref.word.text v) :=
    .of_define v (.inl hf)
  have hv' := Good.mono (.refl W) hfs (fun _ _ hp => .inr hp) hv
  exact ⟨h.define hfs (fun _ _ hp => .inr hp) hv' (not_super_of_free hfree) fun _ => hfree, hv'⟩

theorem ensures_setField {i : Instance} {property : Lexeme} {v : Value}
    (h : W.Stands pending m) (hv : W.Good m.frames pending v) :
    W.Ensures pending aborted (setField i property v) m fun _ m' => W.Good m'.frames pending v :=
  ⟨h.setField hv, hv⟩

theorem ensures_bindThis {n : Nat} {f : Function} {self : Value}
    (hM : W.Fits pending ⟨n, .bind f self, m⟩) :
    W.Ensures pending aborted (bindThis f self) m fun g m' =>
      W.GoodFunction m'.frames pending g ∧ g.routine = f.routine :=
  ends_bindThis ⟨hM.stands.bound hM.happens hM.suits.2, hM.suits.1.bound hM.happens, rfl⟩

end Computations

/-! ## The tasks -/

section Tasks

open Eval

variable {n : Nat}

theorem ensures_expression {e : Expr} (hM : W.Fits pending ⟨n, .expression e, m⟩)
    (ih : ∀ N, Part ⟨n, .expression e, m⟩ N → W.Preserves N) :
    W.Ensures pending (Moment.Aborts ⟨n, .expression e, m⟩) (expression (.ofFuel n) e) m
      fun v m' => W.Good m'.frames pending v := by
  have hat : W.At pending m (.expression e) := hM.suits
  have hstands : W.Stands pending m := hM.stands
  cases e with
  | literal value => exact ⟨hstands, good_of_isPlain value.isPlain_value⟩
  | «variable» ref => exact ensures_readVariable hstands
  | assign ref value =>
    rw [expression]
    refine ends_bind (hM.ends .assignValue ih rfl) fun v m₁ _ hv => ?_
    refine ends_bind (ensures_assignVariable hv.1 hv.2 hat.wellFormed.1) fun _ m₂ _ hv' => ?_
    exact ends_pure hv'
  | unary op sign operand =>
    rw [expression]
    refine ends_bind (hM.ends .unaryOperand ih rfl) fun v m₁ _ hv => ?_
    refine ends_ofOperator (fun w hw => ?_) fun _ => hv.1.stops _
    exact ⟨hv.1, good_of_isPlain (UnaryOp.isPlain_of_apply hw)⟩
  | binary op sign left right =>
    rw [expression]
    refine ends_bind (hM.ends .binaryLeft ih rfl) fun v m₁ hleft _ => ?_
    refine ends_bind (hM.ends (.binaryRight hleft) ih rfl) fun w m₂ _ hw => ?_
    refine ends_ofOperator (fun u hu => ?_) fun _ => hw.1.stops _
    exact ⟨hw.1, good_of_isPlain (BinaryOp.isPlain_of_apply hu)⟩
  | logical op sign left right =>
    rw [expression]
    refine ends_bind (hM.ends .logicalLeft ih rfl) fun v m₁ hleft hv => ?_
    cases hdecides : op.decides v with
    | true => exact hv
    | false => exact hM.ends (.logicalRight hleft hdecides) ih rfl
  | comma left right =>
    rw [expression]
    refine ends_bind (hM.ends .commaLeft ih rfl) fun v m₁ hleft _ => ?_
    exact hM.ends (.commaRight hleft) ih rfl
  | conditional condition whenTrue whenFalse =>
    rw [expression]
    refine ends_bind (hM.ends .condition ih rfl) fun v m₁ hcondition _ => ?_
    cases hv : v.isTruthy with
    | true => exact hM.ends (.whenTrue hcondition hv) ih rfl
    | false => exact hM.ends (.whenFalse hcondition hv) ih rfl
  | grouping inner => exact hM.ends .grouping ih rfl
  | call callee arguments closing =>
    rw [expression]
    refine ends_bind (hM.ends .callee ih rfl) fun v m₁ hcallee _ => ?_
    refine ends_bind (hM.ends (.arguments hcallee) ih rfl) fun vs m₂ harguments hvs => ?_
    refine ends_callValue (fun e => hvs.1.stops _) fun c hc harity hdepth => ?_
    subst hc
    have hend := hM.ends (.apply hcallee harguments harity hdepth) ih rfl
    exact Ends.mono hend (fun w m' _ hw => ⟨hw.1.congr rfl rfl rfl rfl, hw.2⟩)
      fun stop m' hstop => hstop.congr rfl rfl rfl rfl
  | get object property =>
    rw [expression]
    refine ends_bind (hM.ends .getObject ih rfl) fun v m₁ hobject hv => ?_
    refine ends_getOf (fun i w _ hw => ⟨hv.1, hv.1.field hw⟩) (fun i f hi hfield hf => ?_)
      fun e => hv.1.stops _
    subst hi
    have hend := hM.ends (.getBind hobject hfield hf) ih rfl
    exact Ends.mono hend (fun g m' _ hg => ⟨hg.1, hg.2.1⟩) fun _ _ hstop => hstop
  | set object property value =>
    rw [expression]
    refine ends_bind (hM.ends .setObject ih rfl) fun v m₁ hobject hv => ?_
    have hinstance : Ends (instanceOf v property) m₁ (fun i m' => v = .instance i ∧ m' = m₁)
        fun stop m' => W.Stops pending m'
          (Moment.Aborts ⟨n, .expression (.set object property value), m⟩) stop :=
      ends_instanceOf (fun i hi => ⟨hi, rfl⟩) fun e => hv.1.stops _
    refine ends_bind hinstance fun i m₂ _ hi => ?_
    obtain ⟨rfl, rfl⟩ := hi
    refine ends_bind (hM.ends (.setValue hobject) ih rfl) fun w m₃ _ hw => ?_
    exact ends_bind (ensures_setField hw.1 hw.2) fun _ m₄ _ hw' => ends_pure hw'
  | this ref => exact ensures_readVariable hstands
  | super ref method =>
    refine ends_superMethod (fun hops c f hhops hsuper hf => ?_) fun e => hstands.stops _
    have hend := hM.ends (.superBind hhops hsuper hf) ih rfl
    exact Ends.mono hend (fun g m' _ hg => ⟨hg.1, hg.2.1⟩) fun _ _ hstop => hstop
  | function routine =>
    have hsame : m.Grows [] m := .refl m
    refine ⟨hstands.congr rfl rfl rfl rfl, ?_⟩
    exact hat.goodFunction [] hsame
      (fun a S r => ⟨_, r, .function, Scoping.widened_nil_iff.mpr (Scoping.forall₂_sameNames_refl _)⟩)
      (by simp) (by simp) (by simp) m.made none

theorem ensures_expressions {es : List Expr} (hM : W.Fits pending ⟨n, .expressions es, m⟩)
    (ih : ∀ N, Part ⟨n, .expressions es, m⟩ N → W.Preserves N) :
    W.Ensures pending (Moment.Aborts ⟨n, .expressions es, m⟩) (expressions (.ofFuel n) es) m
      fun vs m' => ∀ v ∈ vs, W.Good m'.frames pending v := by
  cases es with
  | nil => exact ⟨hM.stands, by simp⟩
  | cons e es =>
    rw [expressions]
    refine ends_bind (hM.ends .first ih rfl) fun v m₁ hfirst hv => ?_
    refine ends_bind (hM.ends (.others hfirst) ih rfl) fun vs m₂ hothers hvs => ?_
    have hv' : W.Good m₂.frames pending v := Good.later hv.2 (grows_of_expressions hothers)
    refine ends_pure ⟨hvs.1, fun w hw => ?_⟩
    rcases List.mem_cons.mp hw with rfl | hw
    · exact hv'
    · exact hvs.2 w hw

theorem ensures_statement {s : Stmt} (hM : W.Fits pending ⟨n, .statement s, m⟩)
    (ih : ∀ N, Part ⟨n, .statement s, m⟩ N → W.Preserves N) :
    W.Ensures pending (Moment.Aborts ⟨n, .statement s, m⟩) (statement (.ofFuel n) s) m
      fun flow m' => W.GoodFlow m'.frames pending flow := by
  have hat : W.At pending m (.statement s) := hM.suits
  have hstands : W.Stands pending m := hM.stands
  cases s with
  | expression e =>
    rw [statement]
    exact ends_bind (hM.ends .evaluated ih rfl) fun v m₁ _ hv => ends_pure ⟨hv.1, trivial⟩
  | print e =>
    rw [statement]
    refine ends_bind (hM.ends .printed ih rfl) fun v m₁ _ hv => ?_
    have hprinted : W.Stands pending { m₁ with printed := m₁.printed.println v.display } :=
      hv.1.congr rfl rfl rfl rfl
    exact ends_bind_of_ok rfl (ends_pure ⟨hprinted, trivial⟩)
  | vars ds =>
    rw [statement]
    exact ends_bind (hM.ends .declared ih rfl) fun _ m₁ _ h => ends_pure ⟨h.1, trivial⟩
  | block body =>
    rw [statement]
    refine ends_bind_of_ok (a := m.current) rfl (ends_bind_of_ok rfl (ends_within ?_))
    have hend := hM.ends .block ih rfl
    exact Ends.mono hend (fun flow m' _ h => ⟨h.1.congr rfl rfl rfl rfl, h.2⟩)
      fun stop m' hstop => hstop.congr rfl rfl rfl rfl
  | ifElse condition whenTrue whenFalse =>
    cases whenFalse with
    | none =>
      rw [statement]
      refine ends_bind (hM.ends .choice ih rfl) fun v m₁ hcondition h => ?_
      cases hv : v.isTruthy with
      | true => exact hM.ends (.chosen hcondition hv) ih rfl
      | false => exact ⟨h.1, trivial⟩
    | some whenFalse =>
      rw [statement]
      refine ends_bind (hM.ends .choice ih rfl) fun v m₁ hcondition h => ?_
      cases hv : v.isTruthy with
      | true => exact hM.ends (.chosen hcondition hv) ih rfl
      | false => exact hM.ends (.alternative hcondition hv) ih rfl
  | whileLoop condition body => exact hM.ends .loop ih rfl
  | breakLoop keyword => exact ⟨hstands, trivial⟩
  | returnFrom keyword value =>
    cases value with
    | none => exact ⟨hstands, trivial⟩
    | some e =>
      rw [statement]
      exact ends_bind (hM.ends .returned ih rfl) fun v m₁ _ hv => ends_pure hv
  | function name routine =>
    rw [statement]
    refine ends_bind_of_ok (declaredFunction_eq _ _ m) (ends_bind_of_ok rfl ?_)
    obtain ⟨params, body⟩ := routine
    -- the function is closed in a frame that has its own name
    have hfree : IsFree name.text := hat.wellFormed.1
    have hcurrent := hat.current_lt hstands
    have hmade : W.Stands pending { m with made := m.made + 1 } := hstands.congr rfl rfl rfl rfl
    let v : Value := .callable (.function ⟨m.made, some name.text, ⟨params, body⟩, m.current, false⟩)
    have hgrows : m.Grows [name.text] (m.defining name.text v) := .of_defining v (by simp)
    have hgood : W.Good (m.defining name.text v).frames pending v := by
      refine hat.goodFunction [name.text] hgrows (fun a S r => ⟨_, _, .declaredFunction, ?_⟩)
        (fun x hx => ?_) (by simp) (by simp) m.made (some name.text)
      · have hdeclared : Scoping.Resolution.Grows [] [name.text] r
          ((r.declare name).define name) := Scoping.Resolution.grows_declareDefine name
        exact hdeclared.scopes
      · obtain rfl : x = name.text := by simpa using hx
        exact .inl (isSome_defining hcurrent ..)
    exact ends_pure ⟨hmade.defining hgood hfree, trivial⟩
  | «class» name superclass members =>
    rw [statement]
    have hclass : Ends (declareClass name superclass members) m (fun _ m' => W.Stands pending m')
        fun stop m' => W.Stops pending m'
          (Moment.Aborts ⟨n, .statement (.class name superclass members), m⟩) stop := by
      refine ends_declareClass (fun parent methods k hparent _ hmethods => ?_)
        fun e => hstands.stops _
      exact .classMachine hM hparent hmethods
    exact ends_bind hclass fun _ m₁ _ h => ends_pure ⟨h, trivial⟩

theorem ensures_statements {body : List Stmt} (hM : W.Fits pending ⟨n, .statements body, m⟩)
    (ih : ∀ N, Part ⟨n, .statements body, m⟩ N → W.Preserves N) :
    W.Ensures pending (Moment.Aborts ⟨n, .statements body, m⟩) (statements (.ofFuel n) body) m
      fun flow m' => W.GoodFlow m'.frames pending flow := by
  cases body with
  | nil => exact ⟨hM.stands, trivial⟩
  | cons s rest =>
    rw [statements]
    refine ends_bind (hM.ends .head ih rfl) fun flow m₁ hhead h => ?_
    cases flow with
    | normal => exact hM.ends (.tail hhead) ih rfl
    | broken => exact h
    | returned v => exact h

/-- If an initializer is given up, its variable is the one that may be missing. -/
theorem ensures_initializer {name : Lexeme} {e : Expr} {rest : List Declarator}
    (hM : W.Fits pending ⟨n, .declarators (⟨name, some e⟩ :: rest), m⟩)
    (ih : W.Preserves ⟨n, .expression e, m⟩) :
    Ends (expression (.ofFuel n) e) m (fun _ _ => True) fun stop m' =>
      W.Stops pending m' (Moment.Aborts ⟨n, .declarators (⟨name, some e⟩ :: rest), m⟩) stop := by
  refine ends_of (fun _ _ _ => trivial) fun stop m' hend => ?_
  have hstop := (ih _ hM.initializer).of_error hend
  cases stop with
  | outOfFuel => exact trivial
  | error error =>
    refine Stands.more (fun f x hp => ?_) hstop
    rcases hp with (hp | hp) | hp
    · exact .inl hp
    · exact .inr ⟨_, _, .refl, hp, error, m', hend⟩
    · exact .inr (.of_part .initializer hp)

theorem ensures_declarators {ds : List Declarator}
    (hM : W.Fits pending ⟨n, .declarators ds, m⟩)
    (ih : ∀ N, Part ⟨n, .declarators ds, m⟩ N → W.Preserves N) :
    W.Ensures pending (Moment.Aborts ⟨n, .declarators ds, m⟩) (declarators (.ofFuel n) ds) m
      fun _ _ => True := by
  cases ds with
  | nil => exact ⟨hM.stands, trivial⟩
  | cons declarator rest =>
    obtain ⟨name, initializer⟩ := declarator
    cases initializer with
    | none =>
      rw [declarators]
      exact ends_bind_of_ok rfl (hM.ends_of .afterName ih (by rintro _ _ ⟨⟩))
    | some e =>
      rw [declarators]
      refine ends_bind (ensures_initializer hM (ih _ .initializer)) fun v m₁ he _ => ?_
      refine ends_bind_of_ok rfl (hM.ends_of (.afterInitializer he) ih fun f x hinit => ?_)
      cases hinit

theorem ensures_loop {condition : Expr} {body : Stmt} {rounds : Nat}
    (hM : W.Fits pending ⟨n, .loop condition body rounds, m⟩)
    (ih : ∀ N, Part ⟨n, .loop condition body rounds, m⟩ N → W.Preserves N) :
    W.Ensures pending (Moment.Aborts ⟨n, .loop condition body rounds, m⟩)
      (Task.perform n (.loop condition body rounds)) m
      fun flow m' => W.GoodFlow m'.frames pending flow := by
  cases rounds with
  | zero => exact trivial
  | succ rounds =>
    refine ends_bind (hM.ends .roundCondition ih rfl) fun v m₁ hcondition h => ?_
    cases hv : v.isTruthy with
    | true =>
      refine ends_bind (hM.ends (.roundBody hcondition hv) ih rfl) fun flow m₂ hbody h' => ?_
      cases flow with
      | normal => exact hM.ends (.nextRound hcondition hv hbody) ih rfl
      | broken => exact ⟨h'.1, trivial⟩
      | returned w => exact h'
    | false => exact ⟨h.1, trivial⟩

theorem ensures_topLevel {body : List Stmt} (hM : W.Fits pending ⟨n, .topLevel body, m⟩)
    (ih : ∀ N, Part ⟨n, .topLevel body, m⟩ N → W.Preserves N) :
    W.Ensures pending (Moment.Aborts ⟨n, .topLevel body, m⟩) (topLevel (.ofFuel n) body) m
      fun _ _ => True := by
  cases body with
  | nil => exact ⟨hM.stands, trivial⟩
  | cons s rest =>
    rw [topLevel]
    refine ends_bind (hM.ends .topHead ih rfl) fun flow m₁ hhead _ => ?_
    exact hM.ends (.topTail hhead) ih rfl

theorem ensures_call {f : Function} {arguments : List Value}
    (hM : W.Fits pending ⟨n, .call f arguments, m⟩)
    (ih : ∀ N, Part ⟨n, .call f arguments, m⟩ N → W.Preserves N) :
    W.Ensures pending (Moment.Aborts ⟨n, .call f arguments, m⟩)
      (callFunction (runBody n) f arguments) m fun v m' => W.Good m'.frames pending v := by
  refine ends_callFunction (Ends.mono (hM.ends .body ih rfl) (fun flow m' _ h => ?_)
    fun stop m' hstop => hstop.congr rfl rfl rfl rfl)
  refine ⟨h.1.congr rfl rfl rfl rfl, ?_⟩
  unfold callResult
  split
  · cases hthis : m'.frames.here? f.closure "this" with
    | none => exact trivial
    | some v => exact h.1.values _ _ v hthis
  · cases flow with
    | normal => exact trivial
    | broken => exact trivial
    | returned v => exact h.2

theorem ensures_apply {c : Callable} {arguments : List Value}
    (hM : W.Fits pending ⟨n, .apply c arguments, m⟩)
    (ih : ∀ N, Part ⟨n, .apply c arguments, m⟩ N → W.Preserves N) :
    W.Ensures pending (Moment.Aborts ⟨n, .apply c arguments, m⟩) (invokeWith n c arguments) m
      fun v m' => W.Good m'.frames pending v := by
  refine ends_apply (fun _ => trivial) ?_ (fun x => ?_) ?_
  · rintro k f rfl rfl
    exact hM.ends .function ih rfl
  · exact ⟨hM.stands.congr rfl rfl rfl rfl, trivial⟩
  · rintro k c rfl rfl
    have hc : W.Good m.frames pending (.instance (m.nextInstance c)) := hM.suits.1
    refine ends_construct (fun _ => ⟨hM.stands.withInstance, hc⟩) fun f hf => ?_
    have hbind := hM.ends (.constructBind hf) ih rfl
    refine Ends.mono hbind (fun g m₁ hg _ => ?_) fun _ _ hstop => hstop
    have hcall := hM.ends (.constructCall hf hg) ih rfl
    refine Ends.mono hcall (fun v m' hend h => ⟨h.1, ?_⟩) fun _ _ hstop => hstop
    -- the instance is still good, since frames and values were only added
    have hgrows : m.Grows [] m' :=
      (Machine.Grows.of_withInstance.trans (Ends.of_ok keeps_bindThis hg)).trans
        (Ends.of_ok (Moment.keeps ⟨k, .call g arguments, m₁⟩) hend)
    exact hc.later hgrows

end Tasks

/-- **Evaluation keeps scopes and frames together.** If a moment fits, its end is good. -/
theorem preserves (W : World) (M : Moment) : W.Preserves M := by
  induction M using Moment.induction with
  | _ M ih =>
    intro pending hM
    obtain ⟨n, task, m⟩ := M
    cases task with
    | expression e => exact ensures_expression hM ih
    | expressions es => exact ensures_expressions hM ih
    | statement s => exact ensures_statement hM ih
    | statements body => exact ensures_statements hM ih
    | declarators ds => exact ensures_declarators hM ih
    | loop condition body rounds => exact ensures_loop hM ih
    | topLevel body => exact ensures_topLevel hM ih
    | apply c arguments => exact ensures_apply hM ih
    | call f arguments => exact ensures_call hM ih
    | bind f self => exact ensures_bindThis hM

end World

end ScriptLang
