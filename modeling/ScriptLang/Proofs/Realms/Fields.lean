import ScriptLang.Proofs.Evaluation.Course
import ScriptLang.Proofs.Realms.Runs

/-!
# Machines on the way through a course

Between the steps of a course a machine is quiet: there may be more instances, but all fields are as
they were (`Machine.Quiet`). The steps are parts, which leave some machine in the end, and fields
that are set, of instances that there are. So from the machine of a moment to the one that is left
there is a way through its course (`Moment.through_course`).

The value of a field depends on what was set last (`lastSet?`), and nothing but these steps sets a
field: reading and assigning variables, making functions and classes and giving methods their `this`
leave the fields alone (`Eval.Still`).
-/

namespace ScriptLang

/-! ## The value set last -/

/-- It is the field of the instance that is set. -/
def Setting.Hits (w : Setting) (i : Instance) (name : String) : Prop :=
  w.object.id = i.id ∧ w.name = name

instance (w : Setting) (i : Instance) (name : String) : Decidable (w.Hits i name) :=
  inferInstanceAs (Decidable (_ ∧ _))

/-- The value that a field was set to last. -/
def lastSet? (ws : List Setting) (i : Instance) (name : String) : Option Value :=
  (ws.reverse.find? fun w => w.Hits i name).map (·.value)

section LastSet

variable {ws : List Setting} {i : Instance} {name : String}

theorem lastSet?_append (ws ws' : List Setting) (i : Instance) (name : String) :
    lastSet? (ws ++ ws') i name = (lastSet? ws' i name).or (lastSet? ws i name) := by
  unfold lastSet?
  rw [List.reverse_append, List.find?_append, Option.map_or]

theorem lastSet?_singleton (w : Setting) (i : Instance) (name : String) :
    lastSet? [w] i name = if w.Hits i name then some w.value else none := by
  by_cases h : w.Hits i name <;> simp [lastSet?, h]

theorem lastSet?_eq_none (h : ∀ w ∈ ws, ¬ w.Hits i name) : lastSet? ws i name = none := by
  unfold lastSet?
  rw [Option.map_eq_none_iff, List.find?_eq_none]
  intro w hw
  simpa using h w (List.mem_reverse.mp hw)

end LastSet

/-! ## Quiet machines -/

namespace Machine

variable {m m₁ m₂ : Machine} {i : Instance} {name : String}

/-- The machine with a field set. -/
def setting (m : Machine) (w : Setting) : Machine :=
  { m with fields := m.fields.modify w.object.id (·.set w.name w.value) }

theorem field?_setting {w : Setting} (h : w.object.id < m.fields.size) (i : Instance)
    (name : String) :
    (m.setting w).field? i name = (lastSet? [w] i name).or (m.field? i name) := by
  rw [lastSet?_singleton]
  unfold field? setting Setting.Hits
  dsimp only
  rw [Array.getElem?_modify]
  by_cases hid : w.object.id = i.id
  · have hi : i.id < m.fields.size := hid ▸ h
    rw [if_pos hid, Array.getElem?_eq_getElem hi]
    by_cases hname : w.name = name
    · simp [hid, hname, Slots.get?_set]
    · simp [hname, Ne.symm hname, Slots.get?_set]
  · simp [hid]

/-- From the first machine to the second one no field was set. -/
structure Quiet (m m' : Machine) : Prop where
  size : m.fields.size ≤ m'.fields.size
  field? : ∀ i name, m'.field? i name = m.field? i name

theorem Quiet.trans (h₁ : m.Quiet m₁) (h₂ : m₁.Quiet m₂) : m.Quiet m₂ :=
  ⟨Nat.le_trans h₁.size h₂.size, fun i name => (h₂.field? i name).trans (h₁.field? i name)⟩

theorem Quiet.of_fields (h : m₁.fields = m.fields) : m.Quiet m₁ :=
  ⟨Nat.le_of_eq (congrArg Array.size h.symm), fun i name => by unfold Machine.field?; rw [h]⟩

theorem Quiet.refl (m : Machine) : m.Quiet m := .of_fields rfl

/-- A new instance has no fields. -/
theorem quiet_withInstance (m : Machine) : m.Quiet m.withInstance := by
  refine ⟨by simp [withInstance], fun i name => ?_⟩
  unfold Machine.field? withInstance
  dsimp only
  rw [Array.getElem?_push]
  split
  · rename_i hi
    rw [Array.getElem?_eq_none (Nat.le_of_eq hi.symm)]
    exact Slots.get?_empty _
  · rfl

end Machine

/-! ## Going through steps -/

open Machine (Quiet)

/-- The machine that a piece of evaluation leaves, with a result or without one. -/
def Moment.final (M : Moment) : Machine :=
  match M.ending with
  | .ok _ m => m
  | .error _ m => m

/-- What holds on the machine that evaluation leaves, with a result or without one. -/
theorem Moment.ends_final_iff {M : Moment} {P : Machine → Prop} :
    Eval.Ends (M.task.perform M.fuel) M.machine (fun _ m' => P m') (fun _ m' => P m') ↔
      P M.final := by
  unfold final
  constructor
  · intro h
    cases hend : M.ending with
    | ok a m' => exact h.of_ok hend
    | error stop m' => exact h.of_error hend
  · intro h
    refine Eval.ends_of (fun a m' hend => ?_) fun stop m' hend => ?_
    · rwa [show M.ending = .ok a m' from hend] at h
    · rwa [show M.ending = .error stop m' from hend] at h

/-- A step that leads from one machine to another. -/
inductive Step.Leads : Step → Machine → Machine → Prop
  | part (N : Moment) : Leads (.part N) N.machine N.final
  | set {w m} (h : w.object.id < m.fields.size) : Leads (.set w) m (m.setting w)

/-- The machine goes through the steps in turn, and is quiet in between. -/
inductive Through : Machine → List Step → Machine → Prop
  | done {m m'} (h : m.Quiet m') : Through m [] m'
  | step {m m₁ m₂ m' s steps} (h : m.Quiet m₁) (hstep : Step.Leads s m₁ m₂)
    (hrest : Through m₂ steps m') : Through m (s :: steps) m'

namespace Through

variable {m m₁ m' : Machine} {steps before rest : List Step} {N : Moment}

theorem quiet_left (hm : m.Quiet m₁) (h : Through m₁ steps m') : Through m steps m' := by
  cases h with
  | done h => exact .done (hm.trans h)
  | step h hstep hrest => exact .step (hm.trans h) hstep hrest

theorem quiet_right (h : Through m steps m₁) (hm : m₁.Quiet m') : Through m steps m' := by
  induction h with
  | done h => exact .done (h.trans hm)
  | step h hstep _ ih => exact .step h hstep (ih hm)

/-- Only the fields matter on the machines at both ends. -/
theorem congr {m₂ : Machine} (h : Through m₁ steps m₂) (hm : m₁.fields = m.fields)
    (hm' : m'.fields = m₂.fields) : Through m steps m' :=
  (h.quiet_left (.of_fields hm)).quiet_right (.of_fields hm')

theorem part (N : Moment) : Through N.machine [.part N] N.final :=
  .step (.refl _) (.part N) (.done (.refl _))

/-- The machine on which a part begins. -/
theorem machine (h : Through m (before ++ .part N :: rest) m') : Through m before N.machine := by
  induction before generalizing m with
  | nil =>
    cases h with
    | step h hstep _ =>
      cases hstep
      exact .done h
  | cons s before ih =>
    cases h with
    | step h hstep hrest => exact .step h hstep (ih hrest)

end Through

namespace Eval

variable {α β : Type} {act : Eval α} {next : α → Eval β} {m m₁ : Machine} {steps : List Step}

/-- The computation goes through the steps. -/
def Passes (act : Eval α) (m : Machine) (steps : List Step) : Prop :=
  Ends act m (fun _ m' => Through m steps m') fun _ m' => Through m steps m'

/-- The computation does not touch the fields. -/
def Still (act : Eval α) (m : Machine) : Prop :=
  Ends act m (fun _ m' => m'.fields = m.fields) fun _ m' => m'.fields = m.fields

/-! ### Computations that do not touch the fields -/

theorem still_pure {a : α} : Still (pure a) m := rfl

theorem still_bind (h : Still act m) (hnext : ∀ a m₁, Still (next a) m₁) :
    Still (act >>= next) m :=
  ends_bind h fun a m₁ _ hm₁ => Ends.mono (hnext a m₁) (fun _ _ _ h => h.trans hm₁)
    fun _ _ h => h.trans hm₁

theorem still_readVariable {ref : Ref} : Still (readVariable ref) m :=
  ends_readVariable (fun _ _ _ => rfl) fun _ => rfl

theorem still_assignVariable {ref : Ref} {v : Value} : Still (assignVariable ref v) m :=
  ends_assignVariable (fun _ _ => rfl) fun _ => rfl

theorem still_ofOperator {sign : Lexeme} {r : Except RunFault Value} : Still (ofOperator sign r) m :=
  ends_ofOperator (fun _ _ => rfl) fun _ => rfl

theorem still_getOf {v : Value} {property : Lexeme} : Still (getOf v property) m :=
  ends_getOf (fun _ _ _ _ => rfl) (fun _ _ _ _ _ => rfl) fun _ => rfl

theorem still_superMethod {ref : Ref} {method : Lexeme} : Still (superMethod ref method) m :=
  ends_superMethod (fun _ _ _ _ _ _ => rfl) fun _ => rfl

theorem still_declareClass {name : Lexeme} {superclass : Option Ref} {members : List Method} :
    Still (declareClass name superclass members) m :=
  ends_declareClass (fun parent _ _ _ _ _ => by cases parent <;> rfl) fun _ => rfl

/-! ### Rules -/

theorem Still.passes (h : Still act m) : Passes act m [] :=
  Ends.mono h (fun _ _ _ h => .done (.of_fields h)) fun _ _ h => .done (.of_fields h)

theorem passes_part (N : Moment) : Passes (N.task.perform N.fuel) N.machine [.part N] :=
  Moment.ends_final_iff.mpr (Through.part N)

/-- A part, and then what follows if it comes to its end. -/
theorem passes_followedBy (N : Moment) {next : N.task.Result → Eval β}
    {steps : N.task.Result → Machine → List Step}
    (h : ∀ a m₁, N.ending = .ok a m₁ → Passes (next a) m₁ (steps a m₁)) :
    Passes (N.task.perform N.fuel >>= next) N.machine (N.followedBy steps) := by
  have hstep {m₁ m' : Machine} {rest : List Step} (hfinal : N.final = m₁)
      (hrest : Through m₁ rest m') : Through N.machine (.part N :: rest) m' :=
    .step (.refl _) (.part N) (hfinal ▸ hrest)
  unfold Moment.followedBy
  refine ends_bind (ends_of (fun a m' hend => ?_) fun stop m' hend => ?_) fun a m₁ hend hm₁ => hm₁
  · have hend' : N.ending = .ok a m' := hend
    have hfinal : N.final = m' := by unfold Moment.final; rw [hend']
    rw [hend']
    exact Ends.mono (h a m' hend) (fun _ _ _ hrest => hstep hfinal hrest)
      fun _ _ hrest => hstep hfinal hrest
  · have hend' : N.ending = .error stop m' := hend
    have hfinal : N.final = m' := by unfold Moment.final; rw [hend']
    rw [hend']
    exact hstep hfinal (.done (.refl _))

/-- Only a part, after which no field is touched. -/
theorem passes_first (N : Moment) {next : N.task.Result → Eval β}
    (h : ∀ a m₁, Still (next a) m₁) :
    Passes (N.task.perform N.fuel >>= next) N.machine [.part N] :=
  ends_bind (passes_part N) fun a m₁ _ hm₁ =>
    Ends.mono (h a m₁) (fun _ _ _ h => hm₁.quiet_right (.of_fields h))
      fun _ _ h => hm₁.quiet_right (.of_fields h)

/-- Something quiet comes first. -/
theorem passes_bind_of_ok {a : α} (h : act m = .ok a m₁) (hm : m.Quiet m₁)
    (hnext : Passes (next a) m₁ steps) : Passes (act >>= next) m steps :=
  ends_bind_of_ok h (Ends.mono hnext (fun _ _ _ h => h.quiet_left hm) fun _ _ h => h.quiet_left hm)

/-- A method that gets its `this` does not touch the fields. -/
theorem Still.passes_bindingSteps {n : Nat} {method : Option Function} {self : Value}
    (h : Still act m) : Passes act m (bindingSteps n method self m) := by
  cases method with
  | none => exact h.passes
  | some f =>
    have hpart : Through m [.part ⟨n, .bind f self, m⟩] m :=
      .step (.refl _) (.part _) (.done (.of_fields rfl))
    exact Ends.mono h (fun _ _ _ h => hpart.quiet_right (.of_fields h))
      fun _ _ h => hpart.quiet_right (.of_fields h)

/-! ## The course of each task -/

section Tasks

variable {n : Nat}

theorem passes_callValue {v : Value} {arguments : List Value} {closing : Lexeme} :
    Passes (callValue (invokeWith n) v arguments closing) m
      (callingSteps n v arguments m) := by
  cases v with
  | callable c =>
    rw [callingSteps]
    split
    · rename_i hfits
      unfold callValue
      simp only [hfits.1, ne_eq, not_true_eq_false, if_false]
      refine ends_deeper (fun hdeep => absurd hfits.2 (Nat.not_lt.mpr hdeep)) fun _ => ?_
      exact Ends.mono (passes_part ⟨n, .apply c arguments, m.deeper⟩)
        (fun _ _ _ h => h.congr rfl rfl) fun _ _ h => h.congr rfl rfl
    · rename_i hfits
      have hstill : Still (callValue (invokeWith n) (.callable c) arguments closing) m :=
        ends_callValue (fun _ => rfl) fun c' hc harity hdepth => by
          cases hc
          exact absurd ⟨harity, hdepth⟩ hfits
      exact hstill.passes
  | _ => exact Still.passes rfl

theorem passes_set {i : Instance} {property : Lexeme} {w : Value} (hi : i.id < m.fields.size) :
    Passes (setField i property w >>= fun _ => pure w) m [.set ⟨i, property.text, w⟩] :=
  Through.step (.refl m) (.set (w := ⟨i, property.text, w⟩) hi) (.done (.refl _))

theorem passes_expression (e : Expr)
    (hset : ∀ object property value i m₁, e = .set object property value →
      expression (.ofFuel n) object m = .ok (.instance i) m₁ → i.id < m₁.fields.size) :
    Passes (expression (.ofFuel n) e) m (e.course n m) := by
  cases e with
  | literal value => exact still_pure.passes
  | «variable» ref => exact still_readVariable.passes
  | assign ref value =>
    rw [expression]
    exact passes_first ⟨n, .expression value, m⟩ fun v m₁ =>
      still_bind still_assignVariable fun _ _ => still_pure
  | unary op sign operand =>
    rw [expression]
    exact passes_first ⟨n, .expression operand, m⟩ fun v m₁ => still_ofOperator
  | binary op sign left right =>
    rw [expression]
    exact passes_followedBy ⟨n, .expression left, m⟩ fun v m₁ _ =>
      passes_first ⟨n, .expression right, m₁⟩ fun w m₂ => still_ofOperator
  | logical op sign left right =>
    rw [expression]
    refine passes_followedBy ⟨n, .expression left, m⟩ fun v m₁ _ => ?_
    cases op.decides v with
    | true => exact still_pure.passes
    | false => exact passes_part ⟨n, .expression right, m₁⟩
  | comma left right =>
    rw [expression]
    exact passes_followedBy ⟨n, .expression left, m⟩ fun v m₁ _ =>
      passes_part ⟨n, .expression right, m₁⟩
  | conditional condition whenTrue whenFalse =>
    rw [expression]
    refine passes_followedBy ⟨n, .expression condition, m⟩ fun v m₁ _ => ?_
    cases v.isTruthy with
    | true => exact passes_part ⟨n, .expression whenTrue, m₁⟩
    | false => exact passes_part ⟨n, .expression whenFalse, m₁⟩
  | grouping inner => exact passes_part ⟨n, .expression inner, m⟩
  | call callee arguments closing =>
    rw [expression]
    refine passes_followedBy ⟨n, .expression callee, m⟩ fun v m₁ _ => ?_
    exact passes_followedBy ⟨n, .expressions arguments, m₁⟩ fun vs m₂ _ => passes_callValue
  | get object property =>
    rw [expression]
    refine passes_followedBy ⟨n, .expression object, m⟩ fun v m₁ _ => ?_
    cases v with
    | «instance» i =>
      dsimp only
      cases m₁.field? i property.text with
      | some w => exact still_getOf.passes
      | none => exact still_getOf.passes_bindingSteps
    | _ => exact still_getOf.passes
  | set object property value =>
    rw [expression]
    refine passes_followedBy ⟨n, .expression object, m⟩ fun v m₁ hobject => ?_
    cases v with
    | «instance» i =>
      refine passes_bind_of_ok (a := i) rfl (.refl m₁) ?_
      refine passes_followedBy ⟨n, .expression value, m₁⟩ fun w m₂ hvalue => passes_set ?_
      -- the instance was there before the value was evaluated
      have hgrows := Ends.of_ok (Moment.keeps ⟨n, .expression value, m₁⟩) hvalue
      exact Nat.lt_of_lt_of_le (hset _ _ _ i m₁ rfl hobject) hgrows.fields
    | _ => exact Still.passes rfl
  | this ref => exact still_readVariable.passes
  | super ref method =>
    rw [expression, Expr.course]
    cases m.bindings.hops? ref.id with
    | none => exact still_superMethod.passes
    | some hops =>
      dsimp only
      split
      · exact still_superMethod.passes_bindingSteps
      · exact still_superMethod.passes
  | function routine => exact Still.passes rfl

theorem passes_statement (s : Stmt) : Passes (statement (.ofFuel n) s) m (s.course n m) := by
  cases s with
  | expression e =>
    rw [statement]
    exact passes_first ⟨n, .expression e, m⟩ fun _ _ => still_pure
  | print e =>
    rw [statement]
    refine passes_first ⟨n, .expression e, m⟩ fun v m₁ => ?_
    have hprint : Still (println v.display) m₁ := rfl
    exact still_bind hprint fun _ _ => still_pure
  | vars ds =>
    rw [statement]
    exact passes_first ⟨n, .declarators ds, m⟩ fun _ _ => still_pure
  | block body =>
    rw [statement]
    refine ends_bind_of_ok (a := m.current) rfl (ends_bind_of_ok rfl (ends_within ?_))
    exact Ends.mono (passes_part ⟨n, .statements body, m.inBlock⟩)
      (fun _ _ _ h => h.congr rfl rfl) fun _ _ h => h.congr rfl rfl
  | ifElse condition whenTrue whenFalse =>
    cases whenFalse with
    | none =>
      rw [statement]
      refine passes_followedBy ⟨n, .expression condition, m⟩ fun v m₁ _ => ?_
      cases v.isTruthy with
      | true => exact passes_part ⟨n, .statement whenTrue, m₁⟩
      | false => exact still_pure.passes
    | some whenFalse =>
      rw [statement]
      refine passes_followedBy ⟨n, .expression condition, m⟩ fun v m₁ _ => ?_
      cases v.isTruthy with
      | true => exact passes_part ⟨n, .statement whenTrue, m₁⟩
      | false => exact passes_part ⟨n, .statement whenFalse, m₁⟩
  | whileLoop condition body => exact passes_part ⟨n, .loop condition body n, m⟩
  | breakLoop keyword => exact still_pure.passes
  | returnFrom keyword value =>
    cases value with
    | none => exact still_pure.passes
    | some e =>
      rw [statement]
      exact passes_first ⟨n, .expression e, m⟩ fun _ _ => still_pure
  | function name routine => exact Still.passes rfl
  | «class» name superclass members =>
    rw [statement]
    exact (still_bind still_declareClass fun _ _ => still_pure).passes

theorem passes_expressions (es : List Expr) :
    Passes (expressions (.ofFuel n) es) m (Task.course n m (.expressions es)) := by
  cases es with
  | nil => exact still_pure.passes
  | cons e es =>
    rw [expressions]
    refine passes_followedBy ⟨n, .expression e, m⟩ fun v m₁ _ => ?_
    exact passes_first ⟨n, .expressions es, m₁⟩ fun _ _ => still_pure

theorem passes_statements (body : List Stmt) :
    Passes (statements (.ofFuel n) body) m (Task.course n m (.statements body)) := by
  cases body with
  | nil => exact still_pure.passes
  | cons s rest =>
    rw [statements]
    refine passes_followedBy ⟨n, .statement s, m⟩ fun flow m₁ _ => ?_
    cases flow with
    | normal => exact passes_part ⟨n, .statements rest, m₁⟩
    | broken => exact still_pure.passes
    | returned v => exact still_pure.passes

theorem passes_declarators (ds : List Declarator) :
    Passes (declarators (.ofFuel n) ds) m (Declarator.courseOfAll n m ds) := by
  cases ds with
  | nil => exact still_pure.passes
  | cons declarator rest =>
    obtain ⟨name, initializer⟩ := declarator
    cases initializer with
    | none =>
      rw [declarators]
      exact passes_bind_of_ok rfl (.of_fields rfl)
        (passes_part ⟨n, .declarators rest, m.defining name.text .nil⟩)
    | some e =>
      rw [declarators]
      refine passes_followedBy ⟨n, .expression e, m⟩ fun v m₁ _ => ?_
      exact passes_bind_of_ok rfl (.of_fields rfl)
        (passes_part ⟨n, .declarators rest, m₁.defining name.text v⟩)

theorem passes_loop (condition : Expr) (body : Stmt) (rounds : Nat) :
    Passes (Task.perform n (.loop condition body rounds)) m
      (Task.course n m (.loop condition body rounds)) := by
  cases rounds with
  | zero => exact Still.passes rfl
  | succ k =>
    refine passes_followedBy ⟨n, .expression condition, m⟩ fun v m₁ _ => ?_
    cases v.isTruthy with
    | true =>
      refine passes_followedBy ⟨n, .statement body, m₁⟩ fun flow m₂ _ => ?_
      cases flow with
      | normal => exact passes_part ⟨n, .loop condition body k, m₂⟩
      | broken => exact still_pure.passes
      | returned w => exact still_pure.passes
    | false => exact still_pure.passes

theorem passes_topLevel (body : List Stmt) :
    Passes (topLevel (.ofFuel n) body) m (Task.course n m (.topLevel body)) := by
  cases body with
  | nil => exact still_pure.passes
  | cons s rest =>
    rw [topLevel]
    refine passes_followedBy ⟨n, .statement s, m⟩ fun flow m₁ _ => ?_
    exact passes_part ⟨n, .topLevel rest, m₁⟩

theorem passes_call {f : Function} {arguments : List Value} :
    Passes (callFunction (runBody n) f arguments) m
      [.part ⟨n, .statements f.routine.body, m.inCall f arguments⟩] :=
  ends_callFunction (Ends.mono (passes_part ⟨n, .statements f.routine.body, m.inCall f arguments⟩)
    (fun _ _ _ h => h.congr rfl rfl) fun _ _ h => h.congr rfl rfl)

theorem passes_construct {c : Class} {arguments : List Value} :
    Passes (construct (runBody n) c arguments) m (Callable.course n m arguments (.class c)) := by
  have hnew : newInstance c m = .ok (m.nextInstance c) m.withInstance := rfl
  rw [Callable.course]
  unfold construct
  refine passes_bind_of_ok hnew m.quiet_withInstance ?_
  cases c.initializer? with
  | none => exact still_pure.passes
  | some f =>
    let N : Moment := ⟨n, .bind f (.instance (m.nextInstance c)), m.withInstance⟩
    refine passes_followedBy N fun g m₁ _ => ?_
    exact passes_first ⟨n, .call g arguments, m₁⟩ fun _ _ => still_pure

theorem passes_apply {c : Callable} {arguments : List Value} :
    Passes (invokeWith n c arguments) m (Task.course n m (.apply c arguments)) := by
  cases n with
  | zero => exact Still.passes rfl
  | succ k =>
    cases c with
    | function f => exact passes_part ⟨k, .call f arguments, m⟩
    | native f =>
      cases f
      exact Still.passes rfl
    | «class» c => exact passes_construct

end Tasks

end Eval

/-- Evaluation sets fields of instances that there are. -/
theorem Realm.Fits.set_lt {R : Realm} {n : Nat} {object value : Expr} {property : Lexeme}
    {m m₁ : Machine} {i : Instance}
    (h : R.Fits ⟨n, .expression (.set object property value), m⟩)
    (hobject : Eval.expression (.ofFuel n) object m = .ok (.instance i) m₁) :
    i.id < m₁.fields.size := by
  have hfits : R.Fits ⟨n, .expression object, m⟩ := h.first .setObject rfl trivial
  obtain ⟨-, -, hi, -⟩ := hfits.after (R.preserves _) hobject
  exact hi.2.1

open Eval in
/-- **A machine goes through the course of what is evaluated on it.** -/
theorem Moment.through_course {R : Realm} {M : Moment} (h : R.Fits M) :
    Through M.machine M.course M.final := by
  refine ends_final_iff.mp ?_
  obtain ⟨n, task, m⟩ := M
  cases task with
  | expression e =>
    refine passes_expression e fun object property value i m₁ he hobject => ?_
    subst he
    exact h.set_lt hobject
  | expressions es => exact passes_expressions es
  | statement s => exact passes_statement s
  | statements body => exact passes_statements body
  | declarators ds => exact passes_declarators ds
  | loop condition body rounds => exact passes_loop condition body rounds
  | topLevel body => exact passes_topLevel body
  | apply c arguments => exact passes_apply
  | call f arguments => exact passes_call
  | bind f self => exact Still.passes rfl

end ScriptLang
