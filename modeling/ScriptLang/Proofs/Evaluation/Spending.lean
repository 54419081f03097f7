import ScriptLang.Proofs.Evaluation.Control

/-!
# Where fuel runs out

Fuel is what keeps the evaluator total. A call spends a unit of it, and a loop may have as many
rounds as there is fuel. Fuel runs out only where a call has none left or a loop has no round left:
everything else ends if its parts do (`Moment.lasts_of_parts`).

Calls are not nested deeper than the machine allows, and every call that is nested in others has
spent no more than they have. So whoever starts with as much fuel as calls are allowed has some left
for every call (`Part.affords`).
-/

namespace ScriptLang

namespace Eval

variable {α β : Type} {m : Machine}

/-- The computation ends without running out of fuel. -/
def Lasts (act : Eval α) (m : Machine) : Prop :=
  Ends act m (fun _ _ => True) fun stop _ => stop ≠ .outOfFuel

theorem error_ne_outOfFuel (e : RunError) : Abort.error e ≠ .outOfFuel := by rintro ⟨⟩

theorem lasts_bind {act : Eval α} {next : α → Eval β} (h : Lasts act m)
    (hnext : ∀ a m', act m = .ok a m' → Lasts (next a) m') : Lasts (act >>= next) m :=
  ends_bind h fun a m' ha _ => hnext a m' ha

end Eval

/-- The evaluation that starts at the moment ends without running out of fuel. -/
def Moment.Lasts (M : Moment) : Prop := Eval.Lasts (M.task.perform M.fuel) M.machine

/-! ## What lasts if its parts do -/

section Tasks

open Eval

variable {n : Nat} {m : Machine}

theorem lasts_expression {e : Expr}
    (hparts : ∀ N, Part ⟨n, .expression e, m⟩ N → N.Lasts) :
    Lasts (expression (.ofFuel n) e) m := by
  cases e with
  | literal value => exact trivial
  | «variable» ref =>
    exact ends_readVariable (fun _ _ _ => trivial) fun _ => error_ne_outOfFuel _
  | assign ref value =>
    rw [expression]
    refine lasts_bind (hparts _ .assignValue) fun v m₁ _ => ?_
    have hassign : Lasts (assignVariable ref v) m₁ :=
      ends_assignVariable (fun _ _ => trivial) fun _ => error_ne_outOfFuel _
    exact lasts_bind hassign fun _ m₂ _ => trivial
  | unary op sign operand =>
    rw [expression]
    refine lasts_bind (hparts _ .unaryOperand) fun v m₁ _ => ?_
    exact ends_ofOperator (fun _ _ => trivial) fun _ => error_ne_outOfFuel _
  | binary op sign left right =>
    rw [expression]
    refine lasts_bind (hparts _ .binaryLeft) fun v m₁ hleft => ?_
    refine lasts_bind (hparts _ (.binaryRight hleft)) fun w m₂ _ => ?_
    exact ends_ofOperator (fun _ _ => trivial) fun _ => error_ne_outOfFuel _
  | logical op sign left right =>
    rw [expression]
    refine lasts_bind (hparts _ .logicalLeft) fun v m₁ hleft => ?_
    cases hdecides : op.decides v with
    | true => exact trivial
    | false => exact hparts _ (.logicalRight hleft hdecides)
  | comma left right =>
    rw [expression]
    exact lasts_bind (hparts _ .commaLeft) fun v m₁ hleft => hparts _ (.commaRight hleft)
  | conditional condition whenTrue whenFalse =>
    rw [expression]
    refine lasts_bind (hparts _ .condition) fun v m₁ hcondition => ?_
    cases hv : v.isTruthy with
    | true => exact hparts _ (.whenTrue hcondition hv)
    | false => exact hparts _ (.whenFalse hcondition hv)
  | grouping inner => exact hparts _ .grouping
  | call callee arguments closing =>
    rw [expression]
    refine lasts_bind (hparts _ .callee) fun v m₁ hcallee => ?_
    refine lasts_bind (hparts _ (.arguments hcallee)) fun vs m₂ harguments => ?_
    refine ends_callValue (fun _ => error_ne_outOfFuel _) fun c hc harity hdepth => ?_
    subst hc
    exact hparts _ (.apply hcallee harguments harity hdepth)
  | get object property =>
    rw [expression]
    refine lasts_bind (hparts _ .getObject) fun v m₁ hobject => ?_
    exact ends_getOf (fun _ _ _ _ => trivial) (fun _ _ _ _ _ => trivial)
      fun _ => error_ne_outOfFuel _
  | set object property value =>
    rw [expression]
    refine lasts_bind (hparts _ .setObject) fun v m₁ hobject => ?_
    have hinstance : Ends (instanceOf v property) m₁ (fun i m' => v = .instance i ∧ m' = m₁)
        fun stop _ => stop ≠ .outOfFuel :=
      ends_instanceOf (fun i hi => ⟨hi, rfl⟩) fun _ => error_ne_outOfFuel _
    refine ends_bind hinstance fun i m₂ _ hi => ?_
    obtain ⟨rfl, rfl⟩ := hi
    exact lasts_bind (hparts _ (.setValue hobject)) fun w m₃ _ => trivial
  | this ref =>
    exact ends_readVariable (fun _ _ _ => trivial) fun _ => error_ne_outOfFuel _
  | super ref method =>
    exact ends_superMethod (fun _ _ _ _ _ _ => trivial) fun _ => error_ne_outOfFuel _
  | function routine => exact trivial

theorem lasts_expressions {es : List Expr}
    (hparts : ∀ N, Part ⟨n, .expressions es, m⟩ N → N.Lasts) :
    Lasts (expressions (.ofFuel n) es) m := by
  cases es with
  | nil => exact trivial
  | cons e es =>
    rw [expressions]
    refine lasts_bind (hparts _ .first) fun v m₁ hfirst => ?_
    exact lasts_bind (hparts _ (.others hfirst)) fun vs m₂ _ => trivial

theorem lasts_statement {s : Stmt}
    (hparts : ∀ N, Part ⟨n, .statement s, m⟩ N → N.Lasts) :
    Lasts (statement (.ofFuel n) s) m := by
  cases s with
  | expression e =>
    rw [statement]
    exact lasts_bind (hparts _ .evaluated) fun v m₁ _ => trivial
  | print e =>
    rw [statement]
    exact lasts_bind (hparts _ .printed) fun v m₁ _ => trivial
  | vars ds =>
    rw [statement]
    exact lasts_bind (hparts _ .declared) fun _ m₁ _ => trivial
  | block body =>
    rw [statement]
    refine ends_bind_of_ok (a := m.current) rfl (ends_bind_of_ok rfl (ends_within ?_))
    exact hparts _ .block
  | ifElse condition whenTrue whenFalse =>
    cases whenFalse with
    | none =>
      rw [statement]
      refine lasts_bind (hparts _ .choice) fun v m₁ hcondition => ?_
      cases hv : v.isTruthy with
      | true => exact hparts _ (.chosen hcondition hv)
      | false => exact trivial
    | some whenFalse =>
      rw [statement]
      refine lasts_bind (hparts _ .choice) fun v m₁ hcondition => ?_
      cases hv : v.isTruthy with
      | true => exact hparts _ (.chosen hcondition hv)
      | false => exact hparts _ (.alternative hcondition hv)
  | whileLoop condition body => exact hparts _ .loop
  | breakLoop keyword => exact trivial
  | returnFrom keyword value =>
    cases value with
    | none => exact trivial
    | some e =>
      rw [statement]
      exact lasts_bind (hparts _ .returned) fun v m₁ _ => trivial
  | function name routine => exact trivial
  | «class» name superclass members =>
    rw [statement]
    have hclass : Lasts (declareClass name superclass members) m :=
      ends_declareClass (fun _ _ _ _ _ _ => trivial) fun _ => error_ne_outOfFuel _
    exact lasts_bind hclass fun _ m₁ _ => trivial

theorem lasts_statements {body : List Stmt}
    (hparts : ∀ N, Part ⟨n, .statements body, m⟩ N → N.Lasts) :
    Lasts (statements (.ofFuel n) body) m := by
  cases body with
  | nil => exact trivial
  | cons s rest =>
    rw [statements]
    refine lasts_bind (hparts _ .head) fun flow m₁ hhead => ?_
    cases flow with
    | normal => exact hparts _ (.tail hhead)
    | broken => exact trivial
    | returned v => exact trivial

theorem lasts_declarators {ds : List Declarator}
    (hparts : ∀ N, Part ⟨n, .declarators ds, m⟩ N → N.Lasts) :
    Lasts (declarators (.ofFuel n) ds) m := by
  cases ds with
  | nil => exact trivial
  | cons declarator rest =>
    obtain ⟨name, initializer⟩ := declarator
    cases initializer with
    | none =>
      rw [declarators]
      exact ends_bind_of_ok rfl (hparts _ .afterName)
    | some e =>
      rw [declarators]
      refine lasts_bind (hparts _ .initializer) fun v m₁ he => ?_
      exact ends_bind_of_ok rfl (hparts _ (.afterInitializer he))

theorem lasts_loop {condition : Expr} {body : Stmt} {rounds : Nat}
    (hparts : ∀ N, Part ⟨n, .loop condition body (rounds + 1), m⟩ N → N.Lasts) :
    Lasts (Task.perform n (.loop condition body (rounds + 1))) m := by
  refine lasts_bind (hparts _ .roundCondition) fun v m₁ hcondition => ?_
  cases hv : v.isTruthy with
  | true =>
    refine lasts_bind (hparts _ (.roundBody hcondition hv)) fun flow m₂ hbody => ?_
    cases flow with
    | normal => exact hparts _ (.nextRound hcondition hv hbody)
    | broken => exact trivial
    | returned w => exact trivial
  | false => exact trivial

theorem lasts_topLevel {body : List Stmt}
    (hparts : ∀ N, Part ⟨n, .topLevel body, m⟩ N → N.Lasts) :
    Lasts (topLevel (.ofFuel n) body) m := by
  cases body with
  | nil => exact trivial
  | cons s rest =>
    rw [topLevel]
    exact lasts_bind (hparts _ .topHead) fun flow m₁ hhead => hparts _ (.topTail hhead)

theorem lasts_apply {c : Callable} {arguments : List Value} (hn : n ≠ 0)
    (hparts : ∀ N, Part ⟨n, .apply c arguments, m⟩ N → N.Lasts) :
    Lasts (invokeWith n c arguments) m := by
  refine ends_apply (fun hzero => absurd hzero hn) ?_ (fun _ => trivial) ?_
  · rintro k f rfl rfl
    exact hparts _ .function
  · rintro k c rfl rfl
    refine ends_construct (fun _ => trivial) fun f hf => ?_
    have hbind : Lasts (bindThis f (.instance (m.nextInstance c))) m.withInstance :=
      hparts _ (.constructBind hf)
    exact Ends.mono hbind (fun g m₁ hg _ => hparts _ (.constructCall hf hg)) fun _ _ hstop => hstop

end Tasks

/-- **Fuel runs out at calls and loops only.** What is evaluated ends if its parts do, unless it
is a call without fuel or a loop without rounds left. -/
theorem Moment.lasts_of_parts {M : Moment} (hparts : ∀ N, Part M N → N.Lasts)
    (happly : ∀ c arguments, M.task = .apply c arguments → M.fuel ≠ 0)
    (hloop : ∀ condition body, M.task ≠ .loop condition body 0) : M.Lasts := by
  obtain ⟨n, task, m⟩ := M
  cases task with
  | expression e => exact lasts_expression hparts
  | expressions es => exact lasts_expressions hparts
  | statement s => exact lasts_statement hparts
  | statements body => exact lasts_statements hparts
  | declarators ds => exact lasts_declarators hparts
  | loop condition body rounds =>
    cases rounds with
    | zero => exact absurd rfl (hloop condition body)
    | succ rounds => exact lasts_loop hparts
  | topLevel body => exact lasts_topLevel hparts
  | apply c arguments => exact lasts_apply (happly c arguments rfl) hparts
  | call f arguments => exact Eval.ends_callFunction (hparts _ .body)
  | bind f self => exact trivial

/-! ## What calls spend -/

/-- How much fuel a task spends itself. -/
def Task.charge : Task → Nat
  | apply _ _ => 1
  | _ => 0

open Eval in
/-- Fuel is spent by calls, and each is one deeper than what it is a part of. -/
theorem Part.spends {M N : Moment} (h : Part M N) : N.fuel + M.task.charge = M.fuel ∧
    N.machine.depth = M.machine.depth + N.task.charge := by
  have expr {n e m v m₁} (h : expression (.ofFuel n) e m = .ok v m₁) : m₁.depth = m.depth :=
    (Ends.of_ok (Moment.keeps ⟨n, .expression e, m⟩) h).depth
  have stmt {n s m flow m₁} (h : statement (.ofFuel n) s m = .ok flow m₁) : m₁.depth = m.depth :=
    (Ends.of_ok (Moment.keeps ⟨n, .statement s, m⟩) h).depth
  cases h with
  | binaryRight hleft => exact ⟨rfl, expr hleft⟩
  | logicalRight hleft => exact ⟨rfl, expr hleft⟩
  | commaRight hleft => exact ⟨rfl, expr hleft⟩
  | whenTrue hcondition => exact ⟨rfl, expr hcondition⟩
  | whenFalse hcondition => exact ⟨rfl, expr hcondition⟩
  | arguments hcallee => exact ⟨rfl, expr hcallee⟩
  | @apply n m m₁ m₂ callee arguments closing c vs hcallee harguments harity hdepth =>
    have h₂ : m₂.depth = m₁.depth :=
      (Ends.of_ok (Moment.keeps ⟨n, .expressions arguments, m₁⟩) harguments).depth
    exact ⟨rfl, congrArg (· + 1) (h₂.trans (expr hcallee))⟩
  | getBind hobject => exact ⟨rfl, expr hobject⟩
  | setValue hobject => exact ⟨rfl, expr hobject⟩
  | others hfirst => exact ⟨rfl, expr hfirst⟩
  | chosen hcondition => exact ⟨rfl, expr hcondition⟩
  | alternative hcondition => exact ⟨rfl, expr hcondition⟩
  | tail hhead => exact ⟨rfl, stmt hhead⟩
  | @afterInitializer n m m₁ name e rest v he =>
    have hdepth : m₁.depth = m.depth := expr he
    exact ⟨rfl, hdepth⟩
  | roundBody hcondition => exact ⟨rfl, expr hcondition⟩
  | nextRound hcondition hv hbody => exact ⟨rfl, (stmt hbody).trans (expr hcondition)⟩
  | topTail hhead => exact ⟨rfl, stmt hhead⟩
  | @constructCall n m m₁ c arguments f g hf hg =>
    have hgrows : m.withInstance.Grows [] m₁ := Ends.of_ok keeps_bindThis hg
    exact ⟨rfl, hgrows.depth⟩
  | _ => exact ⟨rfl, rfl⟩

/-- There is fuel for all calls that may still be nested. -/
structure Moment.Affords (M : Moment) : Prop where
  depth : M.machine.depth ≤ M.machine.maxDepth
  fuel : M.machine.maxDepth + M.task.charge ≤ M.fuel + M.machine.depth

/-- **Fuel for all calls is fuel for every part.** -/
theorem Part.affords {M N : Moment} (h : Part M N) (hM : M.Affords) : N.Affords := by
  obtain ⟨hfuel, hdepth⟩ := h.spends
  have hmax := h.leads.maxDepth
  have hM' := hM.fuel
  refine ⟨?_, ?_⟩
  · rw [hmax]
    exact h.leads.depth hM.depth
  · rw [hmax]
    omega

theorem Moment.Affords.fuel_ne_zero {M : Moment} (h : M.Affords) {c : Callable}
    {arguments : List Value} (htask : M.task = .apply c arguments) : M.fuel ≠ 0 := by
  have hdepth := h.depth
  have hfuel := h.fuel
  rw [htask] at hfuel
  change _ + 1 ≤ _ at hfuel
  omega

end ScriptLang
