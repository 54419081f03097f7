import ScriptLang.Proofs.Evaluation.Moments

/-!
# The course of evaluation

`Part` says what is evaluated in the course of a moment, but not in which order, and it does not say
when a field is set. The course of a moment (`Moment.course`) is the list of what happens: each of
its parts in turn, up to one that stops, and a field that is set once its value is there. The parts
in the list are the parts of the moment and no others (`Moment.part_mem_course_iff`).
-/

namespace ScriptLang

/-! ## Steps -/

/-- A field of an instance gets a value. -/
structure Setting where
  object : Instance
  name : String
  value : Value

/-- What may happen in the course of evaluation: a part is evaluated, or a field is set. -/
inductive Step
  | part (N : Moment)
  | set (w : Setting)

/-- A part, and what follows if it comes to its end. -/
def Moment.followedBy (N : Moment) (next : N.task.Result → Machine → List Step) : List Step :=
  .part N :: match N.ending with
    | .ok a m => next a m
    | .error _ _ => []

/-- Giving a method its `this`, if it was found. -/
def bindingSteps (n : Nat) (method : Option Function) (self : Value) (m : Machine) : List Step :=
  match method with
  | some f => [.part ⟨n, .bind f self, m⟩]
  | none => []

/-- Calling a value, if it can be called with so many arguments and so deep. -/
def callingSteps (n : Nat) (v : Value) (arguments : List Value) (m : Machine) : List Step :=
  match v with
  | .callable c =>
    if arguments.length = c.arity ∧ m.depth < m.maxDepth then
      [.part ⟨n, .apply c arguments, m.deeper⟩]
    else []
  | _ => []

/-! ## Courses

The parts of an expression, a statement or a call stand in the order in which they are evaluated. What
would come after a part that stops is left out, and so is what is not chosen. -/

section Courses

variable (n : Nat) (m : Machine)

def Expr.course : Expr → List Step
  | .literal _ | .variable _ | .this _ | .function _ => []
  | .assign _ value => [.part ⟨n, .expression value, m⟩]
  | .unary _ _ operand => [.part ⟨n, .expression operand, m⟩]
  | .binary _ _ left right =>
    Moment.followedBy ⟨n, .expression left, m⟩ fun _ m₁ =>
      [.part ⟨n, .expression right, m₁⟩]
  | .logical op _ left right =>
    Moment.followedBy ⟨n, .expression left, m⟩ fun v m₁ =>
      if op.decides v then [] else [.part ⟨n, .expression right, m₁⟩]
  | .comma left right =>
    Moment.followedBy ⟨n, .expression left, m⟩ fun _ m₁ =>
      [.part ⟨n, .expression right, m₁⟩]
  | .conditional condition whenTrue whenFalse =>
    Moment.followedBy ⟨n, .expression condition, m⟩ fun v m₁ =>
      if v.isTruthy then [.part ⟨n, .expression whenTrue, m₁⟩]
      else [.part ⟨n, .expression whenFalse, m₁⟩]
  | .grouping inner => [.part ⟨n, .expression inner, m⟩]
  | .call callee arguments _ =>
    Moment.followedBy ⟨n, .expression callee, m⟩ fun v m₁ =>
      Moment.followedBy ⟨n, .expressions arguments, m₁⟩ fun vs m₂ => callingSteps n v vs m₂
  | .get object property =>
    Moment.followedBy ⟨n, .expression object, m⟩ fun v m₁ =>
      match v with
      | .instance i =>
        match m₁.field? i property.text with
        | some _ => []
        | none => bindingSteps n (i.ofClass.findMethod property.text) (.instance i) m₁
      | _ => []
  | .set object property value =>
    Moment.followedBy ⟨n, .expression object, m⟩ fun v m₁ =>
      match v with
      | .instance i =>
        Moment.followedBy ⟨n, .expression value, m₁⟩ fun w _ => [.set ⟨i, property.text, w⟩]
      | _ => []
  | .super ref method =>
    match m.bindings.hops? ref.id with
    | some hops =>
      match m.frames.nameAt? hops m.current "super" with
      | some (.callable (.class c)) =>
        bindingSteps n (c.findMethod method.text) (m.thisInside hops) m
      | _ => []
    | none => []

def Stmt.course : Stmt → List Step
  | .expression e | .print e | .returnFrom _ (some e) => [.part ⟨n, .expression e, m⟩]
  | .vars ds => [.part ⟨n, .declarators ds, m⟩]
  | .block body => [.part ⟨n, .statements body, m.inBlock⟩]
  | .ifElse condition whenTrue whenFalse =>
    Moment.followedBy ⟨n, .expression condition, m⟩ fun v m₁ =>
      if v.isTruthy then [.part ⟨n, .statement whenTrue, m₁⟩]
      else match whenFalse with
        | some whenFalse => [.part ⟨n, .statement whenFalse, m₁⟩]
        | none => []
  | .whileLoop condition body => [.part ⟨n, .loop condition body n, m⟩]
  | .breakLoop _ | .returnFrom _ none | .function _ _ | .class _ _ _ => []

/-- The rest of the statements follows if one goes on with the next. -/
def Flow.courseOfRest (flow : Flow) (rest : Task) : List Step :=
  match flow with
  | .normal => [.part ⟨n, rest, m⟩]
  | .broken | .returned _ => []

def Declarator.courseOfAll : List Declarator → List Step
  | [] => []
  | ⟨name, none⟩ :: rest => [.part ⟨n, .declarators rest, m.defining name.text .nil⟩]
  | ⟨name, some e⟩ :: rest =>
    Moment.followedBy ⟨n, .expression e, m⟩ fun v m₁ =>
      [.part ⟨n, .declarators rest, m₁.defining name.text v⟩]

/-- The course of a call with fuel for one more. -/
def Callable.course (arguments : List Value) : Callable → List Step
  | .function f => [.part ⟨n, .call f arguments, m⟩]
  | .native _ => []
  | .class c =>
    match c.initializer? with
    | some f =>
      Moment.followedBy ⟨n, .bind f (.instance (m.nextInstance c)), m.withInstance⟩ fun g m₁ =>
        [.part ⟨n, .call g arguments, m₁⟩]
    | none => []

def Task.course : Task → List Step
  | .expression e => e.course n m
  | .expressions [] => []
  | .expressions (e :: es) =>
    Moment.followedBy ⟨n, .expression e, m⟩ fun _ m₁ => [.part ⟨n, .expressions es, m₁⟩]
  | .statement s => s.course n m
  | .statements [] => []
  | .statements (s :: rest) =>
    Moment.followedBy ⟨n, .statement s, m⟩ fun flow m₁ =>
      flow.courseOfRest n m₁ (.statements rest)
  | .declarators ds => Declarator.courseOfAll n m ds
  | .loop _ _ 0 => []
  | .loop condition body (k + 1) =>
    Moment.followedBy ⟨n, .expression condition, m⟩ fun v m₁ =>
      if v.isTruthy then
        Moment.followedBy ⟨n, .statement body, m₁⟩ fun flow m₂ =>
          flow.courseOfRest n m₂ (.loop condition body k)
      else []
  | .topLevel [] => []
  | .topLevel (s :: rest) =>
    Moment.followedBy ⟨n, .statement s, m⟩ fun _ m₁ => [.part ⟨n, .topLevel rest, m₁⟩]
  | .apply c arguments =>
    match n with
    | 0 => []
    | k + 1 => c.course k m arguments
  | .call f arguments => [.part ⟨n, .statements f.routine.body, m.inCall f arguments⟩]
  | .bind _ _ => []

end Courses

/-- What happens in the course of a moment, in turn. -/
def Moment.course (M : Moment) : List Step := M.task.course M.fuel M.machine

/-! ## The parts in a course -/

theorem Moment.part_mem_followedBy_iff {N K : Moment}
    {next : N.task.Result → Machine → List Step} :
    .part K ∈ N.followedBy next ↔
      K = N ∨ ∃ a m, N.ending = .ok a m ∧ .part K ∈ next a m := by
  unfold followedBy
  rw [List.mem_cons, Step.part.injEq]
  refine or_congr_right ?_
  cases hend : N.ending with
  | ok a m =>
    refine ⟨fun h => ⟨a, m, rfl, h⟩, ?_⟩
    rintro ⟨a', m', hend', h⟩
    cases hend'
    exact h
  | error stop m => simp

/-- The parts in the list are parts of the moment. -/
def Moment.Has (M : Moment) (steps : List Step) : Prop := ∀ K, .part K ∈ steps → Part M K

namespace Moment.Has

variable {M N : Moment}

theorem nil : M.Has [] := fun _ h => nomatch h

theorem set {w : Setting} : M.Has [.set w] := by simp [Has]

theorem one (h : Part M N) : M.Has [.part N] := by
  intro K hK
  cases List.mem_singleton.mp hK
  exact h

theorem followedBy {next : N.task.Result → Machine → List Step} (h : Part M N)
    (hnext : ∀ a m, N.ending = .ok a m → M.Has (next a m)) : M.Has (N.followedBy next) := by
  intro K hK
  rcases part_mem_followedBy_iff.mp hK with rfl | ⟨a, m, hend, hK⟩
  · exact h
  · exact hnext a m hend K hK

theorem bindingSteps {n : Nat} {method : Option Function} {self : Value} {m : Machine}
    (h : ∀ f, method = some f → Part M ⟨n, .bind f self, m⟩) :
    M.Has (ScriptLang.bindingSteps n method self m) := by
  cases method with
  | some f => exact one (h f rfl)
  | none => exact nil

theorem courseOfRest {n : Nat} {m : Machine} {flow : Flow} {rest : Task}
    (h : flow = .normal → Part M ⟨n, rest, m⟩) : M.Has (flow.courseOfRest n m rest) := by
  cases flow with
  | normal => exact one (h rfl)
  | broken => exact nil
  | returned v => exact nil

end Moment.Has

section Members

variable (n : Nat) (m : Machine)

theorem Expr.has_course (e : Expr) : Moment.Has ⟨n, .expression e, m⟩ (e.course n m) := by
  cases e with
  | literal value => exact .nil
  | «variable» ref => exact .nil
  | assign ref value => exact .one .assignValue
  | unary op sign operand => exact .one .unaryOperand
  | binary op sign left right => exact .followedBy .binaryLeft fun v m₁ hv => .one (.binaryRight hv)
  | logical op sign left right =>
    refine .followedBy .logicalLeft fun v m₁ hleft => ?_
    cases hv : op.decides v with
    | true => exact .nil
    | false => exact .one (.logicalRight hleft hv)
  | comma left right => exact .followedBy .commaLeft fun v m₁ hv => .one (.commaRight hv)
  | conditional condition whenTrue whenFalse =>
    refine .followedBy .condition fun v m₁ hcondition => ?_
    cases hv : v.isTruthy with
    | true => exact .one (.whenTrue hcondition hv)
    | false => exact .one (.whenFalse hcondition hv)
  | grouping inner => exact .one .grouping
  | call callee arguments closing =>
    refine .followedBy .callee fun v m₁ hcallee => ?_
    refine .followedBy (.arguments hcallee) fun vs m₂ harguments => ?_
    cases v with
    | callable c =>
      rw [callingSteps]
      split
      · rename_i hfits
        exact .one (.apply hcallee harguments hfits.1 hfits.2)
      · exact .nil
    | _ => exact .nil
  | get object property =>
    refine .followedBy .getObject fun v m₁ hobject => ?_
    cases v with
    | «instance» i =>
      dsimp only
      cases hfield : m₁.field? i property.text with
      | some w => exact .nil
      | none => exact .bindingSteps fun f hf => .getBind hobject hfield hf
    | _ => exact .nil
  | set object property value =>
    refine .followedBy .setObject fun v m₁ hobject => ?_
    cases v with
    | «instance» i => exact .followedBy (.setValue hobject) fun w m₂ _ => .set
    | _ => exact .nil
  | this ref => exact .nil
  | super ref method =>
    rw [course]
    cases hhops : m.bindings.hops? ref.id with
    | none => exact .nil
    | some hops =>
      dsimp only
      split
      · rename_i c hsuper
        exact .bindingSteps fun f hf => .superBind hhops hsuper hf
      · exact .nil
  | function routine => exact .nil

theorem Stmt.has_course (s : Stmt) : Moment.Has ⟨n, .statement s, m⟩ (s.course n m) := by
  cases s with
  | expression e => exact .one .evaluated
  | print e => exact .one .printed
  | vars ds => exact .one .declared
  | block body => exact .one .block
  | ifElse condition whenTrue whenFalse =>
    refine .followedBy .choice fun v m₁ hcondition => ?_
    cases hv : v.isTruthy with
    | true => exact .one (.chosen hcondition hv)
    | false =>
      cases whenFalse with
      | none => exact .nil
      | some whenFalse => exact .one (.alternative hcondition hv)
  | whileLoop condition body => exact .one .loop
  | breakLoop keyword => exact .nil
  | returnFrom keyword value =>
    cases value with
    | none => exact .nil
    | some e => exact .one .returned
  | function name routine => exact .nil
  | «class» name superclass methods => exact .nil

theorem Callable.has_course (c : Callable) (arguments : List Value) :
    Moment.Has ⟨n + 1, .apply c arguments, m⟩ (c.course n m arguments) := by
  cases c with
  | function f => exact .one .function
  | native f => exact .nil
  | «class» c =>
    rw [course]
    cases hf : c.initializer? with
    | none => exact .nil
    | some f => exact .followedBy (.constructBind hf) fun g m₁ hg => .one (.constructCall hf hg)

theorem Task.has_course (t : Task) : Moment.Has ⟨n, t, m⟩ (t.course n m) := by
  cases t with
  | expression e => exact e.has_course n m
  | expressions es =>
    cases es with
    | nil => exact .nil
    | cons e es => exact .followedBy .first fun v m₁ hfirst => .one (.others hfirst)
  | statement s => exact s.has_course n m
  | statements body =>
    cases body with
    | nil => exact .nil
    | cons s rest =>
      refine .followedBy .head fun flow m₁ hhead => .courseOfRest fun hflow => ?_
      subst hflow
      exact .tail hhead
  | declarators ds =>
    cases ds with
    | nil => exact .nil
    | cons declarator rest =>
      obtain ⟨name, initializer⟩ := declarator
      cases initializer with
      | none => exact .one .afterName
      | some e => exact .followedBy .initializer fun v m₁ he => .one (.afterInitializer he)
  | loop condition body rounds =>
    cases rounds with
    | zero => exact .nil
    | succ k =>
      refine .followedBy .roundCondition fun v m₁ hcondition => ?_
      cases hv : v.isTruthy with
      | true =>
        refine .followedBy (.roundBody hcondition hv) fun flow m₂ hbody => ?_
        refine .courseOfRest fun hflow => ?_
        subst hflow
        exact .nextRound hcondition hv hbody
      | false => exact .nil
  | topLevel body =>
    cases body with
    | nil => exact .nil
    | cons s rest => exact .followedBy .topHead fun flow m₁ hhead => .one (.topTail hhead)
  | apply c arguments =>
    cases n with
    | zero => exact .nil
    | succ k => exact c.has_course k m arguments
  | call f arguments => exact .one .body
  | bind f self => exact .nil

end Members

/-- Every part has its turn. -/
theorem Part.mem_course {M N : Moment} (h : Part M N) : .part N ∈ M.course := by
  have first {K : Moment} {next : K.task.Result → Machine → List Step} :
      .part K ∈ K.followedBy next := List.mem_cons_self
  have later {K : Moment} {next : K.task.Result → Machine → List Step} {a : K.task.Result}
      {m : Machine} (hend : K.ending = .ok a m) (hnext : .part N ∈ next a m) :
      .part N ∈ K.followedBy next := Moment.part_mem_followedBy_iff.mpr (.inr ⟨a, m, hend, hnext⟩)
  have only {K : Moment} : .part K ∈ [Step.part K] := List.mem_cons_self
  cases h with
  | binaryLeft => exact first
  | binaryRight hleft => exact later hleft only
  | logicalLeft => exact first
  | logicalRight hleft hv =>
    refine later hleft ?_
    dsimp only
    rw [hv]
    exact only
  | commaLeft => exact first
  | commaRight hleft => exact later hleft only
  | condition => exact first
  | whenTrue hcondition hv =>
    refine later hcondition ?_
    dsimp only
    rw [if_pos hv]
    exact only
  | whenFalse hcondition hv =>
    refine later hcondition ?_
    dsimp only
    rw [if_neg (by simp [hv])]
    exact only
  | callee => exact first
  | arguments hcallee => exact later hcallee first
  | apply hcallee harguments harity hdepth =>
    refine later hcallee (later harguments ?_)
    rw [callingSteps, if_pos ⟨harity, hdepth⟩]
    exact only
  | getObject => exact first
  | getBind hobject hfield hf =>
    refine later hobject ?_
    dsimp only
    rw [hfield, hf]
    exact only
  | setObject => exact first
  | setValue hobject => exact later hobject first
  | @superBind n m ref method hops c f hhops hsuper hf =>
    change _ ∈ Expr.course n m (.super ref method)
    rw [Expr.course, hhops]
    dsimp only
    rw [hsuper]
    dsimp only
    rw [hf]
    exact only
  | first => exact first
  | others hfirst => exact later hfirst only
  | choice => exact first
  | chosen hcondition hv =>
    refine later hcondition ?_
    dsimp only
    rw [if_pos hv]
    exact only
  | alternative hcondition hv =>
    refine later hcondition ?_
    dsimp only
    rw [if_neg (by simp [hv])]
    exact only
  | head => exact first
  | tail hhead => exact later hhead only
  | initializer => exact first
  | afterInitializer he => exact later he only
  | roundCondition => exact first
  | roundBody hcondition hv =>
    refine later hcondition ?_
    dsimp only
    rw [if_pos hv]
    exact first
  | nextRound hcondition hv hbody =>
    refine later hcondition ?_
    dsimp only
    rw [if_pos hv]
    exact later hbody only
  | topHead => exact first
  | topTail hhead => exact later hhead only
  | constructBind hf =>
    change _ ∈ Callable.course _ _ _ (.class _)
    rw [Callable.course, hf]
    exact first
  | constructCall hf hg =>
    change _ ∈ Callable.course _ _ _ (.class _)
    rw [Callable.course, hf]
    exact later hg only
  | _ => exact only

/-- **The parts in the course of a moment are its parts.** -/
theorem Moment.part_mem_course_iff {M N : Moment} : .part N ∈ M.course ↔ Part M N :=
  ⟨M.task.has_course M.fuel M.machine N, Part.mem_course⟩

end ScriptLang
