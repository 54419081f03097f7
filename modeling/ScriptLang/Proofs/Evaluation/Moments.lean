import Mathlib.Data.Prod.Lex
import Mathlib.Logic.Relation
import ScriptLang.Proofs.Evaluation.Endings

/-!
# Moments of a run

A `Moment` is the start of one piece of evaluation: what is evaluated (`Task`), on which
machine, and with how much fuel. Its end is what the evaluator makes of it
(`Moment.ending`). Evaluating one thing starts the evaluation of others, its parts:
`Part M N` says that `N` is such a part of `M`, with the machine that the parts before `N`
left. The moments of a run are those that can be reached from its first ones by going from
a moment to its parts, so a statement about all of them is about every node that is
evaluated, at every depth of calls, and about every machine on which that happens.

Parts are smaller than what they are parts of (`Part.measure_lt`): a call spends fuel, and
everything else goes from a tree to one inside it or has a round of a loop less to go. That
gives the one induction by which the evaluator is reasoned about, `Moment.induction`.
-/

namespace ScriptLang

/-! ## Tasks -/

/-- What is evaluated at a moment. -/
inductive Task
  | expression (e : Expr)
  | expressions (es : List Expr)
  | statement (s : Stmt)
  | statements (body : List Stmt)
  | declarators (ds : List Declarator)
  /-- The rest of a loop, of at most so many rounds. -/
  | loop (condition : Expr) (body : Stmt) (rounds : Nat)
  /-- The rest of the statements of a program. -/
  | topLevel (body : List Stmt)
  /-- A call whose arguments were counted. -/
  | apply (c : Callable) (arguments : List Value)
  /-- A call of a function. -/
  | call (f : Function) (arguments : List Value)
  /-- Giving a method its `this`. -/
  | bind (f : Function) (self : Value)

/-- What a task leads to. -/
abbrev Task.Result : Task → Type
  | expression _ => Value
  | expressions _ => List Value
  | statement _ => Flow
  | statements _ => Flow
  | declarators _ => Unit
  | loop _ _ _ => Flow
  | topLevel _ => Unit
  | apply _ _ => Value
  | call _ _ => Value
  | bind _ _ => Function

/-- Run the body of a function. -/
def Eval.runBody (fuel : Nat) (body : List Stmt) : Eval Value := do
  return (← statements (.ofFuel fuel) body).result

/-- What the evaluator does for a task. -/
def Task.perform (fuel : Nat) : (t : Task) → Eval t.Result
  | expression e => Eval.expression (.ofFuel fuel) e
  | expressions es => Eval.expressions (.ofFuel fuel) es
  | statement s => Eval.statement (.ofFuel fuel) s
  | statements body => Eval.statements (.ofFuel fuel) body
  | declarators ds => Eval.declarators (.ofFuel fuel) ds
  | loop condition body rounds =>
    Eval.repeatWhile (Eval.expression (.ofFuel fuel) condition)
      (Eval.statement (.ofFuel fuel) body) rounds
  | topLevel body => Eval.topLevel (.ofFuel fuel) body
  | apply c arguments => Eval.invokeWith fuel c arguments
  | call f arguments => Eval.callFunction (Eval.runBody fuel) f arguments
  | bind f self => Eval.bindThis f self

/-- The start of a piece of evaluation. -/
structure Moment where
  fuel : Nat
  task : Task
  machine : Machine

/-- How a piece of evaluation ends. -/
def Moment.ending (M : Moment) : EStateM.Result Abort Machine M.task.Result :=
  M.task.perform M.fuel M.machine

/-! ## Machines inside -/

namespace Machine

/-- The machine in a new frame around which the current one is. -/
def inBlock (m : Machine) : Machine :=
  { m with frames := m.frames.push (some m.current), current := m.frames.nextId }

/-- The machine in a new frame of a function, in which the parameters have their
arguments. -/
def inCall (m : Machine) (f : Function) (arguments : List Value) : Machine :=
  { m with
    frames := (m.frames.push (some f.closure)).defineAll m.frames.nextId
      (f.routine.params.map (·.text)) arguments
    current := m.frames.nextId }

/-- The machine one call deeper. -/
def deeper (m : Machine) : Machine := { m with depth := m.depth + 1 }

/-- The machine with one more instance. -/
def withInstance (m : Machine) : Machine := { m with fields := m.fields.push .empty }

/-- The instance of a class that is made next. -/
def nextInstance (m : Machine) (c : Class) : Instance := ⟨m.fields.size, c⟩

/-- The value of a field, if the instance has it. -/
def field? (m : Machine) (i : Instance) (name : String) : Option Value :=
  m.fields[i.id]?.bind (·.get? name)

/-- The machine with a new value for a name of the current frame. -/
def defining (m : Machine) (name : String) (v : Value) : Machine :=
  { m with frames := m.frames.define m.current name v }

/-- What `this` is in the frame just inside the one so many links outward. -/
def thisInside (m : Machine) : Nat → Value
  | 0 => .nil
  | hops + 1 => (m.frames.nameAt? hops m.current "this").getD .nil

/-- What `this` is there is read from a frame, if it is anything. -/
theorem thisInside_eq (m : Machine) (hops : Nat) : m.thisInside hops = .nil ∨
    ∃ k, m.frames.nameAt? k m.current "this" = some (m.thisInside hops) := by
  cases hops with
  | zero => exact .inl rfl
  | succ hops =>
    unfold thisInside
    dsimp only
    cases hthis : m.frames.nameAt? hops m.current "this" with
    | none => exact .inl rfl
    | some v => exact .inr ⟨hops, hthis⟩

end Machine

/-! ## Parts -/

open Eval in
/-- `Part M N`: the evaluation that starts at `M` starts the one at `N`, if the parts of
`M` before `N` end as they have to. -/
inductive Part : Moment → Moment → Prop
  -- expressions
  | assignValue {n m ref value} :
    Part ⟨n, .expression (.assign ref value), m⟩ ⟨n, .expression value, m⟩
  | unaryOperand {n m op sign operand} :
    Part ⟨n, .expression (.unary op sign operand), m⟩ ⟨n, .expression operand, m⟩
  | binaryLeft {n m op sign left right} :
    Part ⟨n, .expression (.binary op sign left right), m⟩ ⟨n, .expression left, m⟩
  | binaryRight {n m m₁ op sign left right v}
    (hleft : expression (.ofFuel n) left m = .ok v m₁) :
    Part ⟨n, .expression (.binary op sign left right), m⟩ ⟨n, .expression right, m₁⟩
  | logicalLeft {n m op sign left right} :
    Part ⟨n, .expression (.logical op sign left right), m⟩ ⟨n, .expression left, m⟩
  | logicalRight {n m m₁ op sign left right v}
    (hleft : expression (.ofFuel n) left m = .ok v m₁) (hv : op.decides v = false) :
    Part ⟨n, .expression (.logical op sign left right), m⟩ ⟨n, .expression right, m₁⟩
  | commaLeft {n m left right} :
    Part ⟨n, .expression (.comma left right), m⟩ ⟨n, .expression left, m⟩
  | commaRight {n m m₁ left right v} (hleft : expression (.ofFuel n) left m = .ok v m₁) :
    Part ⟨n, .expression (.comma left right), m⟩ ⟨n, .expression right, m₁⟩
  | condition {n m condition whenTrue whenFalse} :
    Part ⟨n, .expression (.conditional condition whenTrue whenFalse), m⟩
      ⟨n, .expression condition, m⟩
  | whenTrue {n m m₁ condition whenTrue whenFalse v}
    (hcondition : expression (.ofFuel n) condition m = .ok v m₁) (hv : v.isTruthy = true) :
    Part ⟨n, .expression (.conditional condition whenTrue whenFalse), m⟩
      ⟨n, .expression whenTrue, m₁⟩
  | whenFalse {n m m₁ condition whenTrue whenFalse v}
    (hcondition : expression (.ofFuel n) condition m = .ok v m₁) (hv : v.isTruthy = false) :
    Part ⟨n, .expression (.conditional condition whenTrue whenFalse), m⟩
      ⟨n, .expression whenFalse, m₁⟩
  | grouping {n m inner} :
    Part ⟨n, .expression (.grouping inner), m⟩ ⟨n, .expression inner, m⟩
  | callee {n m callee arguments closing} :
    Part ⟨n, .expression (.call callee arguments closing), m⟩ ⟨n, .expression callee, m⟩
  | arguments {n m m₁ callee arguments closing v}
    (hcallee : expression (.ofFuel n) callee m = .ok v m₁) :
    Part ⟨n, .expression (.call callee arguments closing), m⟩ ⟨n, .expressions arguments, m₁⟩
  | apply {n m m₁ m₂ callee arguments closing c vs}
    (hcallee : expression (.ofFuel n) callee m = .ok (.callable c) m₁)
    (harguments : expressions (.ofFuel n) arguments m₁ = .ok vs m₂)
    (harity : vs.length = c.arity) (hdepth : m₂.depth < m₂.maxDepth) :
    Part ⟨n, .expression (.call callee arguments closing), m⟩ ⟨n, .apply c vs, m₂.deeper⟩
  | getObject {n m object property} :
    Part ⟨n, .expression (.get object property), m⟩ ⟨n, .expression object, m⟩
  | getBind {n m m₁ object property i f}
    (hobject : expression (.ofFuel n) object m = .ok (.instance i) m₁)
    (hfield : m₁.field? i property.text = none)
    (hf : i.ofClass.findMethod property.text = some f) :
    Part ⟨n, .expression (.get object property), m⟩ ⟨n, .bind f (.instance i), m₁⟩
  | setObject {n m object property value} :
    Part ⟨n, .expression (.set object property value), m⟩ ⟨n, .expression object, m⟩
  | setValue {n m m₁ object property value i}
    (hobject : expression (.ofFuel n) object m = .ok (.instance i) m₁) :
    Part ⟨n, .expression (.set object property value), m⟩ ⟨n, .expression value, m₁⟩
  | superBind {n m ref method hops c f} (hhops : m.bindings.hops? ref.id = some hops)
    (hsuper : m.frames.nameAt? hops m.current "super" = some (.callable (.class c)))
    (hf : c.findMethod method.text = some f) :
    Part ⟨n, .expression (.super ref method), m⟩ ⟨n, .bind f (m.thisInside hops), m⟩
  | first {n m e es} : Part ⟨n, .expressions (e :: es), m⟩ ⟨n, .expression e, m⟩
  | others {n m m₁ e es v} (hfirst : expression (.ofFuel n) e m = .ok v m₁) :
    Part ⟨n, .expressions (e :: es), m⟩ ⟨n, .expressions es, m₁⟩
  -- statements
  | evaluated {n m e} : Part ⟨n, .statement (.expression e), m⟩ ⟨n, .expression e, m⟩
  | printed {n m e} : Part ⟨n, .statement (.print e), m⟩ ⟨n, .expression e, m⟩
  | declared {n m ds} : Part ⟨n, .statement (.vars ds), m⟩ ⟨n, .declarators ds, m⟩
  | block {n m body} : Part ⟨n, .statement (.block body), m⟩ ⟨n, .statements body, m.inBlock⟩
  | choice {n m condition whenTrue whenFalse} :
    Part ⟨n, .statement (.ifElse condition whenTrue whenFalse), m⟩ ⟨n, .expression condition, m⟩
  | chosen {n m m₁ condition whenTrue whenFalse v}
    (hcondition : expression (.ofFuel n) condition m = .ok v m₁) (hv : v.isTruthy = true) :
    Part ⟨n, .statement (.ifElse condition whenTrue whenFalse), m⟩ ⟨n, .statement whenTrue, m₁⟩
  | alternative {n m m₁ condition whenTrue whenFalse v}
    (hcondition : expression (.ofFuel n) condition m = .ok v m₁) (hv : v.isTruthy = false) :
    Part ⟨n, .statement (.ifElse condition whenTrue (some whenFalse)), m⟩
      ⟨n, .statement whenFalse, m₁⟩
  | loop {n m condition body} :
    Part ⟨n, .statement (.whileLoop condition body), m⟩ ⟨n, .loop condition body n, m⟩
  | returned {n m keyword e} :
    Part ⟨n, .statement (.returnFrom keyword (some e)), m⟩ ⟨n, .expression e, m⟩
  | head {n m s rest} : Part ⟨n, .statements (s :: rest), m⟩ ⟨n, .statement s, m⟩
  | tail {n m m₁ s rest} (hhead : statement (.ofFuel n) s m = .ok .normal m₁) :
    Part ⟨n, .statements (s :: rest), m⟩ ⟨n, .statements rest, m₁⟩
  | initializer {n m name e rest} :
    Part ⟨n, .declarators (⟨name, some e⟩ :: rest), m⟩ ⟨n, .expression e, m⟩
  | afterInitializer {n m m₁ name e rest v} (he : expression (.ofFuel n) e m = .ok v m₁) :
    Part ⟨n, .declarators (⟨name, some e⟩ :: rest), m⟩
      ⟨n, .declarators rest, m₁.defining name.text v⟩
  | afterName {n m name rest} :
    Part ⟨n, .declarators (⟨name, none⟩ :: rest), m⟩ ⟨n, .declarators rest, m.defining name.text .nil⟩
  | roundCondition {n m condition body k} :
    Part ⟨n, .loop condition body (k + 1), m⟩ ⟨n, .expression condition, m⟩
  | roundBody {n m m₁ condition body k v}
    (hcondition : expression (.ofFuel n) condition m = .ok v m₁) (hv : v.isTruthy = true) :
    Part ⟨n, .loop condition body (k + 1), m⟩ ⟨n, .statement body, m₁⟩
  | nextRound {n m m₁ m₂ condition body k v}
    (hcondition : expression (.ofFuel n) condition m = .ok v m₁) (hv : v.isTruthy = true)
    (hbody : statement (.ofFuel n) body m₁ = .ok .normal m₂) :
    Part ⟨n, .loop condition body (k + 1), m⟩ ⟨n, .loop condition body k, m₂⟩
  | topHead {n m s rest} : Part ⟨n, .topLevel (s :: rest), m⟩ ⟨n, .statement s, m⟩
  | topTail {n m m₁ s rest flow} (hhead : statement (.ofFuel n) s m = .ok flow m₁) :
    Part ⟨n, .topLevel (s :: rest), m⟩ ⟨n, .topLevel rest, m₁⟩
  -- calls
  | function {n m f arguments} :
    Part ⟨n + 1, .apply (.function f) arguments, m⟩ ⟨n, .call f arguments, m⟩
  | constructBind {n m c arguments f} (hf : c.initializer? = some f) :
    Part ⟨n + 1, .apply (.class c) arguments, m⟩
      ⟨n, .bind f (.instance (m.nextInstance c)), m.withInstance⟩
  | constructCall {n m m₁ c arguments f g} (hf : c.initializer? = some f)
    (hg : bindThis f (.instance (m.nextInstance c)) m.withInstance = .ok g m₁) :
    Part ⟨n + 1, .apply (.class c) arguments, m⟩ ⟨n, .call g arguments, m₁⟩
  | body {n m f arguments} :
    Part ⟨n, .call f arguments, m⟩ ⟨n, .statements f.routine.body, m.inCall f arguments⟩

/-! ## Look-ups -/

/-- At the moment, the reference is looked up on the given machine: at once, or for an
assignment, when the value is there. -/
inductive Moment.LooksUp : Moment → Ref → Machine → Prop
  | variable {n ref m} : LooksUp ⟨n, .expression (.variable ref), m⟩ ref m
  | assign {n ref value m v m'} (h : Eval.expression (.ofFuel n) value m = .ok v m') :
    LooksUp ⟨n, .expression (.assign ref value), m⟩ ref m'
  | this {n ref m} : LooksUp ⟨n, .expression (.this ref), m⟩ ref m
  | super {n ref method m} : LooksUp ⟨n, .expression (.super ref method), m⟩ ref m
  | superclass {n name ref members m} :
    LooksUp ⟨n, .statement (.class name (some ref) members), m⟩ ref m

/-! ## Induction -/

/-- How large the trees of a task are. -/
noncomputable def Task.size : Task → Nat
  | expression e => sizeOf e
  | expressions es => sizeOf es
  | statement s => sizeOf s
  | statements body => sizeOf body
  | declarators ds => sizeOf ds
  | loop condition body _ => sizeOf condition + sizeOf body
  | topLevel body => sizeOf body
  | apply _ _ => 0
  | call f _ => sizeOf f.routine.body + 1
  | bind _ _ => 0

/-- How many rounds a task may still make itself. -/
def Task.rounds : Task → Nat
  | loop _ _ rounds => rounds
  | _ => 0

/-- What shrinks from a moment to its parts. -/
noncomputable def Moment.measure (M : Moment) : ℕ ×ₗ ℕ ×ₗ ℕ :=
  toLex (M.fuel, toLex (M.task.size, M.task.rounds))

theorem Part.measure_lt {M N : Moment} (h : Part M N) : N.measure < M.measure := by
  cases h <;>
    simp [Moment.measure, Task.size, Task.rounds, Prod.Lex.toLex_lt_toLex] <;> omega

/-- **Induction over moments.** What holds of a moment if it holds of its parts holds of
every moment. -/
theorem Moment.induction {C : Moment → Prop} (h : ∀ M, (∀ N, Part M N → C N) → C M)
    (M : Moment) : C M := by
  have wf : WellFounded fun N M : Moment => N.measure < M.measure :=
    InvImage.wf Moment.measure wellFounded_lt
  induction M using wf.induction with
  | _ M ih => exact h M fun N hN => ih N hN.measure_lt

end ScriptLang
