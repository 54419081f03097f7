import ScriptLang.Proofs.Evaluation.Growth

/-!
# Other bindings

Evaluation reads the bindings and never changes them. So it does the same on a machine with
another table, if that table says the same of every reference that is looked up on the way
(`Moment.blind_of_agrees`). Results, stops and machines are then the same, but for the table.

`Eval.Blind table act m` says of one computation that it does not notice the other table. It is
closed under the ways computations are built, so the proof follows `Moment.induction`: the parts
are blind, and the steps of the machine in between do not read the table at all.
-/

namespace ScriptLang

open Relation (ReflTransGen)

/-- The machine with other bindings. -/
def Machine.rebind (m : Machine) (table : Bindings) : Machine := { m with bindings := table }

@[simp] theorem Machine.frames_rebind (m : Machine) (table : Bindings) :
    (m.rebind table).frames = m.frames := rfl

@[simp] theorem Machine.globals_rebind (m : Machine) (table : Bindings) :
    (m.rebind table).globals = m.globals := rfl

@[simp] theorem Machine.current_rebind (m : Machine) (table : Bindings) :
    (m.rebind table).current = m.current := rfl

namespace Eval

variable {α β : Type} {m : Machine} {table : Bindings} {act : Eval α} {next : α → Eval β}

/-! ## Computations -/

/-- The same end on the machine with other bindings. -/
def rebound (table : Bindings) : EStateM.Result Abort Machine α → EStateM.Result Abort Machine α
  | .ok a m => .ok a (m.rebind table)
  | .error stop m => .error stop (m.rebind table)

/-- The computation does the same with the other bindings. -/
def Blind (table : Bindings) (act : Eval α) (m : Machine) : Prop :=
  act (m.rebind table) = rebound table (act m)

theorem blind_bind (h : Blind table act m)
    (hnext : ∀ a m', act m = .ok a m' → Blind table (next a) m') :
    Blind table (act >>= next) m := by
  unfold Blind at h ⊢
  cases hact : act m with
  | ok a m' =>
    rw [hact] at h
    rw [bind_of_ok hact, bind_of_ok h]
    exact hnext a m' hact
  | error stop m' =>
    rw [hact] at h
    rw [bind_of_error hact, bind_of_error h]
    rfl

theorem blind_within {frame : FrameId} (h : Blind table act { m with current := frame }) :
    Blind table (within frame act) m := by
  unfold Blind within at *
  have hinner : act { m.rebind table with current := frame } = _ := h
  rw [hinner]
  cases act { m with current := frame } <;> rfl

theorem blind_deeper {word : Lexeme} (h : m.depth < m.maxDepth → Blind table act m.deeper) :
    Blind table (deeper word act) m := by
  unfold Blind deeper
  by_cases hd : m.maxDepth ≤ m.depth
  · have hd' : (m.rebind table).maxDepth ≤ (m.rebind table).depth := hd
    rw [if_pos hd, if_pos hd']
    rfl
  · have hd' : ¬ (m.rebind table).maxDepth ≤ (m.rebind table).depth := hd
    rw [if_neg hd, if_neg hd']
    have hinner : act { m.rebind table with depth := (m.rebind table).depth + 1 } =
        rebound table (act { m with depth := m.depth + 1 }) := h (Nat.lt_of_not_le hd)
    rw [hinner]
    cases act { m with depth := m.depth + 1 } <;> rfl

theorem blind_ofExcept {r : Except RunError α} : Blind table (ofExcept r) m := by
  cases r <;> rfl

theorem blind_ofOperator {sign : Lexeme} {r : Except RunFault Value} :
    Blind table (ofOperator sign r) m := by
  cases r <;> rfl

/-! ## References -/

section References

variable {ref : Ref} (hsame : table.hops? ref.id = m.bindings.hops? ref.id)

include hsame

theorem blind_readVariable : Blind table (readVariable ref) m := by
  have hrebind : (m.rebind table).bindings.hops? ref.id = m.bindings.hops? ref.id := hsame
  unfold Blind readVariable
  rw [hrebind]
  cases m.bindings.hops? ref.id with
  | none => exact blind_ofExcept
  | some hops => exact blind_ofExcept

theorem blind_assignVariable {v : Value} : Blind table (assignVariable ref v) m := by
  have hrebind : (m.rebind table).bindings.hops? ref.id = m.bindings.hops? ref.id := hsame
  unfold Blind assignVariable
  simp only [hrebind, Machine.frames_rebind, Machine.globals_rebind, Machine.current_rebind]
  cases m.bindings.hops? ref.id with
  | none =>
    dsimp only
    cases m.frames.assignGlobal m.globals ref.word v <;> rfl
  | some hops =>
    dsimp only
    cases m.frames.assignAt hops m.current ref.word v <;> rfl

theorem blind_superclassOf : Blind table (superclassOf ref) m := by
  refine blind_bind (blind_readVariable hsame) fun v m' _ => ?_
  split <;> rfl

theorem blind_superMethod {method : Lexeme} : Blind table (superMethod ref method) m := by
  have hrebind : (m.rebind table).bindings.hops? ref.id = m.bindings.hops? ref.id := hsame
  unfold Blind superMethod
  simp only [hrebind, Machine.frames_rebind, Machine.current_rebind]
  cases m.bindings.hops? ref.id with
  | none => rfl
  | some hops =>
    dsimp only
    split
    · cases hmethod : Class.findMethod _ method.text <;> rfl
    · rfl

end References

/-! ## Functions, classes and instances -/

theorem blind_makeMethods {closure : FrameId} (members : List Method) (made : Slots Function) :
    Blind table (makeMethods closure members made) m := by
  induction members generalizing m made with
  | nil => rfl
  | cons member rest ih =>
    obtain ⟨name, routine⟩ := member
    have hmake : Blind table
        (makeFunction (some name.text) routine closure (name.text = "init")) m := rfl
    exact blind_bind hmake fun f m' _ => ih _

theorem blind_methodFrame (parent : Option Class) : Blind table (methodFrame parent) m := by
  cases parent <;> rfl

theorem blind_declareClass {name : Lexeme} {superclass : Option Ref} {members : List Method}
    (hsame : ∀ ref, superclass = some ref → table.hops? ref.id = m.bindings.hops? ref.id) :
    Blind table (declareClass name superclass members) m := by
  have hfinish (parent : Option Class) (m : Machine) :
      Blind table (finishClass name members parent) m := by
    have hdefine (m : Machine) (v : Value) : Blind table (define name.text v) m := rfl
    refine blind_bind (hdefine m .nil) fun _ m₁ _ => ?_
    refine blind_bind (blind_methodFrame parent) fun frame m₂ _ => ?_
    exact blind_bind (blind_makeMethods members .empty) fun methods m₃ _ => rfl
  rw [declareClass_eq]
  refine blind_bind ?_ fun parent m' _ => hfinish parent m'
  cases superclass with
  | none => rfl
  | some ref =>
    have hsuperclass : Blind table (superclassOf ref) m := blind_superclassOf (hsame ref rfl)
    exact blind_bind hsuperclass fun c m' _ => rfl

theorem blind_getOf {v : Value} {property : Lexeme} : Blind table (getOf v property) m := by
  cases v with
  | «instance» i =>
    have hfield : Blind table (field? i property.text) m := rfl
    refine blind_bind hfield fun found m' _ => ?_
    cases found with
    | some w => rfl
    | none =>
      dsimp only
      cases i.ofClass.findMethod property.text <;> rfl
  | _ => rfl

theorem blind_instanceOf {v : Value} {property : Lexeme} :
    Blind table (instanceOf v property) m := by
  cases v <;> rfl

/-! ## Calls -/

theorem blind_callFunction {run : List Stmt → Eval Value} {f : Function} {arguments : List Value}
    (h : Blind table (run f.routine.body) (m.inCall f arguments)) :
    Blind table (callFunction run f arguments) m := by
  have hframe : Blind table (newFrame f.closure) m := rfl
  unfold callFunction
  refine blind_bind hframe fun frame m₁ hm₁ => ?_
  cases hm₁
  refine blind_bind rfl fun _ m₂ hm₂ => ?_
  cases hm₂
  refine blind_bind (blind_within h) fun result m₃ _ => ?_
  cases f.isInitializer <;> rfl

theorem blind_construct {run : List Stmt → Eval Value} {c : Class} {arguments : List Value}
    (h : ∀ f g m₁, c.initializer? = some f →
      bindThis f (.instance (m.nextInstance c)) m.withInstance = .ok g m₁ →
      Blind table (callFunction run g arguments) m₁) :
    Blind table (construct run c arguments) m := by
  have hnew : Blind table (newInstance c) m := rfl
  unfold construct
  refine blind_bind hnew fun i m₁ hm₁ => ?_
  cases hm₁
  cases hf : c.initializer? with
  | none => rfl
  | some f =>
    refine blind_bind rfl fun g m₂ hg => ?_
    exact blind_bind (h f g m₂ hf hg) fun _ m₃ _ => rfl

theorem blind_callValue {n : Nat} {v : Value} {arguments : List Value} {closing : Lexeme}
    (h : ∀ c, v = .callable c → arguments.length = c.arity → m.depth < m.maxDepth →
      Blind table (invokeWith n c arguments) m.deeper) :
    Blind table (callValue (invokeWith n) v arguments closing) m := by
  cases v with
  | callable c =>
    unfold callValue
    by_cases harity : arguments.length = c.arity
    · simp only [harity, ne_eq, not_true_eq_false, if_false]
      exact blind_deeper fun hdepth => h c rfl harity hdepth
    · simp only [ne_eq, harity, not_false_eq_true, if_true]
      rfl
  | _ => rfl

end Eval

/-! ## The tasks -/

/-- The table says the same as the bindings of every reference that is looked up at the moment. -/
def Moment.Agrees (table : Bindings) (N : Moment) : Prop :=
  ∀ ref m, N.LooksUp ref m → table.hops? ref.id = m.bindings.hops? ref.id

/-- What is evaluated does not notice the other bindings. -/
def Moment.Blind (table : Bindings) (M : Moment) : Prop :=
  Eval.Blind table (M.task.perform M.fuel) M.machine

namespace Eval

section Tasks

variable {n : Nat} {m : Machine} {table : Bindings}

theorem blind_expression (e : Expr) (hself : Moment.Agrees table ⟨n, .expression e, m⟩)
    (ih : ∀ N, Part ⟨n, .expression e, m⟩ N → N.Blind table) :
    Blind table (expression (.ofFuel n) e) m := by
  cases e with
  | literal value => rfl
  | «variable» ref => exact blind_readVariable (hself ref m .variable)
  | assign ref value =>
    refine blind_bind (ih _ .assignValue) fun v m₁ hvalue => ?_
    have hassign : Blind table (assignVariable ref v) m₁ :=
      blind_assignVariable (hself ref m₁ (.assign hvalue))
    exact blind_bind hassign fun _ m₂ _ => rfl
  | unary op sign operand =>
    exact blind_bind (ih _ .unaryOperand) fun v m₁ _ => blind_ofOperator
  | binary op sign left right =>
    refine blind_bind (ih _ .binaryLeft) fun v m₁ hleft => ?_
    exact blind_bind (ih _ (.binaryRight hleft)) fun w m₂ _ => blind_ofOperator
  | logical op sign left right =>
    refine blind_bind (ih _ .logicalLeft) fun v m₁ hleft => ?_
    cases hdecides : op.decides v with
    | true => rfl
    | false => exact ih _ (.logicalRight hleft hdecides)
  | comma left right =>
    exact blind_bind (ih _ .commaLeft) fun v m₁ hleft => ih _ (.commaRight hleft)
  | conditional condition whenTrue whenFalse =>
    refine blind_bind (ih _ .condition) fun v m₁ hcondition => ?_
    cases hv : v.isTruthy with
    | true => exact ih _ (.whenTrue hcondition hv)
    | false => exact ih _ (.whenFalse hcondition hv)
  | grouping inner => exact ih _ .grouping
  | call callee arguments closing =>
    refine blind_bind (ih _ .callee) fun v m₁ hcallee => ?_
    refine blind_bind (ih _ (.arguments hcallee)) fun vs m₂ harguments => ?_
    refine blind_callValue fun c hc harity hdepth => ?_
    subst hc
    exact ih _ (.apply hcallee harguments harity hdepth)
  | get object property =>
    exact blind_bind (ih _ .getObject) fun v m₁ _ => blind_getOf
  | set object property value =>
    refine blind_bind (ih _ .setObject) fun v m₁ hobject => ?_
    refine blind_bind blind_instanceOf fun i m₂ hi => ?_
    obtain ⟨rfl, rfl⟩ := instanceOf_ok hi
    refine blind_bind (ih _ (.setValue hobject)) fun w m₃ _ => ?_
    have hset : Blind table (setField i property w) m₃ := rfl
    exact blind_bind hset fun _ m₄ _ => rfl
  | this ref => exact blind_readVariable (hself ref m .this)
  | super ref method => exact blind_superMethod (hself ref m .super)
  | function routine => rfl

theorem blind_expressions (es : List Expr)
    (ih : ∀ N, Part ⟨n, .expressions es, m⟩ N → N.Blind table) :
    Blind table (expressions (.ofFuel n) es) m := by
  cases es with
  | nil => rfl
  | cons e es =>
    refine blind_bind (ih _ .first) fun v m₁ hfirst => ?_
    exact blind_bind (ih _ (.others hfirst)) fun vs m₂ _ => rfl

theorem blind_statement (s : Stmt) (hself : Moment.Agrees table ⟨n, .statement s, m⟩)
    (ih : ∀ N, Part ⟨n, .statement s, m⟩ N → N.Blind table) :
    Blind table (statement (.ofFuel n) s) m := by
  cases s with
  | expression e => exact blind_bind (ih _ .evaluated) fun v m₁ _ => rfl
  | print e =>
    refine blind_bind (ih _ .printed) fun v m₁ _ => ?_
    have hprint : Blind table (println v.display) m₁ := rfl
    exact blind_bind hprint fun _ m₂ _ => rfl
  | vars ds => exact blind_bind (ih _ .declared) fun _ m₁ _ => rfl
  | block body =>
    have hbody : Blind table (statements (.ofFuel n) body) m.inBlock := ih _ .block
    have hcurrent : Blind table current m := rfl
    refine blind_bind hcurrent fun f m₁ hm₁ => ?_
    cases hm₁
    have hframe : Blind table (newFrame m.current) m := rfl
    refine blind_bind hframe fun frame m₁ hm₁ => ?_
    cases hm₁
    exact blind_within hbody
  | ifElse condition whenTrue whenFalse =>
    cases whenFalse with
    | none =>
      refine blind_bind (ih _ .choice) fun v m₁ hcondition => ?_
      cases hv : v.isTruthy with
      | true => exact ih _ (.chosen hcondition hv)
      | false => rfl
    | some whenFalse =>
      refine blind_bind (ih _ .choice) fun v m₁ hcondition => ?_
      cases hv : v.isTruthy with
      | true => exact ih _ (.chosen hcondition hv)
      | false => exact ih _ (.alternative hcondition hv)
  | whileLoop condition body => exact ih _ .loop
  | breakLoop keyword => rfl
  | returnFrom keyword value =>
    cases value with
    | none => rfl
    | some e => exact blind_bind (ih _ .returned) fun v m₁ _ => rfl
  | function name routine => rfl
  | «class» name superclass members =>
    have hclass : Blind table (declareClass name superclass members) m := by
      refine blind_declareClass fun ref href => ?_
      subst href
      exact hself ref m .superclass
    exact blind_bind hclass fun _ m₁ _ => rfl

theorem blind_statements (body : List Stmt)
    (ih : ∀ N, Part ⟨n, .statements body, m⟩ N → N.Blind table) :
    Blind table (statements (.ofFuel n) body) m := by
  cases body with
  | nil => rfl
  | cons s rest =>
    refine blind_bind (ih _ .head) fun flow m₁ hhead => ?_
    cases flow with
    | normal => exact ih _ (.tail hhead)
    | broken => rfl
    | returned v => rfl

theorem blind_declarators (ds : List Declarator)
    (ih : ∀ N, Part ⟨n, .declarators ds, m⟩ N → N.Blind table) :
    Blind table (declarators (.ofFuel n) ds) m := by
  cases ds with
  | nil => rfl
  | cons d rest =>
    obtain ⟨name, initializer⟩ := d
    cases initializer with
    | none =>
      have hdefine : Blind table (define name.text .nil) m := rfl
      refine blind_bind hdefine fun _ m₁ hm₁ => ?_
      cases hm₁
      exact ih _ .afterName
    | some e =>
      refine blind_bind (ih _ .initializer) fun v m₁ he => ?_
      have hdefine : Blind table (define name.text v) m₁ := rfl
      refine blind_bind hdefine fun _ m₂ hm₂ => ?_
      cases hm₂
      exact ih _ (.afterInitializer he)

theorem blind_loop (condition : Expr) (body : Stmt) (rounds : Nat)
    (ih : ∀ N, Part ⟨n, .loop condition body rounds, m⟩ N → N.Blind table) :
    Blind table (Task.perform n (.loop condition body rounds)) m := by
  cases rounds with
  | zero => rfl
  | succ k =>
    refine blind_bind (ih _ .roundCondition) fun v m₁ hcondition => ?_
    cases hv : v.isTruthy with
    | true =>
      refine blind_bind (ih _ (.roundBody hcondition hv)) fun flow m₂ hround => ?_
      cases flow with
      | normal => exact ih _ (.nextRound hcondition hv hround)
      | broken => rfl
      | returned w => rfl
    | false => rfl

theorem blind_topLevel (body : List Stmt)
    (ih : ∀ N, Part ⟨n, .topLevel body, m⟩ N → N.Blind table) :
    Blind table (topLevel (.ofFuel n) body) m := by
  cases body with
  | nil => rfl
  | cons s rest =>
    exact blind_bind (ih _ .topHead) fun flow m₁ hhead => ih _ (.topTail hhead)

theorem blind_apply (c : Callable) (arguments : List Value)
    (ih : ∀ N, Part ⟨n, .apply c arguments, m⟩ N → N.Blind table) :
    Blind table (invokeWith n c arguments) m := by
  cases n with
  | zero => rfl
  | succ k =>
    cases c with
    | function f => exact ih _ .function
    | native g =>
      cases g
      rfl
    | «class» d => exact blind_construct fun f g m₁ hf hg => ih _ (.constructCall hf hg)

theorem blind_call (f : Function) (arguments : List Value)
    (ih : ∀ N, Part ⟨n, .call f arguments, m⟩ N → N.Blind table) :
    Blind table (callFunction (runBody n) f arguments) m :=
  blind_callFunction (blind_bind (ih _ .body) fun _ _ _ => rfl)

end Tasks

end Eval

/-- **The bindings that are not looked up do not matter.** -/
theorem Moment.blind_of_agrees {table : Bindings} (M : Moment)
    (h : ∀ N, ReflTransGen Part M N → N.Agrees table) : M.Blind table := by
  let C (M : Moment) : Prop := (∀ N, ReflTransGen Part M N → N.Agrees table) → M.Blind table
  refine M.induction (C := C) (fun M ih h => ?_) h
  have hself : M.Agrees table := h M .refl
  have hparts (N : Moment) (hN : Part M N) : N.Blind table :=
    ih N hN fun N' hN' => h N' (.head hN hN')
  obtain ⟨n, t, m⟩ := M
  cases t with
  | expression e => exact Eval.blind_expression e hself hparts
  | expressions es => exact Eval.blind_expressions es hparts
  | statement s => exact Eval.blind_statement s hself hparts
  | statements body => exact Eval.blind_statements body hparts
  | declarators ds => exact Eval.blind_declarators ds hparts
  | loop condition body rounds => exact Eval.blind_loop condition body rounds hparts
  | topLevel body => exact Eval.blind_topLevel body hparts
  | apply c arguments => exact Eval.blind_apply c arguments hparts
  | call f arguments => exact Eval.blind_call f arguments hparts
  | bind f self => rfl

end ScriptLang
