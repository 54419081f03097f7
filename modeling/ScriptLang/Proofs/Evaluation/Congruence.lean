import ScriptLang.Proofs.Evaluation.Runs

/-!
# Relations that evaluation keeps

The evaluator builds its computations from steps of the machine that run no code (`Primitive`)
in a few ways: one computation after another, in another frame, one call deeper, in rounds. A
relation between computations that holds of the steps and is kept by those ways is a
`Congruence`, and then it holds of all that two evaluators do, as long as it holds of their
limits (`Limits.Related`): of expressions, statements, calls and programs.
-/

namespace ScriptLang.Eval

variable {α β : Type}

/-! ## Steps of the machine -/

/-- The steps of the machine that run no code. -/
inductive Primitive : {α : Type} → Eval α → Prop
  | pure {α : Type} (a : α) : Primitive (pure a : Eval α)
  | fail {α : Type} (word : Lexeme) (fault : RunFault) : Primitive (fail word fault : Eval α)
  | outOfFuel {α : Type} : Primitive (outOfFuel : Eval α)
  | readVariable (ref : Ref) : Primitive (readVariable ref)
  | assignVariable (ref : Ref) (v : Value) : Primitive (assignVariable ref v)
  | current : Primitive current
  | newFrame (enclosing : FrameId) : Primitive (newFrame enclosing)
  | define (name : String) (v : Value) : Primitive (define name v)
  | fill (frame : FrameId) (names : List String) (vs : List Value) :
    Primitive fun m => .ok () { m with frames := m.frames.defineAll frame names vs }
  | thisIn (frame : FrameId) :
    Primitive fun m => .ok ((m.frames.nameAt? 0 frame "this").getD .nil) m
  | home : Primitive (modify Machine.home)
  | println (text : String) : Primitive (println text)
  | readClock : Primitive readClock
  | declaredFunction (name : Option String) (routine : Routine) :
    Primitive (declaredFunction name routine)
  | bindThis (f : Function) (self : Value) : Primitive (bindThis f self)
  | declareClass (name : Lexeme) (superclass : Option Ref) (members : List Method) :
    Primitive (declareClass name superclass members)
  | newInstance (c : Class) : Primitive (newInstance c)
  | getOf (v : Value) (property : Lexeme) : Primitive (getOf v property)
  | instanceOf (v : Value) (property : Lexeme) : Primitive (instanceOf v property)
  | setField (i : Instance) (property : Lexeme) (v : Value) : Primitive (setField i property v)
  | superMethod (ref : Ref) (method : Lexeme) : Primitive (superMethod ref method)

theorem Primitive.ofOperator (sign : Lexeme) (r : Except RunFault Value) :
    Primitive (ofOperator sign r) := by
  cases r with
  | ok v => exact .pure v
  | error fault => exact .fail sign fault

/-! ## Congruences -/

/-- A relation that is kept by every way in which the evaluator builds computations. -/
structure Congruence (R : ∀ {α : Type}, Eval α → Eval α → Prop) : Prop where
  primitive {α : Type} {act : Eval α} : Primitive act → R act act
  bind {α β : Type} {act act' : Eval α} {next next' : α → Eval β} :
    R act act' → (∀ a, R (next a) (next' a)) → R (act >>= next) (act' >>= next')
  within {α : Type} {act act' : Eval α} (frame : FrameId) :
    R act act' → R (within frame act) (within frame act')
  deeper {α : Type} {act act' : Eval α} (word : Lexeme) :
    R act act' → R (deeper word act) (deeper word act')

/-- Loops and calls are related under the two limits. -/
structure Limits.Related (R : ∀ {α : Type}, Eval α → Eval α → Prop) (l l' : Limits) : Prop where
  loop {condition condition' : Eval Value} {body body' : Eval Flow} :
    R condition condition' → R body body' →
      R (repeatWhile condition body l.rounds) (repeatWhile condition' body' l'.rounds)
  invoke (c : Callable) (arguments : List Value) :
    R (l.invoke c arguments) (l'.invoke c arguments)

namespace Congruence

variable {R : ∀ {α : Type}, Eval α → Eval α → Prop} (hR : Congruence R)

include hR

theorem ofOperator (sign : Lexeme) (r : Except RunFault Value) :
    R (ofOperator sign r) (ofOperator sign r) := hR.primitive (.ofOperator sign r)

omit hR in
theorem ite {c : Prop} [Decidable c] {a a' b b' : Eval α} (ha : R a a') (hb : R b b') :
    R (if c then a else b) (if c then a' else b') := by
  by_cases hc : c
  · rwa [if_pos hc, if_pos hc]
  · rwa [if_neg hc, if_neg hc]

/-- A computation whose result is only wrapped. -/
theorem andReturn {act act' : Eval α} (h : R act act') (f : α → β) :
    R (act >>= fun a => pure (f a)) (act' >>= fun a => pure (f a)) :=
  hR.bind h fun a => hR.primitive (.pure (f a))

/-- Rounds of a loop, if one more round is. -/
theorem round {condition condition' : Eval Value} {body body' : Eval Flow} {k k' : Nat}
    (hcondition : R condition condition') (hbody : R body body')
    (hrest : R (repeatWhile condition body k) (repeatWhile condition' body' k')) :
    R (repeatWhile condition body (k + 1)) (repeatWhile condition' body' (k' + 1)) := by
  refine hR.bind hcondition fun v => ite (hR.bind hbody fun flow => ?_) (hR.primitive (.pure _))
  cases flow with
  | normal => exact hrest
  | broken => exact hR.primitive (.pure _)
  | returned w => exact hR.primitive (.pure _)

theorem repeatWhile {condition condition' : Eval Value} {body body' : Eval Flow}
    (hcondition : R condition condition') (hbody : R body body') (k : Nat) :
    R (repeatWhile condition body k) (repeatWhile condition' body' k) := by
  induction k with
  | zero => exact hR.primitive .outOfFuel
  | succ k ih => exact hR.round hcondition hbody ih

/-! ## Calls -/

theorem callFunction {run run' : List Stmt → Eval Value}
    (h : ∀ body, R (run body) (run' body)) (f : Function) (arguments : List Value) :
    R (callFunction run f arguments) (callFunction run' f arguments) := by
  refine hR.bind (hR.primitive (.newFrame _)) fun frame => ?_
  refine hR.bind (hR.primitive (.fill ..)) fun _ => ?_
  refine hR.bind (hR.within frame (h _)) fun result => ?_
  cases f.isInitializer with
  | true => exact hR.primitive (.thisIn _)
  | false => exact hR.primitive (.pure _)

theorem invoke {run run' : List Stmt → Eval Value}
    (h : ∀ body, R (run body) (run' body)) (c : Callable) (arguments : List Value) :
    R (invoke run c arguments) (invoke run' c arguments) := by
  cases c with
  | function f => exact hR.callFunction h f arguments
  | native n =>
    cases n
    exact hR.andReturn (hR.primitive .readClock) _
  | «class» c =>
    refine hR.bind (hR.primitive (.newInstance c)) fun i => ?_
    cases c.initializer? with
    | none => exact hR.primitive (.pure _)
    | some f =>
      refine hR.bind (hR.primitive (.bindThis ..)) fun g => ?_
      exact hR.andReturn (hR.callFunction h g arguments) _

theorem callValue {invoke invoke' : Callable → List Value → Eval Value}
    (h : ∀ c arguments, R (invoke c arguments) (invoke' c arguments)) (v : Value)
    (arguments : List Value) (closing : Lexeme) :
    R (callValue invoke v arguments closing) (callValue invoke' v arguments closing) := by
  have hfault (fault : RunFault) :
      R (fail closing fault : Eval Value) (fail closing fault) := hR.primitive (.fail ..)
  cases v with
  | callable c => exact ite (hfault _) (hR.deeper closing (h c arguments))
  | nil => exact hfault _
  | bool b => exact hfault _
  | number x => exact hfault _
  | text s => exact hfault _
  | «instance» i => exact hfault _

end Congruence

/-! ## Trees -/

section Trees

variable {R : ∀ {α : Type}, Eval α → Eval α → Prop} {l l' : Limits}

mutual

theorem Congruence.expression (hR : Congruence R) (h : l.Related R l') :
    ∀ e, R (expression l e) (expression l' e)
  | .literal _ => hR.primitive (.pure _)
  | .variable ref => hR.primitive (.readVariable ref)
  | .assign ref value =>
    hR.bind (hR.expression h value) fun v =>
      hR.andReturn (hR.primitive (.assignVariable ref v)) _
  | .unary _ _ operand => hR.bind (hR.expression h operand) fun _ => hR.ofOperator ..
  | .binary _ _ left right =>
    hR.bind (hR.expression h left) fun _ =>
      hR.bind (hR.expression h right) fun _ => hR.ofOperator ..
  | .logical _ _ left right =>
    hR.bind (hR.expression h left) fun _ =>
      Congruence.ite (hR.primitive (.pure _)) (hR.expression h right)
  | .comma left right => hR.bind (hR.expression h left) fun _ => hR.expression h right
  | .conditional condition whenTrue whenFalse =>
    hR.bind (hR.expression h condition) fun _ =>
      Congruence.ite (hR.expression h whenTrue) (hR.expression h whenFalse)
  | .grouping inner => hR.expression h inner
  | .call callee arguments closing =>
    hR.bind (hR.expression h callee) fun v =>
      hR.bind (hR.expressions h arguments) fun vs => hR.callValue h.invoke v vs closing
  | .get object property =>
    hR.bind (hR.expression h object) fun v => hR.primitive (.getOf v property)
  | .set object property value =>
    hR.bind (hR.expression h object) fun v =>
      hR.bind (hR.primitive (.instanceOf v property)) fun i =>
        hR.bind (hR.expression h value) fun w =>
          hR.andReturn (hR.primitive (.setField i property w)) _
  | .this ref => hR.primitive (.readVariable ref)
  | .super ref method => hR.primitive (.superMethod ref method)
  | .function routine => hR.primitive (.declaredFunction none routine)

theorem Congruence.expressions (hR : Congruence R) (h : l.Related R l') :
    ∀ es, R (expressions l es) (expressions l' es)
  | [] => hR.primitive (.pure _)
  | e :: es => hR.bind (hR.expression h e) fun _ => hR.andReturn (hR.expressions h es) _

end

mutual

theorem Congruence.statement (hR : Congruence R) (h : l.Related R l') :
    ∀ s, R (statement l s) (statement l' s)
  | .expression e => hR.andReturn (hR.expression h e) _
  | .print e =>
    hR.bind (hR.expression h e) fun v => hR.andReturn (hR.primitive (.println v.display)) _
  | .vars ds => hR.andReturn (hR.declarators h ds) _
  | .block body =>
    hR.bind (hR.primitive .current) fun around =>
      hR.bind (hR.primitive (.newFrame around)) fun frame =>
        hR.within frame (hR.statements h body)
  | .ifElse condition whenTrue none =>
    hR.bind (hR.expression h condition) fun _ =>
      Congruence.ite (hR.statement h whenTrue) (hR.primitive (.pure _))
  | .ifElse condition whenTrue (some whenFalse) =>
    hR.bind (hR.expression h condition) fun _ =>
      Congruence.ite (hR.statement h whenTrue) (hR.statement h whenFalse)
  | .whileLoop condition body => h.loop (hR.expression h condition) (hR.statement h body)
  | .breakLoop _ => hR.primitive (.pure _)
  | .returnFrom _ none => hR.primitive (.pure _)
  | .returnFrom _ (some e) => hR.andReturn (hR.expression h e) _
  | .function name routine =>
    hR.bind (hR.primitive (.declaredFunction (some name.text) routine)) fun v =>
      hR.andReturn (hR.primitive (.define name.text v)) _
  | .class name superclass members =>
    hR.andReturn (hR.primitive (.declareClass name superclass members)) _

theorem Congruence.statements (hR : Congruence R) (h : l.Related R l') :
    ∀ body, R (statements l body) (statements l' body)
  | [] => hR.primitive (.pure _)
  | s :: rest => hR.bind (hR.statement h s) fun flow =>
    match flow with
    | .normal => hR.statements h rest
    | .broken => hR.primitive (.pure _)
    | .returned _ => hR.primitive (.pure _)

theorem Congruence.declarators (hR : Congruence R) (h : l.Related R l') :
    ∀ ds, R (declarators l ds) (declarators l' ds)
  | [] => hR.primitive (.pure _)
  | ⟨name, none⟩ :: rest =>
    hR.bind (hR.primitive (.define name.text .nil)) fun _ => hR.declarators h rest
  | ⟨name, some e⟩ :: rest =>
    hR.bind (hR.expression h e) fun v =>
      hR.bind (hR.primitive (.define name.text v)) fun _ => hR.declarators h rest

end

namespace Congruence

variable (hR : Congruence R)

include hR

theorem topLevel (h : l.Related R l') (body : List Stmt) :
    R (topLevel l body) (topLevel l' body) := by
  induction body with
  | nil => exact hR.primitive (.pure _)
  | cons s rest ih => exact hR.bind (hR.statement h s) fun _ => ih

theorem program (h : l.Related R l') (p : Program) : R (program l p) (program l' p) := by
  refine hR.bind (hR.primitive .home) fun _ => hR.bind (hR.topLevel h p.statements) fun _ => ?_
  cases p.trailing with
  | none => exact hR.primitive (.pure _)
  | some e => exact hR.andReturn (hR.expression h e) _

/-- Calls are related under limits that are. -/
theorem invokeWith {n k : Nat} (h : Limits.Related R ⟨n, invokeWith n⟩ ⟨k, invokeWith k⟩)
    (c : Callable) (arguments : List Value) :
    R (invokeWith (n + 1) c arguments) (invokeWith (k + 1) c arguments) :=
  hR.invoke (fun body => hR.andReturn (hR.statements h body) _) c arguments

/-- What the evaluator does is related to itself. -/
theorem ofFuel (n : Nat) : Limits.Related R (.ofFuel n) (.ofFuel n) := by
  have hinvoke (c : Callable) (arguments : List Value) :
      R (Eval.invokeWith n c arguments) (Eval.invokeWith n c arguments) := by
    induction n generalizing c arguments with
    | zero => exact hR.primitive .outOfFuel
    | succ n ih =>
      exact hR.invokeWith ⟨fun hc hb => hR.repeatWhile hc hb n, fun c arguments => ih c arguments⟩
        c arguments
  exact ⟨fun hc hb => hR.repeatWhile hc hb n, hinvoke⟩

end Congruence

end Trees

end ScriptLang.Eval
