import ScriptLang.Proofs.Evaluation.Control

/-!
# Whom errors are blamed on

An error is blamed on a word of the node that raised it, and a node has few words that it may be
(`Task.Blames`): a missing variable is blamed on the reference to it, an operand on the operator, a
call on its closing parenthesis, an access on the property. Everything else raises no errors of its
own (`Moment.Raises.blames`).
-/

namespace ScriptLang

/-- The words that an error of a task may be blamed on, if no part of the task is at fault. -/
inductive Task.Blames : Task → Lexeme → Prop
  | variable {ref} : Blames (.expression (.variable ref)) ref.word
  | assign {ref value} : Blames (.expression (.assign ref value)) ref.word
  | unary {op sign operand} : Blames (.expression (.unary op sign operand)) sign
  | binary {op sign left right} : Blames (.expression (.binary op sign left right)) sign
  | call {callee arguments closing} : Blames (.expression (.call callee arguments closing)) closing
  | get {object property} : Blames (.expression (.get object property)) property
  | set {object property value} : Blames (.expression (.set object property value)) property
  | this {ref} : Blames (.expression (.this ref)) ref.word
  | super {ref method} : Blames (.expression (.super ref method)) ref.word
  | superMethod {ref method} : Blames (.expression (.super ref method)) method
  | superclass {name ref members} : Blames (.statement (.class name (some ref) members)) ref.word

namespace Eval

variable {α β : Type} {blamed : Lexeme → Prop} {m m' : Machine}

/-- If the computation ends with an error, this is blamed on one of the words. -/
def Blamed (blamed : Lexeme → Prop) (act : Eval α) (m : Machine) : Prop :=
  Ends act m (fun _ _ => True)
    fun stop _ => ∀ e, stop = .error e → ∃ word fault, blamed word ∧ e = .at word fault

theorem blamed_pure {a : α} : Blamed blamed (pure a) m := trivial

theorem blamed_of_ok {act : Eval α} {a : α} (h : act m = .ok a m') : Blamed blamed act m :=
  ends_of (fun _ _ _ => trivial) fun _ _ hstop => by
    rw [h] at hstop
    cases hstop

/-- What does not stop has no errors. -/
theorem blamed_of_quiet {act : Eval α} (h : ∀ stop m', act m ≠ .error stop m') :
    Blamed blamed act m :=
  ends_of (fun _ _ _ => trivial) fun stop m' hstop => absurd hstop (h stop m')

theorem blamed_bind {act : Eval α} {next : α → Eval β} (hact : Blamed blamed act m)
    (hnext : ∀ a m', act m = .ok a m' → Blamed blamed (next a) m') :
    Blamed blamed (act >>= next) m :=
  ends_bind hact fun a m' h _ => hnext a m' h

theorem blamed_fail {word : Lexeme} {fault : RunFault} (h : blamed word) :
    Blamed blamed (fail word fault : Eval α) m := by
  rintro e ⟨⟩
  exact ⟨word, fault, h, rfl⟩

theorem blamed_ofExcept {word : Lexeme} {r : Except RunError α} (h : blamed word)
    (hr : ∀ e, r = .error e → e = Frames.undefined word) : Blamed blamed (ofExcept r) m := by
  cases r with
  | ok a => exact trivial
  | error e =>
    rw [hr e rfl]
    exact blamed_fail h

/-! ## Steps -/

section Steps

theorem blamed_getAt {hops : Nat} {f : FrameId} {word : Lexeme} (h : blamed word) :
    Blamed blamed (ofExcept (m.frames.getAt hops f word)) m := by
  refine blamed_ofExcept h fun e he => ?_
  unfold Frames.getAt at he
  split at he <;> cases he
  rfl

theorem blamed_readVariable {ref : Ref} (h : blamed ref.word) :
    Blamed blamed (readVariable ref) m := by
  unfold Blamed Ends readVariable
  split
  · exact blamed_getAt h
  · refine blamed_ofExcept h fun e he => ?_
    unfold Frames.getGlobal at he
    split at he <;> cases he
    rfl

theorem eq_of_assignAt {fs : Frames} {hops : Nat} {f : FrameId} {word : Lexeme} {v : Value}
    {e : RunError} (h : fs.assignAt hops f word v = .error e) : e = Frames.undefined word := by
  unfold Frames.assignAt at h
  split at h
  · split at h <;> cases h
    rfl
  · cases h
    rfl

theorem blamed_assignVariable {ref : Ref} {v : Value} (h : blamed ref.word) :
    Blamed blamed (assignVariable ref v) m := by
  refine ends_of (fun _ _ _ => trivial) fun stop m' hstop => ?_
  rintro e rfl
  refine ⟨ref.word, .undefinedVariable ref.word.text, h, ?_⟩
  unfold assignVariable at hstop
  dsimp only at hstop
  split at hstop
  · cases hstop
  · rename_i e' he
    cases hstop
    split at he <;> exact eq_of_assignAt he

theorem blamed_ofOperator {sign : Lexeme} {r : Except RunFault Value} (h : blamed sign) :
    Blamed blamed (ofOperator sign r) m := by
  cases r with
  | ok v => exact trivial
  | error fault => exact blamed_fail h

theorem blamed_getOf {v : Value} {property : Lexeme} (h : blamed property) :
    Blamed blamed (getOf v property) m := by
  unfold getOf
  split
  · refine blamed_bind (blamed_of_ok rfl) fun w m₁ _ => ?_
    split
    · exact blamed_pure
    · split
      · exact blamed_of_ok rfl
      · exact blamed_fail h
  · exact blamed_fail h

theorem blamed_instanceOf {v : Value} {property : Lexeme} (h : blamed property) :
    Blamed blamed (instanceOf v property) m := by
  unfold instanceOf
  split
  · exact blamed_pure
  · exact blamed_fail h

theorem blamed_superMethod {ref : Ref} {method : Lexeme} (h : blamed ref.word)
    (hmethod : blamed method) : Blamed blamed (superMethod ref method) m := by
  refine ends_of (fun _ _ _ => trivial) fun stop m' hstop => ?_
  rintro e rfl
  unfold superMethod at hstop
  dsimp only at hstop
  split at hstop
  · cases hstop
    exact ⟨_, _, h, rfl⟩
  · split at hstop
    · split at hstop
      · cases hstop
      · cases hstop
        exact ⟨_, _, hmethod, rfl⟩
    · cases hstop
      exact ⟨_, _, h, rfl⟩

theorem blamed_declareClass {name : Lexeme} {superclass : Option Ref} {members : List Method}
    (h : ∀ ref ∈ superclass, blamed ref.word) :
    Blamed blamed (declareClass name superclass members) m := by
  rw [declareClass_eq]
  refine blamed_bind ?_ fun parent m₁ hparent => ?_
  · cases superclass with
    | none => exact blamed_pure
    | some ref =>
      have href := h ref rfl
      refine blamed_bind (blamed_bind (blamed_readVariable href) fun v m₁ _ => ?_)
        fun _ _ _ => blamed_pure
      split
      · exact blamed_pure
      · exact blamed_fail href
  · obtain ⟨rfl, -⟩ := parentOf_ok hparent
    obtain ⟨methods, k, -, heq, -⟩ := declareClass_of_parent name members hparent
    rw [declareClass_eq, bind_of_ok hparent] at heq
    exact blamed_of_ok heq

theorem blamed_callValue {n : Nat} {v : Value} {arguments : List Value} {closing : Lexeme}
    (h : blamed closing)
    (hcall : ∀ c, v = .callable c → arguments.length = c.arity → m.depth < m.maxDepth →
      Blamed blamed (invokeWith n c arguments) m.deeper) :
    Blamed blamed (callValue (invokeWith n) v arguments closing) m := by
  unfold callValue
  split
  · rename_i c
    split
    · exact blamed_fail h
    · rename_i harity
      refine ends_deeper (fun _ => ?_) fun hdepth => hcall c rfl (not_not.mp harity) hdepth
      rintro e ⟨⟩
      exact ⟨_, _, h, rfl⟩
  · exact blamed_fail h

end Steps

end Eval

/-! ## Tasks -/

open Eval

variable {n : Nat} {m : Machine}

theorem blamed_expression {e : Expr}
    (hparts : ∀ N, Part ⟨n, .expression e, m⟩ N → ∀ stop m', N.ending ≠ .error stop m') :
    Blamed (Task.Blames (.expression e)) (expression (.ofFuel n) e) m := by
  have quiet {N : Moment} (hN : Part ⟨n, .expression e, m⟩ N) :
      Blamed (Task.Blames (.expression e)) (N.task.perform N.fuel) N.machine :=
    blamed_of_quiet (hparts N hN)
  cases e with
  | literal value => exact blamed_pure
  | «variable» ref => exact blamed_readVariable .variable
  | assign ref value =>
    rw [expression]
    refine blamed_bind (quiet .assignValue) fun v m₁ _ => ?_
    exact blamed_bind (blamed_assignVariable .assign) fun _ _ _ => blamed_pure
  | unary op sign operand =>
    rw [expression]
    exact blamed_bind (quiet .unaryOperand) fun v m₁ _ => blamed_ofOperator .unary
  | binary op sign left right =>
    rw [expression]
    refine blamed_bind (quiet .binaryLeft) fun v m₁ hleft => ?_
    exact blamed_bind (quiet (.binaryRight hleft)) fun w m₂ _ => blamed_ofOperator .binary
  | logical op sign left right =>
    rw [expression]
    refine blamed_bind (quiet .logicalLeft) fun v m₁ hleft => ?_
    cases hdecides : op.decides v with
    | true => exact blamed_pure
    | false => exact quiet (.logicalRight hleft hdecides)
  | comma left right =>
    rw [expression]
    exact blamed_bind (quiet .commaLeft) fun v m₁ hleft => quiet (.commaRight hleft)
  | conditional condition whenTrue whenFalse =>
    rw [expression]
    refine blamed_bind (quiet .condition) fun v m₁ hcondition => ?_
    cases hv : v.isTruthy with
    | true => exact quiet (.whenTrue hcondition hv)
    | false => exact quiet (.whenFalse hcondition hv)
  | grouping inner => exact quiet .grouping
  | call callee arguments closing =>
    rw [expression]
    refine blamed_bind (quiet .callee) fun v m₁ hcallee => ?_
    refine blamed_bind (quiet (.arguments hcallee)) fun vs m₂ harguments => ?_
    refine blamed_callValue .call fun c hc harity hdepth => ?_
    subst hc
    exact quiet (.apply hcallee harguments harity hdepth)
  | get object property =>
    rw [expression]
    exact blamed_bind (quiet .getObject) fun v m₁ _ => blamed_getOf .get
  | set object property value =>
    rw [expression]
    refine blamed_bind (quiet .setObject) fun v m₁ hobject => ?_
    refine blamed_bind (blamed_instanceOf .set) fun i m₂ hi => ?_
    obtain ⟨rfl, rfl⟩ := instanceOf_ok hi
    refine blamed_bind (quiet (.setValue hobject)) fun w m₃ _ => ?_
    exact blamed_bind (blamed_of_ok rfl) fun _ _ _ => blamed_pure
  | this ref => exact blamed_readVariable .this
  | super ref method => exact blamed_superMethod .super .superMethod
  | function routine => exact blamed_of_ok (declaredFunction_eq none routine m)

theorem blamed_statement {s : Stmt}
    (hparts : ∀ N, Part ⟨n, .statement s, m⟩ N → ∀ stop m', N.ending ≠ .error stop m') :
    Blamed (Task.Blames (.statement s)) (statement (.ofFuel n) s) m := by
  have quiet {N : Moment} (hN : Part ⟨n, .statement s, m⟩ N) :
      Blamed (Task.Blames (.statement s)) (N.task.perform N.fuel) N.machine :=
    blamed_of_quiet (hparts N hN)
  cases s with
  | expression e =>
    rw [statement]
    exact blamed_bind (quiet .evaluated) fun _ _ _ => blamed_pure
  | print e =>
    rw [statement]
    refine blamed_bind (quiet .printed) fun v m₁ _ => ?_
    exact blamed_bind (blamed_of_ok rfl) fun _ _ _ => blamed_pure
  | vars ds =>
    rw [statement]
    exact blamed_bind (quiet .declared) fun _ _ _ => blamed_pure
  | block body =>
    rw [statement]
    refine blamed_bind (blamed_of_ok rfl) fun f m₁ hf => ?_
    cases hf
    refine blamed_bind (blamed_of_ok rfl) fun f m₁ hf => ?_
    cases hf
    exact ends_within (quiet .block)
  | ifElse condition whenTrue whenFalse =>
    cases whenFalse with
    | none =>
      rw [statement]
      refine blamed_bind (quiet .choice) fun v m₁ hcondition => ?_
      cases hv : v.isTruthy with
      | true => exact quiet (.chosen hcondition hv)
      | false => exact blamed_pure
    | some whenFalse =>
      rw [statement]
      refine blamed_bind (quiet .choice) fun v m₁ hcondition => ?_
      cases hv : v.isTruthy with
      | true => exact quiet (.chosen hcondition hv)
      | false => exact quiet (.alternative hcondition hv)
  | whileLoop condition body => exact quiet .loop
  | breakLoop keyword => exact blamed_pure
  | returnFrom keyword value =>
    cases value with
    | none => exact blamed_pure
    | some e =>
      rw [statement]
      exact blamed_bind (quiet .returned) fun _ _ _ => blamed_pure
  | function name routine => exact blamed_of_ok rfl
  | «class» name superclass members =>
    rw [statement]
    refine blamed_bind (blamed_declareClass fun ref href => ?_) fun _ _ _ => blamed_pure
    cases href
    exact .superclass

/-- What is no node raises no errors of its own. -/
theorem blamed_other {M : Moment}
    (hparts : ∀ N, Part M N → ∀ stop m', N.ending ≠ .error stop m') :
    Blamed M.task.Blames (M.task.perform M.fuel) M.machine := by
  have quiet {N : Moment} (hN : Part M N) :
      Blamed M.task.Blames (N.task.perform N.fuel) N.machine := blamed_of_quiet (hparts N hN)
  obtain ⟨n, task, m⟩ := M
  cases task with
  | expression e => exact blamed_expression hparts
  | statement s => exact blamed_statement hparts
  | expressions es =>
    cases es with
    | nil => exact blamed_pure
    | cons e es =>
      refine blamed_bind (quiet .first) fun v m₁ hfirst => ?_
      exact blamed_bind (quiet (.others hfirst)) fun _ _ _ => blamed_pure
  | statements body =>
    cases body with
    | nil => exact blamed_pure
    | cons s rest =>
      refine blamed_bind (quiet .head) fun flow m₁ hhead => ?_
      cases flow with
      | normal => exact quiet (.tail hhead)
      | broken => exact blamed_pure
      | returned v => exact blamed_pure
  | declarators ds =>
    cases ds with
    | nil => exact blamed_pure
    | cons d rest =>
      obtain ⟨name, initializer⟩ := d
      cases initializer with
      | none =>
        exact ends_bind_of_ok rfl
          (quiet (N := ⟨n, .declarators rest, m.defining name.text .nil⟩) .afterName)
      | some e => exact blamed_bind (quiet .initializer) fun v m₁ he => quiet (.afterInitializer he)
  | loop condition body rounds =>
    cases rounds with
    | zero => exact nofun
    | succ rounds =>
      refine blamed_bind (quiet .roundCondition) fun v m₁ hcondition => ?_
      cases hv : v.isTruthy with
      | true =>
        refine blamed_bind (quiet (.roundBody hcondition hv)) fun flow m₂ hbody => ?_
        cases flow with
        | normal => exact quiet (.nextRound hcondition hv hbody)
        | broken => exact blamed_pure
        | returned w => exact blamed_pure
      | false => exact blamed_pure
  | topLevel body =>
    cases body with
    | nil => exact blamed_pure
    | cons s rest =>
      exact blamed_bind (quiet .topHead) fun flow m₁ hhead => quiet (.topTail hhead)
  | apply c arguments =>
    refine ends_apply (fun _ => nofun) ?_ (fun _ => trivial) ?_
    · rintro k f rfl rfl
      exact quiet (N := ⟨k, .call f arguments, m⟩) .function
    · rintro k c rfl rfl
      refine ends_construct (fun _ => trivial) fun f hf => ?_
      refine Ends.mono (quiet (.constructBind hf)) (fun g m₁ hg _ => ?_) fun _ _ hstop => hstop
      exact quiet (.constructCall hf hg)
  | call f arguments => exact ends_callFunction (quiet .body)
  | bind f self => exact blamed_of_ok (bindThis_eq f self m)

/-- **An error is blamed on a word of the node that raised it.** -/
theorem Moment.Raises.blames {N : Moment} {e : RunError} {m : Machine}
    (h : N.Raises (.error e) m) : ∃ word fault, N.task.Blames word ∧ e = .at word fault :=
  (blamed_other h.2).of_error h.1 e rfl

end ScriptLang
