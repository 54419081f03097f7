import ScriptLang.Proofs.Evaluation.Steps
import ScriptLang.Proofs.Program.WellFormed

/-!
# What evaluation leaves in place

Evaluation makes frames and gives names values, but it never takes anything away. After any
piece of it, whether it ends with a result or stops,

* the current frame and the depth of calls are what they were before,
* no frame is lost, moved to another place, or robbed of a name,
* a frame that was there has a new name only if it is the current frame and the name is
  declared right there (`Task.declares`), and not in a block or routine inside.

This is `Machine.Grows`, and `Moment.grows` is the statement that it holds of every piece of
evaluation.
-/

namespace ScriptLang

/-! ## Declared names -/

/-- The names that a task may give to the current frame. -/
def Task.declares : Task → List String
  | statement s => s.declares
  | statements body => body.flatMap Stmt.declares
  | declarators ds => ds.map (·.name.text)
  | loop _ body _ => body.declares
  | topLevel body => body.flatMap Stmt.declares
  | _ => []

/-! ## Growth of a store of frames -/

/-- The second store has everything of the first one, and in the frames of the first one no
names are new but those allowed. -/
structure Frames.Extends (may : FrameId → String → Prop) (fs fs' : Frames) : Prop where
  count : fs.count ≤ fs'.count
  outward : ∀ f, f < fs.count → fs'.outward? f = fs.outward? f
  kept : ∀ f x, (fs.here? f x).isSome → (fs'.here? f x).isSome
  new : ∀ f x, f < fs.count → (fs'.here? f x).isSome → (fs.here? f x).isSome ∨ may f x

namespace Frames.Extends

variable {may may' : FrameId → String → Prop} {fs fs₁ fs₂ : Frames}

theorem refl (fs : Frames) : Extends may fs fs :=
  ⟨Nat.le_refl _, fun _ _ => rfl, fun _ _ h => h, fun _ _ _ h => .inl h⟩

theorem trans (h₁ : Extends may fs fs₁) (h₂ : Extends may fs₁ fs₂) : Extends may fs fs₂ where
  count := Nat.le_trans h₁.count h₂.count
  outward f hf := by
    rw [h₂.outward f (Nat.lt_of_lt_of_le hf h₁.count), h₁.outward f hf]
  kept f x h := h₂.kept f x (h₁.kept f x h)
  new f x hf h := by
    rcases h₂.new f x (Nat.lt_of_lt_of_le hf h₁.count) h with h | h
    · exact h₁.new f x hf h
    · exact .inr h

theorem mono (h : Extends may fs fs₁)
    (hmay : ∀ f x, f < fs.count → may f x → may' f x) : Extends may' fs fs₁ where
  count := h.count
  outward := h.outward
  kept := h.kept
  new f x hf hx := by
    rcases h.new f x hf hx with h' | h'
    · exact .inl h'
    · exact .inr (hmay f x hf h')

theorem of_push (e : Option FrameId) : Extends may fs (fs.push e) where
  count := by rw [count_push]; omega
  outward f hf := outward?_push_of_lt hf
  kept f x h := by rwa [here?_push]
  new f x _ h := by
    rw [here?_push] at h
    exact .inl h

theorem of_define {f : FrameId} {name : String} (v : Value)
    (h : (fs.here? f name).isSome ∨ may f name) : Extends may fs (fs.define f name v) where
  count := by rw [count_define]
  outward g _ := outward?_define ..
  kept g x hg := here?_isSome_define hg
  new g x _ hg := by
    rw [here?_define] at hg
    split at hg
    · rename_i hc
      obtain ⟨rfl, rfl, -⟩ := hc
      exact h
    · exact .inl hg

/-- A frame that is made and filled at once brings no names to the frames before it. -/
theorem of_push_defineAll (e : Option FrameId) (names : List String) (vs : List Value) :
    Extends may fs ((fs.push e).defineAll fs.nextId names vs) where
  count := by rw [count_defineAll, count_push]; omega
  outward f hf := by rw [outward?_defineAll, outward?_push_of_lt hf]
  kept f x h := here?_isSome_defineAll _ _ (by rwa [here?_push])
  new f x hf h := by
    have hne : f ≠ fs.nextId := Nat.ne_of_lt hf
    unfold here? at h
    rw [frame?_defineAll_of_ne hne, frame?_push_of_lt hf] at h
    exact .inl h

theorem of_push_define (e : Option FrameId) (name : String) (v : Value) :
    Extends may fs ((fs.push e).define fs.nextId name v) :=
  of_push_defineAll e [name] [v]

end Frames.Extends

/-! ## Growth of a machine -/

/-- The second machine comes after the first one, with the same current frame and depth, and
the current frame has no new names but those of `xs`. -/
structure Machine.Grows (xs : List String) (m m' : Machine) : Prop where
  current : m'.current = m.current
  depth : m'.depth = m.depth
  maxDepth : m'.maxDepth = m.maxDepth
  globals : m'.globals = m.globals
  bindings : m'.bindings = m.bindings
  clock : m'.clock = m.clock
  frames : m.frames.Extends (fun f x => f = m.current ∧ x ∈ xs) m'.frames
  fields : m.fields.size ≤ m'.fields.size
  made : m.made ≤ m'.made
  readings : m.readings ≤ m'.readings
  printed : ∃ more, m'.printed.contents = m.printed.contents ++ more

namespace Machine.Grows

variable {xs ys : List String} {m m₁ m₂ : Machine}

theorem refl (m : Machine) : m.Grows xs m :=
  ⟨rfl, rfl, rfl, rfl, rfl, rfl, .refl _, Nat.le_refl _, Nat.le_refl _, Nat.le_refl _, "",
    String.append_empty.symm⟩

theorem trans (h₁ : m.Grows xs m₁) (h₂ : m₁.Grows xs m₂) : m.Grows xs m₂ where
  current := h₂.current.trans h₁.current
  depth := h₂.depth.trans h₁.depth
  maxDepth := h₂.maxDepth.trans h₁.maxDepth
  globals := h₂.globals.trans h₁.globals
  bindings := h₂.bindings.trans h₁.bindings
  clock := h₂.clock.trans h₁.clock
  frames := h₁.frames.trans (h₁.current ▸ h₂.frames)
  fields := Nat.le_trans h₁.fields h₂.fields
  made := Nat.le_trans h₁.made h₂.made
  readings := Nat.le_trans h₁.readings h₂.readings
  printed := by
    obtain ⟨more₁, h₁⟩ := h₁.printed
    obtain ⟨more₂, h₂⟩ := h₂.printed
    exact ⟨more₁ ++ more₂, by rw [h₂, h₁, String.append_assoc]⟩

theorem mono (h : m.Grows xs m₁) (hsub : ∀ x ∈ xs, x ∈ ys) : m.Grows ys m₁ :=
  { h with frames := h.frames.mono fun _ _ _ hx => ⟨hx.1, hsub _ hx.2⟩ }

theorem of_none (h : m.Grows [] m₁) : m.Grows xs m₁ := h.mono fun _ hx => by simp at hx

/-- Only the frames change. -/
theorem of_frames {fs : Frames}
    (h : m.frames.Extends (fun f x => f = m.current ∧ x ∈ xs) fs) :
    m.Grows xs { m with frames := fs } := { (refl m : m.Grows xs m) with frames := h }

theorem of_defining {name : String} (v : Value) (h : name ∈ xs) :
    m.Grows xs (m.defining name v) := of_frames (.of_define v (.inr ⟨rfl, h⟩))

theorem of_made {k : Nat} (h : m.made ≤ k) : m.Grows xs { m with made := k } :=
  { (refl m : m.Grows xs m) with made := h }

theorem of_withInstance : m.Grows xs m.withInstance :=
  { (refl m : m.Grows xs m) with fields := by simp [withInstance] }

theorem of_boundMachine {f : Function} {self : Value} :
    m.Grows xs (Eval.boundMachine f self m) :=
  (of_frames (.of_push_define ..)).trans (of_made (Nat.le_succ _))

theorem of_println {text : String} :
    m.Grows xs { m with printed := m.printed.println text } :=
  { (refl m : m.Grows xs m) with printed := ⟨text ++ "\n", String.append_assoc⟩ }

/-- What happens inside a frame that was just made leaves those before it alone. -/
theorem of_inner (inner : Machine) (hframes : m.frames.Extends (fun _ _ => False) inner.frames)
    (hcurrent : inner.current = m.frames.nextId)
    (hsame : { inner with frames := m.frames, current := m.current } = m)
    (h : inner.Grows ys m₁) : m.Grows xs { m₁ with current := m.current } := by
  have hother : m.Grows [] { inner with current := m.current } := by
    have hm : m.Grows [] m := refl m
    rw [← hsame] at hm ⊢
    exact { hm with frames := hframes.mono fun _ _ _ h => h.elim }
  refine of_none ⟨rfl, h.depth.trans hother.depth, h.maxDepth.trans hother.maxDepth,
    h.globals.trans hother.globals, h.bindings.trans hother.bindings, h.clock.trans hother.clock,
    ?_, Nat.le_trans hother.fields h.fields, Nat.le_trans hother.made h.made,
    Nat.le_trans hother.readings h.readings, ?_⟩
  · have hinner : inner.frames.Extends (fun f _ => f = m.frames.nextId) m₁.frames :=
      h.frames.mono fun _ _ _ hx => hx.1.trans hcurrent
    refine ⟨Nat.le_trans hframes.count hinner.count, fun f hf => ?_, fun f x hx => ?_,
      fun f x hf hx => ?_⟩
    · rw [hinner.outward f (Nat.lt_of_lt_of_le hf hframes.count), hframes.outward f hf]
    · exact hinner.kept f x (hframes.kept f x hx)
    · rcases hinner.new f x (Nat.lt_of_lt_of_le hf hframes.count) hx with hx | hx
      · exact .inl ((hframes.new f x hf hx).resolve_right id)
      · exact absurd hx (Nat.ne_of_lt hf)
  · have hprinted : inner.printed = m.printed := (congrArg Machine.printed hsame :)
    rw [← hprinted]
    exact h.printed

theorem of_inBlock (h : m.inBlock.Grows ys m₁) :
    m.Grows xs { m₁ with current := m.current } := of_inner m.inBlock (.of_push _) rfl rfl h

theorem of_inCall {f : Function} {arguments : List Value}
    (h : (m.inCall f arguments).Grows ys m₁) : m.Grows xs { m₁ with current := m.current } :=
  of_inner (m.inCall f arguments) (.of_push_defineAll ..) rfl rfl h

theorem of_deeper (h : m.deeper.Grows xs m₁) :
    m.Grows xs { m₁ with depth := m₁.depth - 1 } :=
  { h with
    depth := by
      change m₁.depth - 1 = m.depth
      rw [h.depth]
      exact Nat.add_sub_cancel .. }

theorem of_methodMachine {parent : Option Class} : m.Grows xs (Eval.methodMachine m parent) := by
  cases parent with
  | none => exact refl _
  | some c => exact of_frames (.of_push_define ..)

/-- A class brings its name to the current frame, and nothing else. -/
theorem of_classMachine {name : Lexeme} {parent : Option Class} {methods : Slots Function}
    {k : Nat} (hk : m.made ≤ k) (h : name.text ∈ xs) :
    m.Grows xs (Eval.classMachine name parent methods k m) := by
  have h₁ : m.Grows xs (m.defining name.text .nil) := of_defining _ h
  have h₂ : (m.defining name.text .nil).Grows xs
      (Eval.methodMachine (m.defining name.text .nil) parent) := of_methodMachine
  have hmade : (Eval.methodMachine (m.defining name.text .nil) parent).made = m.made := by
    cases parent <;> rfl
  refine ((h₁.trans h₂).trans (of_defining _ h)).trans (of_made ?_)
  change (Eval.methodMachine (m.defining name.text .nil) parent).made ≤ k + 1
  omega

end Machine.Grows

/-! ## Growth by computations -/

namespace Eval

variable {α β : Type} {xs ys : List String} {m : Machine}

/-- However a computation ends, the machine has only grown. -/
def Keeps (xs : List String) (act : Eval α) (m : Machine) : Prop :=
  Ends act m (fun _ m' => m.Grows xs m') fun _ m' => m.Grows xs m'

theorem Keeps.mono {act : Eval α} (h : Keeps xs act m) (hsub : ∀ x ∈ xs, x ∈ ys) :
    Keeps ys act m := Ends.mono h (fun _ _ _ h => h.mono hsub) fun _ _ h => h.mono hsub

theorem Keeps.of_none {act : Eval α} (h : Keeps [] act m) : Keeps xs act m :=
  h.mono fun _ hx => by simp at hx

/-- A computation that goes on where another one left the machine. -/
theorem Keeps.after {act : Eval α} {m₁ : Machine} (h : m.Grows xs m₁) (hact : Keeps xs act m₁) :
    Ends act m₁ (fun _ m' => m.Grows xs m') fun _ m' => m.Grows xs m' :=
  Ends.mono hact (fun _ _ _ h' => h.trans h') fun _ _ h' => h.trans h'

theorem keeps_pure {a : α} : Keeps xs (pure a) m := Machine.Grows.refl m

theorem keeps_bind {act : Eval α} {next : α → Eval β} (h : Keeps xs act m)
    (hnext : ∀ a m', act m = .ok a m' → Keeps xs (next a) m') : Keeps xs (act >>= next) m :=
  ends_bind h fun a m' ha hgrows => (hnext a m' ha).after hgrows

theorem keeps_bindThis {f : Function} {self : Value} : Keeps xs (bindThis f self) m := by
  unfold Keeps Ends
  rw [bindThis_eq]
  exact Machine.Grows.of_boundMachine

theorem keeps_ofOperator {sign : Lexeme} {r : Except RunFault Value} :
    Keeps xs (ofOperator sign r) m := ends_ofOperator (fun _ _ => .refl m) fun _ => .refl m

theorem keeps_readVariable {ref : Ref} : Keeps xs (readVariable ref) m :=
  ends_readVariable (fun _ _ _ => .refl m) fun _ => .refl m

theorem keeps_assignVariable {ref : Ref} {v : Value} : Keeps xs (assignVariable ref v) m :=
  ends_assignVariable (fun _ hf => .of_frames (.of_define v (.inl hf))) fun _ => .refl m

theorem keeps_declareClass {name : Lexeme} {superclass : Option Ref} {members : List Method}
    (h : name.text ∈ xs) : Keeps xs (declareClass name superclass members) m :=
  ends_declareClass (fun _ _ _ _ hk _ => .of_classMachine hk h) fun _ => .refl m

theorem keeps_getOf {v : Value} {property : Lexeme} : Keeps xs (getOf v property) m :=
  ends_getOf (fun _ _ _ _ => .refl m) (fun _ _ _ _ _ => keeps_bindThis) fun _ => .refl m

theorem keeps_superMethod {ref : Ref} {method : Lexeme} : Keeps xs (superMethod ref method) m :=
  ends_superMethod (fun _ _ _ _ _ _ => keeps_bindThis) fun _ => .refl m

theorem keeps_instanceOf {v : Value} {property : Lexeme} : Keeps xs (instanceOf v property) m :=
  ends_instanceOf (fun _ _ => .refl m) fun _ => .refl m

theorem keeps_setField {i : Instance} {property : Lexeme} {v : Value} :
    Keeps xs (setField i property v) m :=
  { Machine.Grows.refl m with fields := by simp }

theorem keeps_callFunction {n : Nat} {f : Function} {arguments : List Value}
    (h : Keeps ys (statements (.ofFuel n) f.routine.body) (m.inCall f arguments)) :
    Keeps xs (callFunction (runBody n) f arguments) m :=
  ends_callFunction (Ends.mono h (fun _ _ _ h => .of_inCall h) fun _ _ h => .of_inCall h)

theorem keeps_callValue {n : Nat} {v : Value} {arguments : List Value} {closing : Lexeme}
    (h : ∀ c, v = .callable c → arguments.length = c.arity → m.depth < m.maxDepth →
      Keeps xs (invokeWith n c arguments) m.deeper) :
    Keeps xs (callValue (invokeWith n) v arguments closing) m :=
  ends_callValue (fun _ => .refl m) fun c hc harity hdepth =>
    Ends.mono (h c hc harity hdepth) (fun _ _ _ h => .of_deeper h) fun _ _ h => .of_deeper h

end Eval

/-! ## Growth by every piece of evaluation -/

/-- However the evaluation that starts at a moment ends, the machine has only grown. -/
def Moment.Keeps (M : Moment) : Prop :=
  Eval.Keeps M.task.declares (M.task.perform M.fuel) M.machine

namespace Eval

variable {n : Nat} {m : Machine}

theorem keeps_expression (e : Expr)
    (ih : ∀ N, Part ⟨n, .expression e, m⟩ N → N.Keeps) :
    Keeps [] (expression (.ofFuel n) e) m := by
  cases e with
  | literal value => exact keeps_pure
  | «variable» ref => exact keeps_readVariable
  | assign ref value =>
    rw [expression]
    refine keeps_bind (ih _ .assignValue) fun v m₁ _ => ?_
    exact keeps_bind keeps_assignVariable fun _ _ _ => keeps_pure
  | unary op sign operand =>
    rw [expression]
    exact keeps_bind (ih _ .unaryOperand) fun v m₁ _ => keeps_ofOperator
  | binary op sign left right =>
    rw [expression]
    refine keeps_bind (ih _ .binaryLeft) fun v m₁ hleft => ?_
    exact keeps_bind (ih _ (.binaryRight hleft)) fun w m₂ _ => keeps_ofOperator
  | logical op sign left right =>
    rw [expression]
    refine keeps_bind (ih _ .logicalLeft) fun v m₁ hleft => ?_
    cases hv : op.decides v with
    | true => exact keeps_pure
    | false => exact ih _ (.logicalRight hleft hv)
  | comma left right =>
    rw [expression]
    exact keeps_bind (ih _ .commaLeft) fun v m₁ hleft => ih _ (.commaRight hleft)
  | conditional condition whenTrue whenFalse =>
    rw [expression]
    refine keeps_bind (ih _ .condition) fun v m₁ hcondition => ?_
    cases hv : v.isTruthy with
    | true => exact ih _ (.whenTrue hcondition hv)
    | false => exact ih _ (.whenFalse hcondition hv)
  | grouping inner => exact ih _ .grouping
  | call callee arguments closing =>
    rw [expression]
    refine keeps_bind (ih _ .callee) fun v m₁ hcallee => ?_
    refine keeps_bind (ih _ (.arguments hcallee)) fun vs m₂ harguments => ?_
    refine keeps_callValue fun c hc harity hdepth => ?_
    subst hc
    exact ih _ (.apply hcallee harguments harity hdepth)
  | get object property =>
    rw [expression]
    exact keeps_bind (ih _ .getObject) fun v m₁ _ => keeps_getOf
  | set object property value =>
    rw [expression]
    refine keeps_bind (ih _ .setObject) fun v m₁ hobject => ?_
    refine keeps_bind keeps_instanceOf fun i m₂ hi => ?_
    obtain ⟨rfl, rfl⟩ := instanceOf_ok hi
    refine keeps_bind (ih _ (.setValue hobject)) fun w m₃ _ => ?_
    exact keeps_bind keeps_setField fun _ _ _ => keeps_pure
  | this ref => exact keeps_readVariable
  | super ref method => exact keeps_superMethod
  | function routine => exact Machine.Grows.of_made (Nat.le_succ _)

theorem keeps_statement (s : Stmt)
    (ih : ∀ N, Part ⟨n, .statement s, m⟩ N → N.Keeps) :
    Keeps s.declares (statement (.ofFuel n) s) m := by
  cases s with
  | expression e =>
    rw [statement]
    exact keeps_bind (ih _ .evaluated) fun _ _ _ => keeps_pure
  | print e =>
    rw [statement]
    refine keeps_bind (ih _ .printed) fun v m₁ _ => ?_
    exact keeps_bind (β := Flow) Machine.Grows.of_println fun _ _ _ => keeps_pure
  | vars declarators =>
    rw [statement]
    exact keeps_bind (ih _ .declared) fun _ _ _ => keeps_pure
  | block body =>
    rw [statement]
    refine ends_bind_of_ok (a := m.current) rfl (ends_bind_of_ok rfl (ends_within ?_))
    exact Ends.mono (ih _ .block) (fun _ _ _ h => .of_inBlock h) fun _ _ h => .of_inBlock h
  | ifElse condition whenTrue whenFalse =>
    cases whenFalse with
    | none =>
      rw [statement, Stmt.declares]
      refine keeps_bind (.of_none (ih _ .choice)) fun v m₁ hcondition => ?_
      cases hv : v.isTruthy with
      | true => exact ih _ (.chosen hcondition hv)
      | false => exact keeps_pure
    | some whenFalse =>
      rw [statement, Stmt.declares]
      refine keeps_bind (.of_none (ih _ .choice)) fun v m₁ hcondition => ?_
      cases hv : v.isTruthy with
      | true =>
        exact .mono (ih _ (.chosen hcondition hv)) fun _ hx => List.mem_append_left _ hx
      | false =>
        exact .mono (ih _ (.alternative hcondition hv)) fun _ hx => List.mem_append_right _ hx
  | whileLoop condition body =>
    rw [statement, Stmt.declares]
    exact ih _ .loop
  | breakLoop keyword => exact keeps_pure
  | returnFrom keyword value =>
    cases value with
    | none => exact keeps_pure
    | some e =>
      rw [statement]
      exact keeps_bind (ih _ .returned) fun _ _ _ => keeps_pure
  | function name routine =>
    rw [statement]
    refine ends_bind_of_ok (declaredFunction_eq _ _ m) (ends_bind_of_ok rfl ?_)
    exact (Machine.Grows.of_made (Nat.le_succ _)).trans
      (.of_defining _ (by simp [Stmt.declares]))
  | «class» name superclass methods =>
    rw [statement]
    exact keeps_bind (keeps_declareClass (by simp [Stmt.declares])) fun _ _ _ => keeps_pure

theorem keeps_expressions (es : List Expr)
    (ih : ∀ N, Part ⟨n, .expressions es, m⟩ N → N.Keeps) :
    Keeps [] (expressions (.ofFuel n) es) m := by
  cases es with
  | nil => exact keeps_pure
  | cons e es =>
    rw [expressions]
    refine keeps_bind (ih _ .first) fun v m₁ hfirst => ?_
    exact keeps_bind (ih _ (.others hfirst)) fun _ _ _ => keeps_pure

theorem keeps_statements (body : List Stmt)
    (ih : ∀ N, Part ⟨n, .statements body, m⟩ N → N.Keeps) :
    Keeps (body.flatMap Stmt.declares) (statements (.ofFuel n) body) m := by
  cases body with
  | nil => exact keeps_pure
  | cons s rest =>
    rw [statements, List.flatMap_cons]
    refine keeps_bind (.mono (ih _ .head) fun _ hx => List.mem_append_left _ hx)
      fun flow m₁ hhead => ?_
    cases flow with
    | normal => exact .mono (ih _ (.tail hhead)) fun _ hx => List.mem_append_right _ hx
    | broken => exact keeps_pure
    | returned v => exact keeps_pure

theorem keeps_declarators (ds : List Declarator)
    (ih : ∀ N, Part ⟨n, .declarators ds, m⟩ N → N.Keeps) :
    Keeps (ds.map (·.name.text)) (declarators (.ofFuel n) ds) m := by
  cases ds with
  | nil => exact keeps_pure
  | cons declarator rest =>
    obtain ⟨name, initializer⟩ := declarator
    have hname : name.text ∈ (⟨name, initializer⟩ :: rest).map (·.name.text) := by simp
    cases initializer with
    | none =>
      rw [declarators]
      refine ends_bind_of_ok rfl (Keeps.after (.of_defining .nil hname) ?_)
      exact .mono (ih _ .afterName) fun _ hx => List.mem_cons_of_mem _ hx
    | some e =>
      rw [declarators]
      refine keeps_bind (.of_none (ih _ .initializer)) fun v m₁ he => ?_
      refine ends_bind_of_ok rfl (Keeps.after (.of_defining v hname) ?_)
      exact .mono (ih _ (.afterInitializer he)) fun _ hx => List.mem_cons_of_mem _ hx

theorem keeps_loop (condition : Expr) (body : Stmt) (rounds : Nat)
    (ih : ∀ N, Part ⟨n, .loop condition body rounds, m⟩ N → N.Keeps) :
    Keeps body.declares (Task.perform n (.loop condition body rounds)) m := by
  cases rounds with
  | zero => exact Machine.Grows.refl m
  | succ rounds =>
    refine keeps_bind (.of_none (ih _ .roundCondition)) fun v m₁ hcondition => ?_
    cases hv : v.isTruthy with
    | true =>
      refine keeps_bind (ih _ (.roundBody hcondition hv)) fun flow m₂ hbody => ?_
      cases flow with
      | normal => exact ih _ (.nextRound hcondition hv hbody)
      | broken => exact keeps_pure
      | returned w => exact keeps_pure
    | false => exact keeps_pure

theorem keeps_topLevel (body : List Stmt)
    (ih : ∀ N, Part ⟨n, .topLevel body, m⟩ N → N.Keeps) :
    Keeps (body.flatMap Stmt.declares) (topLevel (.ofFuel n) body) m := by
  cases body with
  | nil => exact keeps_pure
  | cons s rest =>
    rw [topLevel, List.flatMap_cons]
    refine keeps_bind (.mono (ih _ .topHead) fun _ hx => List.mem_append_left _ hx)
      fun flow m₁ hhead => ?_
    exact .mono (ih _ (.topTail hhead)) fun _ hx => List.mem_append_right _ hx

theorem keeps_apply (c : Callable) (arguments : List Value)
    (ih : ∀ N, Part ⟨n, .apply c arguments, m⟩ N → N.Keeps) :
    Keeps [] (invokeWith n c arguments) m := by
  refine ends_apply (fun _ => .refl m) ?_ (fun x => ?_) ?_
  · rintro k f rfl rfl
    exact ih _ .function
  · exact { (.refl m : m.Grows [] m) with readings := Nat.le_succ _ }
  · rintro k c rfl rfl
    refine ends_construct (fun _ => .of_withInstance) fun f hf => ends_bindThis ?_
    have hmachine : m.Grows [] (boundMachine f (.instance (m.nextInstance c)) m.withInstance) :=
      Machine.Grows.of_withInstance.trans .of_boundMachine
    exact Keeps.after hmachine (ih _ (.constructCall hf (bindThis_eq ..)))

theorem keeps_call (f : Function) (arguments : List Value)
    (ih : ∀ N, Part ⟨n, .call f arguments, m⟩ N → N.Keeps) :
    Keeps [] (callFunction (runBody n) f arguments) m := keeps_callFunction (ih _ .body)

end Eval

/-- **Evaluation takes nothing away.** However a piece of evaluation ends, the current frame
and the depth of calls are what they were before, and the machine has only grown. -/
theorem Moment.keeps (M : Moment) : M.Keeps := by
  induction M using Moment.induction with
  | _ M ih =>
    obtain ⟨n, task, m⟩ := M
    cases task with
    | expression e => exact Eval.keeps_expression e ih
    | expressions es => exact Eval.keeps_expressions es ih
    | statement s => exact Eval.keeps_statement s ih
    | statements body => exact Eval.keeps_statements body ih
    | declarators ds => exact Eval.keeps_declarators ds ih
    | loop condition body rounds => exact Eval.keeps_loop condition body rounds ih
    | topLevel body => exact Eval.keeps_topLevel body ih
    | apply c arguments => exact Eval.keeps_apply c arguments ih
    | call f arguments => exact Eval.keeps_call f arguments ih
    | bind f self => exact Eval.keeps_bindThis

/-! ## Declared names -/

namespace Eval

variable {n : Nat} {m m' : Machine}

theorem grows_of_declarators {ds : List Declarator}
    (h : declarators (.ofFuel n) ds m = .ok () m') : m.Grows (ds.map (·.name.text)) m' :=
  Ends.of_ok (Moment.keeps ⟨n, .declarators ds, m⟩) h

theorem grows_of_expression {e : Expr} {v : Value}
    (h : expression (.ofFuel n) e m = .ok v m') : m.Grows [] m' :=
  Ends.of_ok (Moment.keeps ⟨n, .expression e, m⟩) h

theorem grows_of_expressions {es : List Expr} {vs : List Value}
    (h : expressions (.ofFuel n) es m = .ok vs m') : m.Grows [] m' :=
  Ends.of_ok (Moment.keeps ⟨n, .expressions es, m⟩) h

theorem grows_of_statement {s : Stmt} {flow : Flow}
    (h : statement (.ofFuel n) s m = .ok flow m') : m.Grows s.declares m' :=
  Ends.of_ok (Moment.keeps ⟨n, .statement s, m⟩) h

theorem grows_of_topLevel {body : List Stmt}
    (h : topLevel (.ofFuel n) body m = .ok () m') : m.Grows (body.flatMap Stmt.declares) m' :=
  Ends.of_ok (Moment.keeps ⟨n, .topLevel body, m⟩) h

theorem defines_declarators {ds : List Declarator}
    (h : declarators (.ofFuel n) ds m = .ok () m') (hm : m.current < m.frames.count) :
    ∀ x ∈ ds.map (·.name.text), (m'.frames.here? m'.current x).isSome := by
  induction ds generalizing m with
  | nil => simp
  | cons d ds ih =>
    obtain ⟨name, initializer⟩ := d
    have hrest {m₁ : Machine} {v : Value} (hm₁ : m₁.current < m₁.frames.count)
        (hends : declarators (.ofFuel n) ds (m₁.defining name.text v) = .ok () m') :
        ∀ x ∈ (⟨name, initializer⟩ :: ds).map (·.name.text),
          (m'.frames.here? m'.current x).isSome := by
      intro x hx
      rw [List.map_cons, List.mem_cons] at hx
      rcases hx with rfl | hx
      · have hgrows := grows_of_declarators hends
        rw [hgrows.current]
        exact hgrows.frames.kept _ _ (isSome_defining hm₁ ..)
      · refine ih hends ?_ x hx
        change m₁.current < (m₁.frames.define m₁.current name.text v).count
        rwa [Frames.count_define]
    cases initializer with
    | none =>
      rw [declarators, bind_of_ok (define_eq ..)] at h
      exact hrest hm h
    | some e =>
      rw [declarators] at h
      obtain ⟨v, m₁, he, h⟩ := bind_eq_ok h
      have hgrows := grows_of_expression he
      rw [bind_of_ok (define_eq ..)] at h
      refine hrest ?_ h
      rw [hgrows.current]
      exact Nat.lt_of_lt_of_le hm hgrows.frames.count

/-- A well-formed statement that ends with a result has defined what it declares. -/
theorem defines_statement {s : Stmt} (hs : s.WellFormed) {flow : Flow}
    (h : statement (.ofFuel n) s m = .ok flow m') (hm : m.current < m.frames.count) :
    ∀ x ∈ s.declares, (m'.frames.here? m'.current x).isSome := by
  cases s with
  | vars ds =>
    rw [statement] at h
    obtain ⟨⟨⟩, m₁, hds, h⟩ := bind_eq_ok h
    cases h
    exact defines_declarators hds hm
  | ifElse condition whenTrue whenFalse =>
    cases whenFalse with
    | none =>
      rw [Stmt.declares, hs.2.2]
      simp
    | some whenFalse =>
      rw [Stmt.declares, hs.2.1.2, hs.2.2.2]
      simp
  | whileLoop condition body =>
    rw [Stmt.declares, hs.2.2]
    simp
  | function name routine =>
    rw [statement, bind_of_ok (declaredFunction_eq ..), bind_of_ok (define_eq ..)] at h
    cases h
    intro x hx
    obtain rfl : x = name.text := by simpa [Stmt.declares] using hx
    exact isSome_defining hm ..
  | «class» name superclass members =>
    rw [statement] at h
    obtain ⟨⟨⟩, m₁, hclass, h⟩ := bind_eq_ok h
    cases h
    intro x hx
    obtain rfl : x = name.text := by simpa [Stmt.declares] using hx
    have hends : Ends (declareClass name superclass members) m
        (fun _ m₁ => (m₁.frames.here? m₁.current name.text).isSome) fun _ _ => True :=
      ends_declareClass (fun parent methods k _ _ _ => isSome_classMachine hm) fun _ => trivial
    exact hends.of_ok hclass
  | expression e => simp [Stmt.declares]
  | print e => simp [Stmt.declares]
  | block body => simp [Stmt.declares]
  | breakLoop keyword => simp [Stmt.declares]
  | returnFrom keyword value => simp [Stmt.declares]

theorem defines_topLevel {body : List Stmt} (hbody : Stmt.AllWellFormed body)
    (h : topLevel (.ofFuel n) body m = .ok () m') (hm : m.current < m.frames.count) :
    ∀ x ∈ body.flatMap Stmt.declares, (m'.frames.here? m'.current x).isSome := by
  induction body generalizing m with
  | nil => simp
  | cons s rest ih =>
    rw [topLevel] at h
    obtain ⟨flow, m₁, hs, h⟩ := bind_eq_ok h
    have hfirst := grows_of_statement hs
    have hlater := grows_of_topLevel h
    intro x hx
    rw [List.flatMap_cons, List.mem_append] at hx
    rcases hx with hx | hx
    · rw [hlater.current]
      exact hlater.frames.kept _ _ (defines_statement hbody.1 hs hm x hx)
    · refine ih hbody.2 h ?_ x hx
      rw [hfirst.current]
      exact Nat.lt_of_lt_of_le hm hfirst.frames.count

end Eval

end ScriptLang
