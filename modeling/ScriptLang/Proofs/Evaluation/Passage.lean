import ScriptLang.Proofs.Evaluation.Growth

/-!
# To a part and back

There are many kinds of parts, but only few things happen between a moment and a part of it.

On the way to the part, pieces of evaluation come to their ends, and the machine is made ready
for the part (`Machine.Advances`, `Part.advances`).

On the way back, the evaluation of the part stands inside a computation that does something
before it or after it, or that changes the current frame or the depth while it lasts
(`Eval.ComesTo`, `Part.comesTo`). What follows after the part takes nothing away. So what the
end of a part means for the whole is shown by induction over what is around the part.
-/

namespace ScriptLang

open Relation (ReflTransGen)

/-! ## The way to a part -/

/-- What may happen to the machine on the way from a moment to a part. -/
inductive Machine.Advances : Machine → Machine → Prop
  | ended {M : Moment} {a m'} (h : M.ending = .ok a m') : Advances M.machine m'
  | inBlock {m} : Advances m m.inBlock
  | inCall {m f arguments} : Advances m (m.inCall f arguments)
  | deeper {m} (h : m.depth < m.maxDepth) : Advances m m.deeper
  | withInstance {m} : Advances m m.withInstance
  | defining {m name v} : Advances m (m.defining name v)

open Machine Eval in
theorem Part.advances {M N : Moment} (h : Part M N) :
    ReflTransGen Advances M.machine N.machine := by
  have expr {n e m v m₁} (h : expression (.ofFuel n) e m = .ok v m₁) : m.Advances m₁ :=
    .ended (M := ⟨n, .expression e, m⟩) h
  have stmt {n s m flow m₁} (h : statement (.ofFuel n) s m = .ok flow m₁) : m.Advances m₁ :=
    .ended (M := ⟨n, .statement s, m⟩) h
  cases h with
  | binaryRight hleft => exact .single (expr hleft)
  | logicalRight hleft => exact .single (expr hleft)
  | commaRight hleft => exact .single (expr hleft)
  | whenTrue hcondition => exact .single (expr hcondition)
  | whenFalse hcondition => exact .single (expr hcondition)
  | arguments hcallee => exact .single (expr hcallee)
  | @apply n m m₁ m₂ callee arguments closing c vs hcallee harguments harity hdepth =>
    have harguments' : m₁.Advances m₂ := .ended (M := ⟨n, .expressions arguments, m₁⟩) harguments
    exact .head (expr hcallee) (.head harguments' (.single (.deeper hdepth)))
  | getBind hobject => exact .single (expr hobject)
  | setValue hobject => exact .single (expr hobject)
  | others hfirst => exact .single (expr hfirst)
  | block => exact .single .inBlock
  | chosen hcondition => exact .single (expr hcondition)
  | alternative hcondition => exact .single (expr hcondition)
  | tail hhead => exact .single (stmt hhead)
  | afterInitializer he => exact .head (expr he) (.single .defining)
  | afterName => exact .single .defining
  | roundBody hcondition => exact .single (expr hcondition)
  | nextRound hcondition hv hbody => exact .head (expr hcondition) (.single (stmt hbody))
  | topTail hhead => exact .single (stmt hhead)
  | constructBind hf => exact .single .withInstance
  | @constructCall n m m₁ c arguments f g hf hg =>
    have hbind : m.withInstance.Advances m₁ :=
      .ended (M := ⟨n, .bind f (.instance (m.nextInstance c)), m.withInstance⟩) hg
    exact .head .withInstance (.single hbind)
  | body => exact .single .inCall
  | _ => exact .refl

/-- What steps on the way have in common holds of the whole way. -/
theorem Part.of_advances {R : Machine → Machine → Prop} {M N : Moment} (h : Part M N)
    (hrefl : ∀ m, R m m) (htrans : ∀ {m m₁ m₂}, R m m₁ → R m₁ m₂ → R m m₂)
    (hstep : ∀ {m m₁}, m.Advances m₁ → R m m₁) : R M.machine N.machine := by
  have hway {m m₁ : Machine} (hpath : ReflTransGen Machine.Advances m m₁) : R m m₁ := by
    induction hpath with
    | refl => exact hrefl m
    | tail _ hlast ih => exact htrans ih (hstep hlast)
  exact hway h.advances

/-! ## The way back -/

namespace Eval

/-- The computation, started on the machine, comes to the evaluation that starts at the moment.
Whatever it does after that takes nothing away. -/
inductive ComesTo (N : Moment) : {α : Type} → Eval α → Machine → Prop
  | here : ComesTo N (N.task.perform N.fuel) N.machine
  | before {α β : Type} {act : Eval α} {next : α → Eval β} {m : Machine} (h : ComesTo N act m)
    (hnext : ∀ a m₁, ∃ xs, Keeps xs (next a) m₁) : ComesTo N (act >>= next) m
  | after {α β : Type} {act : Eval α} {next : α → Eval β} {m m₁ : Machine} {a : α}
    (hact : act m = .ok a m₁) (h : ComesTo N (next a) m₁) : ComesTo N (act >>= next) m
  | inside {α : Type} {act : Eval α} {m : Machine} {frame : FrameId}
    (h : ComesTo N act { m with current := frame }) : ComesTo N (within frame act) m
  | deeper {α : Type} {act : Eval α} {m : Machine} {word : Lexeme} (hdepth : m.depth < m.maxDepth)
    (h : ComesTo N act m.deeper) : ComesTo N (deeper word act) m
  -- some computations look at the machine before they decide what to do
  | same {α : Type} {act act' : Eval α} {m : Machine} (hact : act m = act' m)
    (h : ComesTo N act' m) : ComesTo N act m

variable {N : Moment} {α β : Type} {act act' : Eval α} {next : α → Eval β} {n : Nat} {m : Machine}

theorem ite_of_truthy {v : Value} (hv : v.isTruthy = true) :
    (if v.isTruthy then act else act') = act := by rw [if_pos hv]

theorem ite_of_not_truthy {v : Value} (hv : v.isTruthy = false) :
    (if v.isTruthy then act else act') = act' := by
  rw [if_neg (by rw [hv]; exact Bool.false_ne_true)]

theorem keeps_ite {xs : List String} {b : Bool} (h : Keeps xs act m) (h' : Keeps xs act' m) :
    Keeps xs (if b then act else act') m := by
  cases b with
  | true => exact h
  | false => exact h'

namespace ComesTo

/-- What is left to do after the part gives no names to the current frame. -/
theorem first (h : ComesTo N act m) (hnext : ∀ a m₁, Keeps [] (next a) m₁) :
    ComesTo N (act >>= next) m := .before h fun a m₁ => ⟨[], hnext a m₁⟩

theorem of_truthy {v : Value} (hv : v.isTruthy = true) (h : ComesTo N act m) :
    ComesTo N (if v.isTruthy then act else act') m := by rwa [ite_of_truthy hv]

theorem of_not_truthy {v : Value} (hv : v.isTruthy = false) (h : ComesTo N act' m) :
    ComesTo N (if v.isTruthy then act else act') m := by rwa [ite_of_not_truthy hv]

theorem getProperty {i : Instance} {property : Lexeme} {f : Function}
    (hfield : m.field? i property.text = none)
    (hf : i.ofClass.findMethod property.text = some f) :
    ComesTo ⟨n, .bind f (.instance i), m⟩ (getProperty i property) m := by
  have hread : field? i property.text m = .ok (m.field? i property.text) m := rfl
  unfold Eval.getProperty
  refine .after hread ?_
  rw [hfield]
  dsimp only
  rw [hf]
  exact .first .here fun _ _ => keeps_pure

theorem superMethod {ref : Ref} {method : Lexeme} {hops : Nat} {c : Class} {f : Function}
    (hhops : m.bindings.hops? ref.id = some hops)
    (hsuper : m.frames.nameAt? hops m.current "super" = some (.callable (.class c)))
    (hf : c.findMethod method.text = some f) :
    ComesTo ⟨n, .bind f (m.thisInside hops), m⟩ (superMethod ref method) m := by
  have hbound : Eval.superMethod ref method m =
      (bindThis f (m.thisInside hops) >>= fun g => pure (.callable (.function g))) m := by
    unfold Eval.superMethod
    rw [hhops]
    dsimp only
    rw [hsuper]
    dsimp only
    rw [hf]
    cases hops <;> rfl
  exact .same hbound (.first .here fun _ _ => keeps_pure)

theorem callValue {c : Callable} {arguments : List Value} {closing : Lexeme}
    (harity : arguments.length = c.arity) (hdepth : m.depth < m.maxDepth) :
    ComesTo ⟨n, .apply c arguments, m.deeper⟩
      (callValue (invokeWith n) (.callable c) arguments closing) m := by
  unfold Eval.callValue
  simp only [harity, ne_eq, not_true_eq_false, if_false]
  exact .deeper hdepth .here

theorem callFunction {f : Function} {arguments : List Value} :
    ComesTo ⟨n, .statements f.routine.body, m.inCall f arguments⟩
      (callFunction (runBody n) f arguments) m := by
  unfold Eval.callFunction
  refine .after (a := m.frames.nextId) rfl (.after rfl (.first (.inside ?_) fun v m₁ => ?_))
  · exact .first .here fun _ _ => keeps_pure
  · cases f.isInitializer with
    | true => exact Machine.Grows.refl m₁
    | false => exact keeps_pure

/-- Making an instance comes to what its initializer comes to. -/
theorem construct {c : Class} {arguments : List Value} {f : Function} (hf : c.initializer? = some f)
    (h : ComesTo N (bindThis f (.instance (m.nextInstance c)) >>= fun g => do
      let _ ← Eval.callFunction (runBody n) g arguments
      pure (Value.instance (m.nextInstance c))) m.withInstance) :
    ComesTo N (construct (runBody n) c arguments) m := by
  have hnew : newInstance c m = .ok (m.nextInstance c) m.withInstance := rfl
  unfold Eval.construct
  refine .after hnew ?_
  simp only [hf]
  exact h

end ComesTo

end Eval

open Eval in
/-- **Whatever is evaluated comes to its parts.** -/
theorem Part.comesTo {M N : Moment} (h : Part M N) :
    ComesTo N (M.task.perform M.fuel) M.machine := by
  -- what comes before a part is what the part says has ended; what comes after it may be anything
  cases h with
  | assignValue =>
    exact .first .here fun _ _ => keeps_bind keeps_assignVariable fun _ _ _ => keeps_pure
  | unaryOperand => exact .first .here fun _ _ => keeps_ofOperator
  | binaryLeft =>
    exact .first .here fun _ m₁ =>
      keeps_bind (Moment.keeps ⟨_, .expression _, m₁⟩) fun _ _ _ => keeps_ofOperator
  | binaryRight hleft => exact .after hleft (.first .here fun _ _ => keeps_ofOperator)
  | logicalLeft =>
    exact .first .here fun _ m₁ => keeps_ite keeps_pure (Moment.keeps ⟨_, .expression _, m₁⟩)
  | logicalRight hleft hv =>
    refine .after hleft ?_
    dsimp only
    rw [hv]
    exact .here
  | commaLeft => exact .first .here fun _ m₁ => Moment.keeps ⟨_, .expression _, m₁⟩
  | commaRight hleft => exact .after hleft .here
  | condition =>
    exact .first .here fun _ m₁ =>
      keeps_ite (Moment.keeps ⟨_, .expression _, m₁⟩) (Moment.keeps ⟨_, .expression _, m₁⟩)
  | whenTrue hcondition hv => exact .after hcondition (.of_truthy hv .here)
  | whenFalse hcondition hv => exact .after hcondition (.of_not_truthy hv .here)
  | grouping => exact .here
  | callee =>
    refine .first .here fun v m₁ => ?_
    refine keeps_bind (Moment.keeps ⟨_, .expressions _, m₁⟩) fun vs m₂ _ => ?_
    exact keeps_callValue fun c _ _ _ => Moment.keeps ⟨_, .apply c vs, m₂.deeper⟩
  | arguments hcallee =>
    refine .after hcallee (.first .here fun vs m₂ => ?_)
    exact keeps_callValue fun c _ _ _ => Moment.keeps ⟨_, .apply c vs, m₂.deeper⟩
  | apply hcallee harguments harity hdepth =>
    exact .after hcallee (.after harguments (.callValue harity hdepth))
  | getObject => exact .first .here fun _ _ => keeps_getOf
  | getBind hobject hfield hf => exact .after hobject (.getProperty hfield hf)
  | setObject =>
    refine .first .here fun v m₁ => keeps_bind keeps_instanceOf fun i m₂ _ => ?_
    refine keeps_bind (Moment.keeps ⟨_, .expression _, m₂⟩) fun w m₃ _ => ?_
    exact keeps_bind keeps_setField fun _ _ _ => keeps_pure
  | setValue hobject =>
    refine .after hobject (.after rfl (.first .here fun w m₂ => ?_))
    exact keeps_bind keeps_setField fun _ _ _ => keeps_pure
  | superBind hhops hsuper hf => exact .superMethod hhops hsuper hf
  | first =>
    exact .first .here fun _ m₁ =>
      keeps_bind (Moment.keeps ⟨_, .expressions _, m₁⟩) fun _ _ _ => keeps_pure
  | others hfirst => exact .after hfirst (.first .here fun _ _ => keeps_pure)
  | evaluated => exact .first .here fun _ _ => keeps_pure
  | printed =>
    refine .first .here fun v m₁ => ?_
    exact keeps_bind (β := Flow) Machine.Grows.of_println fun _ _ _ => keeps_pure
  | declared => exact .first .here fun _ _ => keeps_pure
  | @block n m body => exact .after (a := m.current) rfl (.after rfl (.inside .here))
  | @choice n m condition whenTrue whenFalse =>
    cases whenFalse with
    | none =>
      refine .before .here fun _ m₁ => ⟨whenTrue.declares, ?_⟩
      exact keeps_ite (Moment.keeps ⟨n, .statement whenTrue, m₁⟩) keeps_pure
    | some whenFalse =>
      refine .before .here fun _ m₁ => ⟨whenTrue.declares ++ whenFalse.declares, keeps_ite ?_ ?_⟩
      · exact .mono (Moment.keeps ⟨n, .statement whenTrue, m₁⟩) fun _ => List.mem_append_left _
      · exact .mono (Moment.keeps ⟨n, .statement whenFalse, m₁⟩) fun _ => List.mem_append_right _
  | @chosen n m m₁ condition whenTrue whenFalse v hcondition hv =>
    cases whenFalse with
    | none => exact .after hcondition (.of_truthy hv .here)
    | some whenFalse => exact .after hcondition (.of_truthy hv .here)
  | alternative hcondition hv => exact .after hcondition (.of_not_truthy hv .here)
  | loop => exact .here
  | returned => exact .first .here fun _ _ => keeps_pure
  | @head n m s rest =>
    refine .before .here fun flow m₁ => ⟨rest.flatMap Stmt.declares, ?_⟩
    cases flow with
    | normal => exact Moment.keeps ⟨n, .statements rest, m₁⟩
    | broken => exact keeps_pure
    | returned v => exact keeps_pure
  | tail hhead => exact .after hhead .here
  | @initializer n m name e rest =>
    refine .before .here fun v m₁ => ⟨name.text :: rest.map (·.name.text), ?_⟩
    have hrest := Moment.keeps ⟨n, .declarators rest, m₁.defining name.text v⟩
    refine ends_bind_of_ok rfl (Keeps.after (.of_defining v List.mem_cons_self) ?_)
    exact .mono hrest fun _ hx => List.mem_cons_of_mem _ hx
  | afterInitializer he => exact .after he (.after rfl .here)
  | afterName => exact .after rfl .here
  | @roundCondition n m condition body rounds =>
    refine .before .here fun v m₁ => ⟨body.declares, keeps_ite ?_ keeps_pure⟩
    refine keeps_bind (Moment.keeps ⟨n, .statement body, m₁⟩) fun flow m₂ _ => ?_
    cases flow with
    | normal => exact Moment.keeps ⟨n, .loop condition body rounds, m₂⟩
    | broken => exact keeps_pure
    | returned w => exact keeps_pure
  | @roundBody n m m₁ condition body rounds v hcondition hv =>
    refine .after hcondition (.of_truthy hv (.before .here fun flow m₂ => ⟨body.declares, ?_⟩))
    cases flow with
    | normal => exact Moment.keeps ⟨n, .loop condition body rounds, m₂⟩
    | broken => exact keeps_pure
    | returned w => exact keeps_pure
  | nextRound hcondition hv hbody =>
    exact .after hcondition (.of_truthy hv (.after hbody .here))
  | @topHead n m s rest =>
    exact .before .here fun _ m₁ => ⟨_, Moment.keeps ⟨n, .topLevel rest, m₁⟩⟩
  | topTail hhead => exact .after hhead .here
  | function => exact .here
  | constructBind hf =>
    refine .construct hf (.first .here fun g m₁ => ?_)
    exact keeps_bind (Moment.keeps ⟨_, .call g _, m₁⟩) fun _ _ _ => keeps_pure
  | constructCall hf hg => exact .construct hf (.after hg (.first .here fun _ _ => keeps_pure))
  | body => exact .callFunction

end ScriptLang
