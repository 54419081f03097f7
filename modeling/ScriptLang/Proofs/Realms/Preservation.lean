import ScriptLang.Proofs.Realms.Closed

/-!
# Evaluation stays in its realm

A moment fits a realm if the realm is closed on its machine, the current frame belongs to it, the
code that is evaluated may be run, and the values that it gets are in the realm (`Realm.Fits`).
Then everything that is evaluated in its course fits, too (`Realm.Fits.part`), and however it ends
the realm is closed again and the result is in it (`Realm.preserves`).

As in every proof about evaluation, `Moment.induction` gives the ends of the parts, and what is
left are the steps of the machine between them.
-/

namespace ScriptLang

open Scoping (Place Visits Phrase)

/-! ## Code of tasks -/

/-- The code that a task evaluates, if it is given with the task and not with a function. -/
def Task.code? : Task → Option Phrase
  | expression e => some (.expression e)
  | expressions es => some (.expressions es)
  | statement s => some (.statement s)
  | statements body => some (.statements body)
  | declarators ds => some (.declarators ds)
  | loop condition body _ => some (.statement (.whileLoop condition body))
  | topLevel body => some (.statements body)
  | apply _ _ | call _ _ | bind _ _ => none

/-- The code of a part is inside the code of the whole, unless it is the body of a function. -/
theorem Part.code {M N : Moment} (h : Part M N) {t : Phrase} (ht : N.task.code? = some t) :
    (∃ t₀, M.task.code? = some t₀ ∧
      (t₀ = t ∨ ∃ a S r a' S' r', Visits ⟨a, t₀, S, r⟩ ⟨a', t, S', r'⟩)) ∨
    ∃ f arguments, M.task = .call f arguments ∧ t = .statements f.routine.body := by
  have visited {t₀ : Phrase} (h₀ : M.task.code? = some t₀)
      (hvisit : ∃ a' S' r', Visits ⟨{}, t₀, [], .start []⟩ ⟨a', t, S', r'⟩) :
      (∃ t₀, M.task.code? = some t₀ ∧
        (t₀ = t ∨ ∃ a S r a' S' r', Visits ⟨a, t₀, S, r⟩ ⟨a', t, S', r'⟩)) ∨
      ∃ f arguments, M.task = .call f arguments ∧ t = .statements f.routine.body :=
    .inl ⟨t₀, h₀, .inr ⟨{}, [], .start [], hvisit⟩⟩
  cases h with
  | assignValue => cases ht; exact visited rfl ⟨_, _, _, .assignValue⟩
  | unaryOperand => cases ht; exact visited rfl ⟨_, _, _, .unaryOperand⟩
  | binaryLeft => cases ht; exact visited rfl ⟨_, _, _, .binaryLeft⟩
  | binaryRight => cases ht; exact visited rfl ⟨_, _, _, .binaryRight⟩
  | logicalLeft => cases ht; exact visited rfl ⟨_, _, _, .logicalLeft⟩
  | logicalRight => cases ht; exact visited rfl ⟨_, _, _, .logicalRight⟩
  | commaLeft => cases ht; exact visited rfl ⟨_, _, _, .commaLeft⟩
  | commaRight => cases ht; exact visited rfl ⟨_, _, _, .commaRight⟩
  | condition => cases ht; exact visited rfl ⟨_, _, _, .condition⟩
  | whenTrue => cases ht; exact visited rfl ⟨_, _, _, .whenTrue⟩
  | whenFalse => cases ht; exact visited rfl ⟨_, _, _, .whenFalse⟩
  | grouping => cases ht; exact visited rfl ⟨_, _, _, .grouping⟩
  | callee => cases ht; exact visited rfl ⟨_, _, _, .callee⟩
  | arguments => cases ht; exact visited rfl ⟨_, _, _, .arguments⟩
  | apply => cases ht
  | getObject => cases ht; exact visited rfl ⟨_, _, _, .getObject⟩
  | getBind => cases ht
  | setObject => cases ht; exact visited rfl ⟨_, _, _, .setObject⟩
  | setValue => cases ht; exact visited rfl ⟨_, _, _, .setValue⟩
  | superBind => cases ht
  | first => cases ht; exact visited rfl ⟨_, _, _, .first⟩
  | others => cases ht; exact visited rfl ⟨_, _, _, .others⟩
  | evaluated => cases ht; exact visited rfl ⟨_, _, _, .evaluated⟩
  | printed => cases ht; exact visited rfl ⟨_, _, _, .printed⟩
  | declared => cases ht; exact visited rfl ⟨_, _, _, .declared⟩
  | block => cases ht; exact visited rfl ⟨_, _, _, .block⟩
  | choice => cases ht; exact visited rfl ⟨_, _, _, .choice⟩
  | chosen => cases ht; exact visited rfl ⟨_, _, _, .chosen⟩
  | alternative => cases ht; exact visited rfl ⟨_, _, _, .alternative⟩
  | loop => cases ht; exact .inl ⟨_, rfl, .inl rfl⟩
  | returned => cases ht; exact visited rfl ⟨_, _, _, .returned⟩
  | head => cases ht; exact visited rfl ⟨_, _, _, .head⟩
  | tail => cases ht; exact visited rfl ⟨_, _, _, .tail⟩
  | initializer => cases ht; exact visited rfl ⟨_, _, _, .initializer⟩
  | afterInitializer => cases ht; exact visited rfl ⟨_, _, _, .afterInitializer⟩
  | afterName => cases ht; exact visited rfl ⟨_, _, _, .afterName⟩
  | roundCondition => cases ht; exact visited rfl ⟨_, _, _, .roundCondition⟩
  | roundBody => cases ht; exact visited rfl ⟨_, _, _, .roundBody⟩
  | nextRound => cases ht; exact .inl ⟨_, rfl, .inl rfl⟩
  | topHead => cases ht; exact visited rfl ⟨_, _, _, .head⟩
  | topTail => cases ht; exact visited rfl ⟨_, _, _, .tail⟩
  | function => cases ht
  | constructBind => cases ht
  | constructCall => cases ht
  | body => cases ht; exact .inr ⟨_, _, rfl, rfl⟩

namespace Realm

variable {R : Realm} {m m' : Machine}

/-! ## Fitting and leaving -/

variable (R)

/-- The values that a task is given are in the realm. -/
def Supplies (m : Machine) : Task → Prop
  | .apply c arguments => R.HasCallable m c ∧ ∀ v ∈ arguments, R.Has m v
  | .call f arguments => R.HasFunction m f ∧ ∀ v ∈ arguments, R.Has m v
  | .bind f self => R.HasFunction m f ∧ R.Has m self
  | _ => True

/-- What a task leads to is in the realm. -/
def Yields (m : Machine) : (t : Task) → t.Result → Prop
  | .expression _, v => R.Has m v
  | .expressions _, vs => ∀ v ∈ vs, R.Has m v
  | .statement _, flow => R.HasFlow m flow
  | .statements _, flow => R.HasFlow m flow
  | .declarators _, _ => True
  | .loop _ _ _, flow => R.HasFlow m flow
  | .topLevel _, _ => True
  | .apply _ _, v => R.Has m v
  | .call _ _, v => R.Has m v
  | .bind _ _, g => R.HasFunction m g

/-- The current frame was made and belongs to the realm. -/
structure Stays (m : Machine) : Prop where
  frame : R.frame m.current
  lt_count : m.current < m.frames.count

/-- A moment in the realm. -/
structure Fits (M : Moment) : Prop where
  closed : R.Closed M.machine
  stays : R.Stays M.machine
  code : ∀ t, M.task.code? = some t → R.code t
  supplies : R.Supplies M.machine M.task

/-- A computation leaves the realm closed and a result as `good` asks. -/
def Ensures {α : Type} (act : Eval α) (m : Machine) (good : α → Machine → Prop) : Prop :=
  Eval.Ends act m (fun a m' => R.Closed m' ∧ good a m') fun _ m' => R.Closed m'

/-- A moment after which the realm is closed and has the result, if the moment fits. -/
def Preserves (M : Moment) : Prop :=
  R.Fits M → R.Ensures (M.task.perform M.fuel) M.machine fun a m' => R.Yields m' M.task a

variable {R}

theorem Stays.later {xs : List String} (h : R.Stays m) (hm : m.Grows xs m') : R.Stays m' := by
  refine ⟨?_, ?_⟩
  · rw [hm.current]
    exact h.frame
  · rw [hm.current]
    exact Nat.lt_of_lt_of_le h.lt_count hm.frames.count

theorem Stays.defining (h : R.Stays m) (name : String) (v : Value) :
    R.Stays (m.defining name v) := by
  have hgrows : m.Grows [name] (m.defining name v) := .of_defining v List.mem_cons_self
  exact h.later hgrows

/-- The machine has entered a new frame. -/
theorem Closed.stays_next (h : R.Closed m) (hcurrent : m'.current = m.frames.count)
    (hcount : m'.frames.count = m.frames.count + 1) : R.Stays m' := by
  refine ⟨?_, ?_⟩
  · rw [hcurrent]
    exact h.laterFrames _ (Nat.le_refl _)
  · rw [hcurrent, hcount]
    exact Nat.lt_succ_self _

/-- A variable of the current frame with a value in the realm. -/
theorem Closed.defining (h : R.Closed m) (name : String) {v : Value} (hv : R.Has m v) :
    R.Closed (m.defining name v) := h.define m.current name hv

/-! ## From a moment to its parts -/

section Parts

variable {M N : Moment}

theorem Fits.code_part (hM : R.Fits M) (h : Part M N) {t : Phrase} (ht : N.task.code? = some t) :
    R.code t := by
  rcases h.code ht with ⟨t₀, h₀, rfl | hvisit⟩ | ⟨f, arguments, hcall, rfl⟩
  · exact hM.code t₀ h₀
  · exact R.inside (hM.code t₀ h₀) hvisit
  · have hsupplies := hM.supplies
    rw [hcall] at hsupplies
    exact code_body hsupplies.1.code

/-- A part on a machine on which the realm is closed. -/
theorem Fits.of_part (hM : R.Fits M) (h : Part M N) (hclosed : R.Closed N.machine)
    (hstays : R.Stays N.machine) (hsupplies : R.Supplies N.machine N.task) : R.Fits N :=
  ⟨hclosed, hstays, fun _ ht => hM.code_part h ht, hsupplies⟩

/-- A part with which the evaluation begins. -/
theorem Fits.first (hM : R.Fits M) (h : Part M N) (hm : N.machine = M.machine)
    (hsupplies : R.Supplies N.machine N.task) : R.Fits N :=
  hM.of_part h (hm ▸ hM.closed) (hm ▸ hM.stays) hsupplies

/-- What is left by something that fits. -/
theorem Fits.after {A : Moment} (hA : R.Fits A) (hearlier : R.Preserves A) {a : A.task.Result}
    {m₁ : Machine} (hend : A.ending = .ok a m₁) :
    R.Closed m₁ ∧ R.Stays m₁ ∧ R.Yields m₁ A.task a ∧ A.machine.Precedes m₁ := by
  have hgrows := Eval.Ends.of_ok A.keeps hend
  obtain ⟨hclosed, hyields⟩ := (hearlier hA).of_ok hend
  exact ⟨hclosed, hA.stays.later hgrows, hyields, hgrows.precedes⟩

/-- What `this` is for a method of a superclass is in the realm. -/
theorem Closed.has_thisInside (h : R.Closed m) (hstays : R.Stays m) (hops : Nat) :
    R.Has m (m.thisInside hops) := by
  rcases m.thisInside_eq hops with hnil | ⟨k, hthis⟩
  · rw [hnil]
    exact trivial
  · exact h.nameAt hstays.frame hstays.lt_count hthis

theorem Closed.has_nextInstance {c : Class} (h : R.Closed m) (hc : R.HasClass m c) :
    R.Has m.withInstance (.instance (m.nextInstance c)) := by
  have hm : m.Precedes m.withInstance :=
    ⟨Nat.le_refl _, by simp [Machine.withInstance], Nat.le_refl _⟩
  exact ⟨h.laterObjects _ (Nat.le_refl _), by simp [Machine.withInstance, Machine.nextInstance],
    hc.later hm⟩

theorem Fits.constructBind {n : Nat} {c : Class} {arguments : List Value} {f : Function}
    (hM : R.Fits ⟨n + 1, .apply (.class c) arguments, m⟩) (hf : c.initializer? = some f) :
    R.Fits ⟨n, .bind f (.instance (m.nextInstance c)), m.withInstance⟩ := by
  have hc : R.HasClass m c := hM.supplies.1
  have hgrows : m.Grows [] m.withInstance := .of_withInstance
  exact hM.of_part (.constructBind hf) hM.closed.withInstance (hM.stays.later hgrows)
    ⟨(hc.method hf).later hgrows.precedes, hM.closed.has_nextInstance hc⟩

/-- **The parts of a moment in the realm are in the realm.** -/
theorem Fits.part (hM : R.Fits M) (h : Part M N) (hearlier : ∀ N', Part M N' → R.Preserves N') :
    R.Fits N := by
  have hfirst {A : Moment} (hA : Part M A) (hm : A.machine = M.machine)
      (hsupplies : R.Supplies A.machine A.task) {a : A.task.Result} {m₁ : Machine}
      (hend : A.ending = .ok a m₁) :
      R.Closed m₁ ∧ R.Stays m₁ ∧ R.Yields m₁ A.task a ∧ A.machine.Precedes m₁ :=
    (hM.first hA hm hsupplies).after (hearlier A hA) hend
  have hsecond {A : Moment} (hA : Part M A) (hm : A.machine = M.machine)
      (hsupplies : R.Supplies A.machine A.task) {a : A.task.Result}
      (hend : A.ending = .ok a N.machine) (hsupplies' : R.Supplies N.machine N.task) : R.Fits N := by
    obtain ⟨hclosed, hstays, -⟩ := hfirst hA hm hsupplies hend
    exact hM.of_part h hclosed hstays hsupplies'
  have hpart := h
  cases h with
  -- expressions
  | assignValue => exact hM.first hpart rfl trivial
  | unaryOperand => exact hM.first hpart rfl trivial
  | binaryLeft => exact hM.first hpart rfl trivial
  | binaryRight hleft => exact hsecond .binaryLeft rfl trivial hleft trivial
  | logicalLeft => exact hM.first hpart rfl trivial
  | logicalRight hleft => exact hsecond .logicalLeft rfl trivial hleft trivial
  | commaLeft => exact hM.first hpart rfl trivial
  | commaRight hleft => exact hsecond .commaLeft rfl trivial hleft trivial
  | condition => exact hM.first hpart rfl trivial
  | whenTrue hcondition => exact hsecond .condition rfl trivial hcondition trivial
  | whenFalse hcondition => exact hsecond .condition rfl trivial hcondition trivial
  | grouping => exact hM.first hpart rfl trivial
  | callee => exact hM.first hpart rfl trivial
  | arguments hcallee => exact hsecond .callee rfl trivial hcallee trivial
  | @apply _ _ m₁ m₂ _ _ _ _ _ hcallee harguments _ _ =>
    obtain ⟨hclosed, hstays, hc, -⟩ := hfirst .callee rfl trivial hcallee
    have harguments' : R.Fits ⟨_, .expressions _, _⟩ :=
      hM.of_part (.arguments hcallee) hclosed hstays trivial
    obtain ⟨hclosed', hstays', hvs, hlater⟩ :=
      harguments'.after (hearlier _ (.arguments hcallee)) harguments
    have hdeeper : m₂.Precedes m₂.deeper := ⟨Nat.le_refl _, Nat.le_refl _, Nat.le_refl _⟩
    exact hM.of_part hpart (hclosed'.congr rfl rfl rfl (Nat.le_refl _))
      ⟨hstays'.frame, hstays'.lt_count⟩
      ⟨(HasCallable.later hc hlater).later hdeeper, fun v hv => (hvs v hv).later hdeeper⟩
  | getObject => exact hM.first hpart rfl trivial
  | getBind hobject _ hf =>
    obtain ⟨hclosed, hstays, hi, -⟩ := hfirst .getObject rfl trivial hobject
    exact hM.of_part hpart hclosed hstays ⟨hi.2.2.method hf, hi⟩
  | setObject => exact hM.first hpart rfl trivial
  | setValue hobject => exact hsecond .setObject rfl trivial hobject trivial
  | superBind _ hsuper hf =>
    have hc : R.Has _ (.callable (.class _)) :=
      hM.closed.nameAt hM.stays.frame hM.stays.lt_count hsuper
    exact hM.first hpart rfl ⟨HasClass.method hc hf, hM.closed.has_thisInside hM.stays _⟩
  | first => exact hM.first hpart rfl trivial
  | others hone => exact hsecond .first rfl trivial hone trivial
  -- statements
  | evaluated => exact hM.first hpart rfl trivial
  | printed => exact hM.first hpart rfl trivial
  | declared => exact hM.first hpart rfl trivial
  | block =>
    have hclosed := hM.closed.enter hM.stays.frame hM.stays.lt_count [] [] (by simp)
    exact hM.of_part hpart (hclosed.congr rfl rfl rfl (Nat.le_refl _))
      (hM.closed.stays_next rfl (Frames.count_push ..)) trivial
  | choice => exact hM.first hpart rfl trivial
  | chosen hcondition => exact hsecond .choice rfl trivial hcondition trivial
  | alternative hcondition => exact hsecond .choice rfl trivial hcondition trivial
  | loop => exact hM.first hpart rfl trivial
  | returned => exact hM.first hpart rfl trivial
  | head => exact hM.first hpart rfl trivial
  | tail hhead => exact hsecond .head rfl trivial hhead trivial
  | initializer => exact hM.first hpart rfl trivial
  | afterInitializer he =>
    obtain ⟨hclosed, hstays, hv, -⟩ := hfirst .initializer rfl trivial he
    exact hM.of_part hpart (hclosed.defining _ hv)
      (hstays.defining _ _) trivial
  | afterName =>
    exact hM.of_part hpart (hM.closed.defining _ trivial)
      (hM.stays.defining _ _) trivial
  | roundCondition => exact hM.first hpart rfl trivial
  | roundBody hcondition => exact hsecond .roundCondition rfl trivial hcondition trivial
  | nextRound hcondition hv hbody =>
    obtain ⟨hclosed, hstays, -⟩ := hfirst .roundCondition rfl trivial hcondition
    have hround : R.Fits ⟨_, .statement _, _⟩ :=
      hM.of_part (.roundBody hcondition hv) hclosed hstays trivial
    obtain ⟨hclosed', hstays', -⟩ := hround.after (hearlier _ (.roundBody hcondition hv)) hbody
    exact hM.of_part hpart hclosed' hstays' trivial
  | topHead => exact hM.first hpart rfl trivial
  | topTail hhead => exact hsecond .topHead rfl trivial hhead trivial
  -- calls
  | function => exact hM.first hpart rfl hM.supplies
  | constructBind hf => exact hM.constructBind hf
  | @constructCall _ m _ _ _ _ _ hf hg =>
    have hgrows : m.Grows [] m.withInstance := .of_withInstance
    obtain ⟨hclosed, hstays, hyields, hlater⟩ :=
      (hM.constructBind hf).after (hearlier _ (.constructBind hf)) hg
    exact hM.of_part hpart hclosed hstays ⟨hyields, fun v hv =>
      ((hM.supplies.2 v hv).later hgrows.precedes).later hlater⟩
  | @body _ _ f _ =>
    obtain ⟨hf, hvs⟩ := hM.supplies
    have hclosed := hM.closed.enter hf.closure hf.closure_lt (f.routine.params.map (·.text)) _ hvs
    refine hM.of_part hpart (hclosed.congr rfl rfl rfl (Nat.le_refl _))
      (hM.closed.stays_next rfl ?_) trivial
    change ((Frames.push _ _).defineAll _ _ _).count = _
    rw [Frames.count_defineAll, Frames.count_push]

end Parts

/-! ## Steps of the machine -/

section Steps

open Eval

variable {v : Value}

theorem has_of_isPlain (h : v.IsPlain) : R.Has m v := by
  cases v with
  | callable c => exact h.elim
  | «instance» i => exact h.elim
  | _ => exact trivial

/-- What is read from a closed realm is in it. -/
theorem Closed.has_readVariable {ref : Ref} (h : R.Closed m) (hstays : R.Stays m)
    (hread : readVariable ref m = .ok v m') : R.Has m v := by
  unfold readVariable at hread
  split at hread
  · obtain ⟨hr, -⟩ := ofExcept_eq_ok hread
    obtain ⟨f, hf, hv⟩ := Frames.getAt_eq_ok hr
    exact h.values f _ v (h.ancestor hstays.frame hstays.lt_count hf).1 hv
  · obtain ⟨hr, -⟩ := ofExcept_eq_ok hread
    have hv := Frames.getGlobal_eq_ok hr
    rw [h.root_eq h.globals_lt] at hv
    exact h.values _ _ v h.globals hv

theorem ensures_readVariable {ref : Ref} (h : R.Closed m) (hstays : R.Stays m) :
    R.Ensures (readVariable ref) m fun v m' => R.Has m' v := by
  refine ends_of (fun v m' hread => ?_) (fun stop m' hread => ?_)
  · obtain ⟨rfl, -⟩ := readVariable_ok hread
    exact ⟨h, h.has_readVariable hstays hread⟩
  · obtain ⟨rfl, -⟩ := readVariable_error hread
    exact h

theorem ensures_assignVariable {ref : Ref} (h : R.Closed m) (hv : R.Has m v) :
    R.Ensures (assignVariable ref v) m fun _ m' => R.Has m' v := by
  refine ends_assignVariable (fun f _ => ⟨h.define f _ hv, hv.later ?_⟩) fun _ => h
  exact ⟨Nat.le_of_eq (Frames.count_define ..).symm, Nat.le_refl _, Nat.le_refl _⟩

theorem ensures_setField {i : Instance} {property : Lexeme} (h : R.Closed m) (hv : R.Has m v) :
    R.Ensures (setField i property v) m fun _ m' => R.Has m' v :=
  ⟨h.setField hv, hv.later ⟨Nat.le_refl _, by simp, Nat.le_refl _⟩⟩

theorem ensures_bindThis {f : Function} {self : Value} (h : R.Closed m) (hf : R.HasFunction m f)
    (hself : R.Has m self) :
    R.Ensures (bindThis f self) m fun g m' => R.HasFunction m' g := by
  have henter := h.enter hf.closure hf.closure_lt ["this"] [self] (by simpa using hself)
  refine ends_bindThis ⟨henter.congr rfl rfl rfl (Nat.le_succ _), hf.code,
    h.laterFrames _ (Nat.le_refl _), ?_⟩
  change m.frames.nextId < ((m.frames.push _).define _ _ _).count
  rw [Frames.count_define, Frames.count_push]
  exact Nat.lt_succ_self _

/-- A superclass is a class in the realm. -/
theorem Closed.parent {superclass : Option Ref} {c : Class} (h : R.Closed m) (hstays : R.Stays m)
    (hparent : parentOf superclass m = .ok (some c) m) : R.HasClass m c := by
  rcases parentOf_ok hparent with ⟨-, ⟨-, hnone⟩ | ⟨ref, c', -, hc, hsuperclass⟩⟩
  · cases hnone
  · cases hc
    obtain ⟨-, hread⟩ := superclassOf_ok hsuperclass
    exact h.has_readVariable hstays hread

/-- A frame for the methods of a class, if there is one, has the superclass in it. -/
theorem Closed.methodMachine {parent : Option Class} (h : R.Closed m) (hstays : R.Stays m)
    (hparent : ∀ c, parent = some c → R.HasClass m c) :
    R.Closed (methodMachine m parent) ∧ R.Stays (methodMachine m parent) ∧
      R.frame (methodClosure m parent) ∧
      methodClosure m parent < (Eval.methodMachine m parent).frames.count := by
  cases parent with
  | none => exact ⟨h, hstays, hstays.frame, hstays.lt_count⟩
  | some c =>
    have hc : R.Has m (.callable (.class c)) := hparent c rfl
    have henter := h.enter hstays.frame hstays.lt_count ["super"] [.callable (.class c)]
      (by simpa using hc)
    have hgrows : m.Grows [] (Eval.methodMachine m (some c)) := .of_methodMachine
    refine ⟨henter.congr rfl rfl rfl (Nat.le_refl _), hstays.later hgrows,
      h.laterFrames _ (Nat.le_refl _), ?_⟩
    change m.frames.nextId < ((m.frames.push _).define _ _ _).count
    rw [Frames.count_define, Frames.count_push]
    exact Nat.lt_succ_self _

/-- A class declaration leaves a class in the realm. -/
theorem Closed.classMachine {name : Lexeme} {superclass : Option Ref} {members : List Method}
    {parent : Option Class} {methods : Slots Function} {k : Nat} (h : R.Closed m)
    (hstays : R.Stays m) (hcode : R.code (.methods members))
    (hparent : parentOf superclass m = .ok parent m) (hk : m.made ≤ k)
    (hmethods : ∀ method f, methods.get? method = some f →
      MadeFrom (methodClosure (m.defining name.text .nil) parent) members f) :
    R.Closed (Eval.classMachine name parent methods k m) := by
  let named := m.defining name.text .nil
  have hnamed : R.Closed named := h.defining _ trivial
  have hstays' : R.Stays named := hstays.defining _ _
  have hgrows : m.Grows [name.text] named := .of_defining _ List.mem_cons_self
  have hsuper (c : Class) (hc : parent = some c) : R.HasClass named c := by
    subst hc
    exact (h.parent hstays hparent).later hgrows.precedes
  obtain ⟨hclosed, -, hframe, hlt⟩ := hnamed.methodMachine hstays' hsuper
  have hgrows' : named.Grows [] (Eval.methodMachine named parent) := .of_methodMachine
  -- the number of the class is taken before the class is there
  let counted : Machine := { Eval.methodMachine named parent with made := k + 1 }
  have hmade : (Eval.methodMachine named parent).made = m.made := by cases parent <;> rfl
  have hcount : (Eval.methodMachine named parent).made ≤ k + 1 := by omega
  have hcounted : R.Closed counted := hclosed.congr rfl rfl rfl hcount
  have hlater : (Eval.methodMachine named parent).Precedes counted :=
    ⟨Nat.le_refl _, Nat.le_refl _, hcount⟩
  have hown (method : String) (f : Function) (hf : methods.get? method = some f) :
      R.HasFunction counted f := by
    obtain ⟨⟨word, hmember, -⟩, hclosure⟩ := hmethods method f hf
    rw [← hclosure] at hframe hlt
    exact ⟨code_method hcode hmember, hframe, hlt⟩
  refine Closed.congr (hcounted.defining name.text
    (v := .callable (.class ⟨k, name.text, parent, methods⟩)) ?_) rfl rfl rfl (Nat.le_refl _)
  cases parent with
  | none => exact ⟨Nat.lt_succ_self k, hown⟩
  | some c =>
    have hc := hsuper c rfl
    exact ⟨Nat.lt_succ_self k, hown, Nat.lt_of_lt_of_le hc.id_lt hk,
      (hc.later hgrows'.precedes).later hlater⟩

end Steps

/-! ## The tasks -/

section Tasks

open Eval

variable {n : Nat}

/-- The end of a part of a moment in the realm. -/
theorem Fits.ends {M N : Moment} (hM : R.Fits M) (h : Part M N)
    (ih : ∀ N, Part M N → R.Preserves N) :
    R.Ensures (N.task.perform N.fuel) N.machine fun a m' => R.Yields m' N.task a :=
  ih N h (hM.part h ih)

theorem ensures_expression {e : Expr} (hM : R.Fits ⟨n, .expression e, m⟩)
    (ih : ∀ N, Part ⟨n, .expression e, m⟩ N → R.Preserves N) :
    R.Ensures (expression (.ofFuel n) e) m fun v m' => R.Has m' v := by
  have hclosed : R.Closed m := hM.closed
  have hstays : R.Stays m := hM.stays
  cases e with
  | literal value => exact ⟨hclosed, has_of_isPlain value.isPlain_value⟩
  | «variable» ref => exact ensures_readVariable hclosed hstays
  | assign ref value =>
    rw [expression]
    refine ends_bind (hM.ends .assignValue ih) fun v m₁ _ hv => ?_
    exact ends_bind (ensures_assignVariable hv.1 hv.2) fun _ m₂ _ hv' => ends_pure hv'
  | unary op sign operand =>
    rw [expression]
    refine ends_bind (hM.ends .unaryOperand ih) fun v m₁ _ hv => ?_
    refine ends_ofOperator (fun w hw => ?_) fun _ => hv.1
    exact ⟨hv.1, has_of_isPlain (UnaryOp.isPlain_of_apply hw)⟩
  | binary op sign left right =>
    rw [expression]
    refine ends_bind (hM.ends .binaryLeft ih) fun v m₁ hleft _ => ?_
    refine ends_bind (hM.ends (.binaryRight hleft) ih) fun w m₂ _ hw => ?_
    refine ends_ofOperator (fun u hu => ?_) fun _ => hw.1
    exact ⟨hw.1, has_of_isPlain (BinaryOp.isPlain_of_apply hu)⟩
  | logical op sign left right =>
    rw [expression]
    refine ends_bind (hM.ends .logicalLeft ih) fun v m₁ hleft hv => ?_
    cases hdecides : op.decides v with
    | true => exact hv
    | false => exact hM.ends (.logicalRight hleft hdecides) ih
  | comma left right =>
    rw [expression]
    refine ends_bind (hM.ends .commaLeft ih) fun v m₁ hleft _ => ?_
    exact hM.ends (.commaRight hleft) ih
  | conditional condition whenTrue whenFalse =>
    rw [expression]
    refine ends_bind (hM.ends .condition ih) fun v m₁ hcondition _ => ?_
    cases hv : v.isTruthy with
    | true => exact hM.ends (.whenTrue hcondition hv) ih
    | false => exact hM.ends (.whenFalse hcondition hv) ih
  | grouping inner => exact hM.ends .grouping ih
  | call callee arguments closing =>
    rw [expression]
    refine ends_bind (hM.ends .callee ih) fun v m₁ hcallee _ => ?_
    refine ends_bind (hM.ends (.arguments hcallee) ih) fun vs m₂ harguments hvs => ?_
    refine ends_callValue (fun _ => hvs.1) fun c hc harity hdepth => ?_
    subst hc
    have hend := hM.ends (.apply hcallee harguments harity hdepth) ih
    exact Ends.mono hend
      (fun w m' _ hw => ⟨hw.1.congr rfl rfl rfl (Nat.le_refl _),
        hw.2.later ⟨Nat.le_refl _, Nat.le_refl _, Nat.le_refl _⟩⟩)
      fun stop m' hstop => hstop.congr rfl rfl rfl (Nat.le_refl _)
  | get object property =>
    rw [expression]
    refine ends_bind (hM.ends .getObject ih) fun v m₁ hobject hv => ?_
    refine ends_getOf (fun i w hi hw => ?_) (fun i f hi hfield hf => ?_) fun _ => hv.1
    · subst hi
      exact ⟨hv.1, hv.1.field hv.2.1 hw⟩
    · subst hi
      exact hM.ends (.getBind hobject hfield hf) ih
  | set object property value =>
    rw [expression]
    refine ends_bind (hM.ends .setObject ih) fun v m₁ hobject hv => ?_
    have hinstance : Ends (instanceOf v property) m₁ (fun i m' => v = .instance i ∧ m' = m₁)
        fun _ m' => R.Closed m' :=
      ends_instanceOf (fun i hi => ⟨hi, rfl⟩) fun _ => hv.1
    refine ends_bind hinstance fun i m₂ _ hi => ?_
    obtain ⟨rfl, rfl⟩ := hi
    refine ends_bind (hM.ends (.setValue hobject) ih) fun w m₃ _ hw => ?_
    exact ends_bind (ensures_setField hw.1 hw.2) fun _ m₄ _ hw' => ends_pure hw'
  | this ref => exact ensures_readVariable hclosed hstays
  | super ref method =>
    refine ends_superMethod (fun hops c f hhops hsuper hf => ?_) fun _ => hclosed
    exact hM.ends (.superBind hhops hsuper hf) ih
  | function routine =>
    have hcode : R.code (.routine routine) :=
      R.inside (hM.code _ rfl) ⟨{}, [], .start [], _, _, _, .function⟩
    exact ⟨hclosed.congr rfl rfl rfl (Nat.le_succ _), hcode, hstays.frame, hstays.lt_count⟩

theorem ensures_expressions {es : List Expr} (hM : R.Fits ⟨n, .expressions es, m⟩)
    (ih : ∀ N, Part ⟨n, .expressions es, m⟩ N → R.Preserves N) :
    R.Ensures (expressions (.ofFuel n) es) m fun vs m' => ∀ v ∈ vs, R.Has m' v := by
  cases es with
  | nil => exact ⟨hM.closed, by simp⟩
  | cons e es =>
    rw [expressions]
    refine ends_bind (hM.ends .first ih) fun v m₁ hfirst hv => ?_
    refine ends_bind (hM.ends (.others hfirst) ih) fun vs m₂ hothers hvs => ?_
    have hv' : R.Has m₂ v := Has.later hv.2 (grows_of_expressions hothers).precedes
    refine ends_pure ⟨hvs.1, fun w hw => ?_⟩
    rcases List.mem_cons.mp hw with rfl | hw
    · exact hv'
    · exact hvs.2 w hw

theorem ensures_statement {s : Stmt} (hM : R.Fits ⟨n, .statement s, m⟩)
    (ih : ∀ N, Part ⟨n, .statement s, m⟩ N → R.Preserves N) :
    R.Ensures (statement (.ofFuel n) s) m fun flow m' => R.HasFlow m' flow := by
  have hclosed : R.Closed m := hM.closed
  have hstays : R.Stays m := hM.stays
  cases s with
  | expression e =>
    rw [statement]
    exact ends_bind (hM.ends .evaluated ih) fun v m₁ _ hv => ends_pure ⟨hv.1, trivial⟩
  | print e =>
    rw [statement]
    refine ends_bind (hM.ends .printed ih) fun v m₁ _ hv => ?_
    have hprinted : R.Closed { m₁ with printed := m₁.printed.println v.display } :=
      hv.1.congr rfl rfl rfl (Nat.le_refl _)
    exact ends_bind_of_ok rfl (ends_pure ⟨hprinted, trivial⟩)
  | vars ds =>
    rw [statement]
    exact ends_bind (hM.ends .declared ih) fun _ m₁ _ h => ends_pure ⟨h.1, trivial⟩
  | block body =>
    rw [statement]
    refine ends_bind_of_ok (a := m.current) rfl (ends_bind_of_ok rfl (ends_within ?_))
    refine Ends.mono (hM.ends .block ih) (fun flow m' _ h => ⟨?_, ?_⟩) fun _ m' hstop => ?_
    · exact h.1.congr rfl rfl rfl (Nat.le_refl _)
    · cases flow with
      | returned v => exact Has.later h.2 ⟨Nat.le_refl _, Nat.le_refl _, Nat.le_refl _⟩
      | normal => exact trivial
      | broken => exact trivial
    · exact hstop.congr rfl rfl rfl (Nat.le_refl _)
  | ifElse condition whenTrue whenFalse =>
    cases whenFalse with
    | none =>
      rw [statement]
      refine ends_bind (hM.ends .choice ih) fun v m₁ hcondition h => ?_
      cases hv : v.isTruthy with
      | true => exact hM.ends (.chosen hcondition hv) ih
      | false => exact ⟨h.1, trivial⟩
    | some whenFalse =>
      rw [statement]
      refine ends_bind (hM.ends .choice ih) fun v m₁ hcondition h => ?_
      cases hv : v.isTruthy with
      | true => exact hM.ends (.chosen hcondition hv) ih
      | false => exact hM.ends (.alternative hcondition hv) ih
  | whileLoop condition body => exact hM.ends .loop ih
  | breakLoop keyword => exact ⟨hclosed, trivial⟩
  | returnFrom keyword value =>
    cases value with
    | none => exact ⟨hclosed, trivial⟩
    | some e =>
      rw [statement]
      exact ends_bind (hM.ends .returned ih) fun v m₁ _ hv => ends_pure hv
  | function name routine =>
    rw [statement]
    refine ends_bind_of_ok (declaredFunction_eq _ _ m) (ends_bind_of_ok rfl ?_)
    have hcode : R.code (.routine routine) :=
      R.inside (hM.code _ rfl) ⟨{}, [], .start [], _, _, _, .declaredFunction⟩
    have hmade : R.Closed { m with made := m.made + 1 } :=
      hclosed.congr rfl rfl rfl (Nat.le_succ _)
    exact ends_pure ⟨hmade.defining _ ⟨hcode, hstays.frame, hstays.lt_count⟩, trivial⟩
  | «class» name superclass members =>
    rw [statement]
    have hcode : R.code (.methods members) :=
      R.inside (hM.code _ rfl) ⟨{}, [], .start [], _, _, _, .members⟩
    have hclass : R.Ensures (declareClass name superclass members) m fun _ _ => True :=
      ends_declareClass (fun parent methods k hparent hk hmethods =>
        ⟨hclosed.classMachine hstays hcode hparent hk hmethods, trivial⟩) fun _ => hclosed
    exact ends_bind hclass fun _ m₁ _ h => ends_pure ⟨h.1, trivial⟩

theorem ensures_statements {body : List Stmt} (hM : R.Fits ⟨n, .statements body, m⟩)
    (ih : ∀ N, Part ⟨n, .statements body, m⟩ N → R.Preserves N) :
    R.Ensures (statements (.ofFuel n) body) m fun flow m' => R.HasFlow m' flow := by
  cases body with
  | nil => exact ⟨hM.closed, trivial⟩
  | cons s rest =>
    rw [statements]
    refine ends_bind (hM.ends .head ih) fun flow m₁ hhead h => ?_
    cases flow with
    | normal => exact hM.ends (.tail hhead) ih
    | broken => exact h
    | returned v => exact h

theorem ensures_declarators {ds : List Declarator} (hM : R.Fits ⟨n, .declarators ds, m⟩)
    (ih : ∀ N, Part ⟨n, .declarators ds, m⟩ N → R.Preserves N) :
    R.Ensures (declarators (.ofFuel n) ds) m fun _ _ => True := by
  cases ds with
  | nil => exact ⟨hM.closed, trivial⟩
  | cons declarator rest =>
    obtain ⟨name, initializer⟩ := declarator
    cases initializer with
    | none =>
      rw [declarators]
      exact ends_bind_of_ok rfl (hM.ends .afterName ih)
    | some e =>
      rw [declarators]
      refine ends_bind (hM.ends .initializer ih) fun v m₁ he _ => ?_
      exact ends_bind_of_ok rfl (hM.ends (.afterInitializer he) ih)

theorem ensures_loop {condition : Expr} {body : Stmt} {rounds : Nat}
    (hM : R.Fits ⟨n, .loop condition body rounds, m⟩)
    (ih : ∀ N, Part ⟨n, .loop condition body rounds, m⟩ N → R.Preserves N) :
    R.Ensures (Task.perform n (.loop condition body rounds)) m fun flow m' => R.HasFlow m' flow := by
  cases rounds with
  | zero => exact hM.closed
  | succ rounds =>
    refine ends_bind (hM.ends .roundCondition ih) fun v m₁ hcondition h => ?_
    cases hv : v.isTruthy with
    | true =>
      refine ends_bind (hM.ends (.roundBody hcondition hv) ih) fun flow m₂ hbody h' => ?_
      cases flow with
      | normal => exact hM.ends (.nextRound hcondition hv hbody) ih
      | broken => exact ⟨h'.1, trivial⟩
      | returned w => exact h'
    | false => exact ⟨h.1, trivial⟩

theorem ensures_topLevel {body : List Stmt} (hM : R.Fits ⟨n, .topLevel body, m⟩)
    (ih : ∀ N, Part ⟨n, .topLevel body, m⟩ N → R.Preserves N) :
    R.Ensures (topLevel (.ofFuel n) body) m fun _ _ => True := by
  cases body with
  | nil => exact ⟨hM.closed, trivial⟩
  | cons s rest =>
    rw [topLevel]
    refine ends_bind (hM.ends .topHead ih) fun flow m₁ hhead _ => ?_
    exact hM.ends (.topTail hhead) ih

theorem ensures_call {f : Function} {arguments : List Value}
    (hM : R.Fits ⟨n, .call f arguments, m⟩)
    (ih : ∀ N, Part ⟨n, .call f arguments, m⟩ N → R.Preserves N) :
    R.Ensures (callFunction (runBody n) f arguments) m fun v m' => R.Has m' v := by
  have hf : R.HasFunction m f := hM.supplies.1
  have hend := hM.ends .body ih
  refine ends_callFunction (Ends.mono hend (fun flow m' _ h => ?_) fun stop m' hstop =>
    hstop.congr rfl rfl rfl (Nat.le_refl _))
  have hback : m'.Precedes { m' with current := m.current } :=
    ⟨Nat.le_refl _, Nat.le_refl _, Nat.le_refl _⟩
  refine ⟨h.1.congr rfl rfl rfl (Nat.le_refl _), ?_⟩
  unfold callResult
  split
  · -- an initializer gives back what `this` is in its closure
    cases hthis : m'.frames.here? f.closure "this" with
    | none => exact trivial
    | some v => exact (h.1.values _ _ v hf.closure hthis).later hback
  · cases flow with
    | normal => exact trivial
    | broken => exact trivial
    | returned v => exact Has.later h.2 hback

theorem ensures_apply {c : Callable} {arguments : List Value}
    (hM : R.Fits ⟨n, .apply c arguments, m⟩)
    (ih : ∀ N, Part ⟨n, .apply c arguments, m⟩ N → R.Preserves N) :
    R.Ensures (invokeWith n c arguments) m fun v m' => R.Has m' v := by
  refine ends_apply (fun _ => hM.closed) ?_ (fun x => ?_) ?_
  · rintro k f rfl rfl
    exact hM.ends .function ih
  · exact ⟨hM.closed.congr rfl rfl rfl (Nat.le_refl _), trivial⟩
  · rintro k c rfl rfl
    have hc : R.HasClass m c := hM.supplies.1
    have hclosed : R.Closed m := hM.closed
    refine ends_construct (fun _ => ⟨hclosed.withInstance, hclosed.has_nextInstance hc⟩)
      fun f hf => ?_
    refine Ends.mono (hM.ends (.constructBind hf) ih) (fun g m₁ hg _ => ?_) fun _ _ hstop => hstop
    refine Ends.mono (hM.ends (.constructCall hf hg) ih) (fun v m' hend h => ⟨h.1, ?_⟩)
      fun _ _ hstop => hstop
    have hgrows : m.withInstance.Grows [] m' := (Ends.of_ok keeps_bindThis hg).trans
      (Ends.of_ok (Moment.keeps ⟨k, .call g arguments, m₁⟩) hend)
    exact (hclosed.has_nextInstance hc).later hgrows.precedes

end Tasks

/-- **Evaluation stays in its realm.** However a moment in a realm ends, the realm is closed and
the result is in it. -/
theorem preserves (R : Realm) (M : Moment) : R.Preserves M := by
  induction M using Moment.induction with
  | _ M ih =>
    intro hM
    obtain ⟨n, task, m⟩ := M
    cases task with
    | expression e => exact ensures_expression hM ih
    | expressions es => exact ensures_expressions hM ih
    | statement s => exact ensures_statement hM ih
    | statements body => exact ensures_statements hM ih
    | declarators ds => exact ensures_declarators hM ih
    | loop condition body rounds => exact ensures_loop hM ih
    | topLevel body => exact ensures_topLevel hM ih
    | apply c arguments => exact ensures_apply hM ih
    | call f arguments => exact ensures_call hM ih
    | bind f self => exact ensures_bindThis hM.closed hM.supplies.1 hM.supplies.2

/-- A part of a moment in the realm is in the realm, -/
theorem Fits.inside {M N : Moment} (hM : R.Fits M) (h : Part M N) : R.Fits N :=
  hM.part h fun N' _ => R.preserves N'

/-- and so is all that is evaluated in the course of the moment. -/
theorem Fits.path {M N : Moment} (hM : R.Fits M) (h : Relation.ReflTransGen Part M N) :
    R.Fits N := by
  induction h with
  | refl => exact hM
  | tail _ hlast ih => exact ih.inside hlast

end Realm

end ScriptLang
