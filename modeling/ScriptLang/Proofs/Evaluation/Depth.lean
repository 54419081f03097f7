import ScriptLang.Proofs.Evaluation.Fuel

/-!
# A higher limit on calls

No program can tell how many calls may go on at a time, except by going too deep, and nothing
runs after that. So a higher limit changes nothing in a run that stays below the lower one, and
a run that goes too deep under the lower limit has only printed what the run under the higher
one has printed by then, too.

`Withstands d act act'` says this of two computations: `act'` under the limit `d` does what `act`
does under its own, lower one. It is a congruence, because whatever comes after a computation
only adds to what was printed (`Primitive.continuing`).
-/

namespace ScriptLang

/-! ## Limits -/

/-- The second transcript begins with the first one. -/
def Transcript.Begins (t t' : Transcript) : Prop := ∃ more, t'.contents = t.contents ++ more

namespace Transcript.Begins

variable {t t₁ t₂ : Transcript}

theorem refl (t : Transcript) : t.Begins t := ⟨"", String.append_empty.symm⟩

theorem trans (h₁ : t.Begins t₁) (h₂ : t₁.Begins t₂) : t.Begins t₂ := by
  obtain ⟨more₁, h₁⟩ := h₁
  obtain ⟨more₂, h₂⟩ := h₂
  exact ⟨more₁ ++ more₂, by rw [h₂, h₁, String.append_assoc]⟩

theorem println (t : Transcript) (text : String) : t.Begins (t.println text) :=
  ⟨text ++ "\n", String.append_assoc⟩

end Transcript.Begins

namespace Machine

/-- The machine with another limit on the depth of calls. -/
def allow (m : Machine) (d : Nat) : Machine := { m with maxDepth := d }

@[simp] theorem frames_allow (m : Machine) (d : Nat) : (m.allow d).frames = m.frames := rfl

@[simp] theorem current_allow (m : Machine) (d : Nat) : (m.allow d).current = m.current := rfl

@[simp] theorem globals_allow (m : Machine) (d : Nat) : (m.allow d).globals = m.globals := rfl

@[simp] theorem bindings_allow (m : Machine) (d : Nat) : (m.allow d).bindings = m.bindings := rfl

/-- The second machine has the limit of the first one, and has printed what that has. -/
structure Continues (m m' : Machine) : Prop where
  limit : m'.maxDepth = m.maxDepth
  printed : m.printed.Begins m'.printed

namespace Continues

variable {m m₁ m₂ : Machine}

theorem refl (m : Machine) : m.Continues m := ⟨rfl, .refl _⟩

theorem trans (h₁ : m.Continues m₁) (h₂ : m₁.Continues m₂) : m.Continues m₂ :=
  ⟨h₂.limit.trans h₁.limit, h₁.printed.trans h₂.printed⟩

theorem of_grows {xs : List String} (h : m.Grows xs m₁) : m.Continues m₁ :=
  ⟨h.maxDepth, h.printed⟩

end Continues

end Machine

namespace Eval

variable {α β : Type} {m : Machine} {d : Nat}

/-! ## Ends -/

/-- The machine that a computation leaves. -/
def left : EStateM.Result Abort Machine α → Machine
  | .ok _ m => m
  | .error _ m => m

/-- The same end, under another limit. -/
def allowed (d : Nat) : EStateM.Result Abort Machine α → EStateM.Result Abort Machine α
  | .ok a m => .ok a (m.allow d)
  | .error stop m => .error stop (m.allow d)

/-- The computation stopped because calls were nested too deep. -/
def Overflows (r : EStateM.Result Abort Machine α) : Prop :=
  ∃ word m, r = .error (.error (.at word .stackOverflow)) m

/-- However the computation ends, it continues what came before. -/
def Continuing (act : Eval α) : Prop := ∀ m : Machine, m.Continues (left (act m))

namespace Continuing

variable {act : Eval α}

theorem next_continues {next : α → Eval β} (hnext : ∀ a, Continuing (next a)) (m : Machine) :
    (left (act m)).Continues (left ((act >>= next) m)) := by
  cases hact : act m with
  | ok a m₁ =>
    rw [bind_of_ok hact]
    exact hnext a m₁
  | error stop m₁ =>
    rw [bind_of_error hact]
    exact .refl _

theorem bind {next : α → Eval β} (h : Continuing act) (hnext : ∀ a, Continuing (next a)) :
    Continuing (act >>= next) := fun m => (h m).trans (next_continues hnext m)

theorem within (frame : FrameId) (h : Continuing act) : Continuing (within frame act) := by
  intro m
  have hinner := h { m with current := frame }
  unfold Eval.within
  cases hact : act { m with current := frame } with
  | ok a m₁ =>
    rw [hact] at hinner
    exact ⟨hinner.limit, hinner.printed⟩
  | error stop m₁ =>
    rw [hact] at hinner
    exact ⟨hinner.limit, hinner.printed⟩

theorem deeper (word : Lexeme) (h : Continuing act) : Continuing (deeper word act) := by
  intro m
  have hinner := h { m with depth := m.depth + 1 }
  unfold Eval.deeper
  by_cases hdepth : m.maxDepth ≤ m.depth
  · rw [if_pos hdepth]
    exact .refl m
  · rw [if_neg hdepth]
    cases hact : act { m with depth := m.depth + 1 } with
    | ok a m₁ =>
      rw [hact] at hinner
      exact ⟨hinner.limit, hinner.printed⟩
    | error stop m₁ =>
      rw [hact] at hinner
      exact ⟨hinner.limit, hinner.printed⟩

end Continuing

theorem Keeps.continues {xs : List String} {act : Eval α} (h : Keeps xs act m) :
    m.Continues (left (act m)) := by
  cases hact : act m with
  | ok a m₁ => exact .of_grows (h.of_ok hact)
  | error stop m₁ => exact .of_grows (h.of_error hact)

/-! ## Steps of the machine -/

theorem Primitive.continuing {act : Eval α} (h : Primitive act) : Continuing act := by
  intro m
  have none {β : Type} {step : Eval β} (h : Keeps [] step m) : m.Continues (left (step m)) :=
    h.continues
  cases h with
  | pure a => exact .refl m
  | fail word fault => exact .refl m
  | outOfFuel => exact .refl m
  | readVariable ref => exact none keeps_readVariable
  | assignVariable ref v => exact none keeps_assignVariable
  | current => exact .refl m
  | newFrame enclosing => exact ⟨rfl, .refl _⟩
  | define name v => exact ⟨rfl, .refl _⟩
  | fill frame names vs => exact ⟨rfl, .refl _⟩
  | thisIn frame => exact .refl m
  | home => exact ⟨rfl, .refl _⟩
  | println text => exact ⟨rfl, .println ..⟩
  | readClock => exact ⟨rfl, .refl _⟩
  | declaredFunction name routine => exact ⟨rfl, .refl _⟩
  | bindThis f self => exact none keeps_bindThis
  | declareClass name superclass members =>
    have hkeeps : Keeps [name.text] (Eval.declareClass name superclass members) m :=
      keeps_declareClass List.mem_cons_self
    exact hkeeps.continues
  | newInstance c => exact ⟨rfl, .refl _⟩
  | getOf v property => exact none keeps_getOf
  | instanceOf v property => exact none keeps_instanceOf
  | setField i property v => exact none keeps_setField
  | superMethod ref method => exact none keeps_superMethod

/-- The computation does the same under the other limit. -/
def Unlimited (act : Eval α) : Prop := ∀ m d, act (m.allow d) = allowed d (act m)

namespace Unlimited

theorem bind {act : Eval α} {next : α → Eval β} (h : Unlimited act)
    (hnext : ∀ a, Unlimited (next a)) : Unlimited (act >>= next) := by
  intro m d
  have hact' := h m d
  cases hact : act m with
  | ok a m₁ =>
    rw [hact] at hact'
    rw [bind_of_ok hact, bind_of_ok hact']
    exact hnext a m₁ d
  | error stop m₁ =>
    rw [hact] at hact'
    rw [bind_of_error hact, bind_of_error hact']
    rfl

theorem readVariable (ref : Ref) : Unlimited (readVariable ref) := by
  intro m d
  unfold Eval.readVariable
  rw [Machine.bindings_allow]
  cases m.bindings.hops? ref.id with
  | none =>
    change ofExcept (m.frames.getGlobal m.globals ref.word) (m.allow d) =
      allowed d (ofExcept (m.frames.getGlobal m.globals ref.word) m)
    cases m.frames.getGlobal m.globals ref.word <;> rfl
  | some hops =>
    change ofExcept (m.frames.getAt hops m.current ref.word) (m.allow d) =
      allowed d (ofExcept (m.frames.getAt hops m.current ref.word) m)
    cases m.frames.getAt hops m.current ref.word <;> rfl

theorem assignVariable (ref : Ref) (v : Value) : Unlimited (assignVariable ref v) := by
  intro m d
  unfold Eval.assignVariable
  simp only [Machine.bindings_allow, Machine.frames_allow, Machine.current_allow,
    Machine.globals_allow]
  cases m.bindings.hops? ref.id with
  | none =>
    dsimp only
    cases m.frames.assignGlobal m.globals ref.word v <;> rfl
  | some hops =>
    dsimp only
    cases m.frames.assignAt hops m.current ref.word v <;> rfl

theorem makeMethods (closure : FrameId) (members : List Method) (made : Slots Function) :
    Unlimited (makeMethods closure members made) := by
  induction members generalizing made with
  | nil => exact fun _ _ => rfl
  | cons member rest ih =>
    obtain ⟨name, routine⟩ := member
    have hmake : Unlimited (makeFunction (some name.text) routine closure (name.text = "init")) :=
      fun _ _ => rfl
    exact hmake.bind fun f => ih (made.set name.text f)

theorem declareClass (name : Lexeme) (superclass : Option Ref) (members : List Method) :
    Unlimited (declareClass name superclass members) := by
  have hsuperclass (ref : Ref) : Unlimited (superclassOf ref) :=
    (readVariable ref).bind fun v => by
      cases v with
      | callable c => cases c <;> exact fun _ _ => rfl
      | _ => exact fun _ _ => rfl
  have hparent : Unlimited (parentOf superclass) := by
    cases superclass with
    | none => exact fun _ _ => rfl
    | some ref => exact (hsuperclass ref).bind fun c _ _ => rfl
  have hframe (parent : Option Class) : Unlimited (methodFrame parent) := by
    cases parent <;> exact fun _ _ => rfl
  have hdefine (v : Value) : Unlimited (define name.text v) := fun _ _ => rfl
  rw [declareClass_eq]
  refine hparent.bind fun parent => (hdefine .nil).bind fun _ => (hframe parent).bind fun frame => ?_
  exact (makeMethods frame members .empty).bind fun methods _ _ => rfl

theorem getOf (v : Value) (property : Lexeme) : Unlimited (getOf v property) := by
  cases v with
  | «instance» i =>
    have hfield : Unlimited (field? i property.text) := fun _ _ => rfl
    refine hfield.bind fun found => ?_
    cases found with
    | some w => exact fun _ _ => rfl
    | none =>
      dsimp only
      cases i.ofClass.findMethod property.text <;> exact fun _ _ => rfl
  | _ => exact fun _ _ => rfl

theorem superMethod (ref : Ref) (method : Lexeme) : Unlimited (superMethod ref method) := by
  intro m d
  unfold Eval.superMethod
  simp only [Machine.bindings_allow, Machine.frames_allow, Machine.current_allow]
  cases m.bindings.hops? ref.id with
  | none => rfl
  | some hops =>
    dsimp only
    split
    · cases Class.findMethod _ method.text <;> rfl
    · rfl

end Unlimited

theorem Primitive.unlimited {act : Eval α} (h : Primitive act) : Unlimited act := by
  cases h with
  | readVariable ref => exact .readVariable ref
  | assignVariable ref v => exact .assignVariable ref v
  | declareClass name superclass members => exact .declareClass name superclass members
  | getOf v property => exact .getOf v property
  | instanceOf v property => cases v <;> exact fun _ _ => rfl
  | superMethod ref method => exact .superMethod ref method
  | _ => exact fun _ _ => rfl

/-! ## Both limits -/

/-- `act'` under the limit `d` ends as `act` does under a lower one, or `act` ends because calls
are nested too deep, and `act'` prints all that `act` did. -/
structure Withstands (d : Nat) (act act' : Eval α) : Prop where
  first : Continuing act
  second : Continuing act'
  agree : ∀ m, m.maxDepth ≤ d → act' (m.allow d) = allowed d (act m) ∨
    Overflows (act m) ∧ (left (act m)).printed.Begins (left (act' (m.allow d))).printed

namespace Withstands

variable {act act' : Eval α}

theorem bind {next next' : α → Eval β} (h : Withstands d act act')
    (hnext : ∀ a, Withstands d (next a) (next' a)) :
    Withstands d (act >>= next) (act' >>= next') where
  first := h.first.bind fun a => (hnext a).first
  second := h.second.bind fun a => (hnext a).second
  agree m hd := by
    rcases h.agree m hd with hsame | ⟨⟨word, m₁, hact⟩, hprinted⟩
    · cases hact : act m with
      | ok a m₁ =>
        have hlimit := (h.first m).limit
        rw [hact] at hsame hlimit
        rw [bind_of_ok hact, bind_of_ok hsame]
        exact (hnext a).agree m₁ (hlimit.trans_le hd)
      | error stop m₁ =>
        rw [hact] at hsame
        rw [bind_of_error hact, bind_of_error hsame]
        exact .inl rfl
    · rw [hact] at hprinted
      rw [bind_of_error hact]
      have hrest : (left (act' (m.allow d))).Continues (left ((act' >>= next') (m.allow d))) :=
        Continuing.next_continues (fun a => (hnext a).second) _
      exact .inr ⟨⟨word, m₁, rfl⟩, hprinted.trans hrest.printed⟩

theorem within (frame : FrameId) (h : Withstands d act act') :
    Withstands d (within frame act) (within frame act') := by
  refine ⟨h.first.within frame, h.second.within frame, fun m hd => ?_⟩
  unfold Eval.within
  rcases h.agree { m with current := frame } hd with hsame | ⟨⟨word, m₁, hact⟩, hprinted⟩
  · have hsame' : act' { m.allow d with current := frame } = _ := hsame
    rw [hsame']
    refine .inl ?_
    cases act { m with current := frame } <;> rfl
  · rw [hact] at hprinted ⊢
    refine .inr ⟨⟨word, _, rfl⟩, ?_⟩
    change m₁.printed.Begins (left (act' { m.allow d with current := frame })).printed at hprinted
    cases hact' : act' { m.allow d with current := frame } <;> rwa [hact'] at hprinted

theorem deeper (word : Lexeme) (h : Withstands d act act') :
    Withstands d (deeper word act) (deeper word act') := by
  have hsecond := h.second.deeper word
  refine ⟨h.first.deeper word, hsecond, fun m hd => ?_⟩
  by_cases hdepth : m.maxDepth ≤ m.depth
  · have hstop : Eval.deeper word act m = .error (.error (.at word .stackOverflow)) m :=
      if_pos hdepth
    rw [hstop]
    exact .inr ⟨⟨word, m, rfl⟩, (hsecond (m.allow d)).printed⟩
  · unfold Eval.deeper
    have hdepth' : ¬ (m.allow d).maxDepth ≤ (m.allow d).depth := fun h => hdepth (hd.trans h)
    rw [if_neg hdepth, if_neg hdepth']
    rcases h.agree { m with depth := m.depth + 1 } hd with hsame | ⟨⟨word, m₁, hact⟩, hprinted⟩
    · have hsame' : act' { m.allow d with depth := (m.allow d).depth + 1 } = _ := hsame
      rw [hsame']
      refine .inl ?_
      cases act { m with depth := m.depth + 1 } <;> rfl
    · rw [hact] at hprinted ⊢
      refine .inr ⟨⟨word, _, rfl⟩, ?_⟩
      change m₁.printed.Begins
        (left (act' { m.allow d with depth := (m.allow d).depth + 1 })).printed at hprinted
      cases hact' : act' { m.allow d with depth := (m.allow d).depth + 1 } <;>
        rwa [hact'] at hprinted

end Withstands

theorem congruence_withstands (d : Nat) : Congruence (Withstands d) where
  primitive h := ⟨h.continuing, h.continuing, fun m _ => .inl (h.unlimited m d)⟩
  bind := .bind
  within := .within
  deeper := .deeper

end Eval

/-! ## Runs -/

/-- A run under a higher limit ends in the same way, unless the run goes too deep. -/
theorem Machine.run_allow {m : Machine} {d : Nat} (hd : m.maxDepth ≤ d) (fuel : Nat)
    (p : Program) :
    (m.allow d).run fuel p = ((m.run fuel p).1, (m.run fuel p).2.allow d) ∨
      (∃ word, (m.run fuel p).1 = .failed (.at word .stackOverflow)) ∧
        (m.run fuel p).2.printed.Begins ((m.allow d).run fuel p).2.printed := by
  have hleft (m : Machine) : (m.run fuel p).2 = Eval.left (Eval.program (.ofFuel fuel) p m) := by
    unfold run
    cases Eval.program (.ofFuel fuel) p m with
    | ok v m' => rfl
    | error stop m' => cases stop <;> rfl
  rcases ((Eval.congruence_withstands d).program ((Eval.congruence_withstands d).ofFuel fuel) p).agree
    m hd with hsame | ⟨⟨word, m', hstop⟩, hprinted⟩
  · refine .inl ?_
    unfold run
    rw [hsame]
    cases Eval.program (.ofFuel fuel) p m with
    | ok v m' => rfl
    | error stop m' => cases stop <;> rfl
  · refine .inr ⟨⟨word, ?_⟩, by rwa [hleft, hleft]⟩
    unfold run
    rw [hstop]

end ScriptLang
