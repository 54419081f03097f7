import ScriptLang.Proofs.Evaluation.Control
import ScriptLang.Proofs.Scoping.Places

/-!
# Jumps

A `break` and a `return` end every statement on their way out, up to a loop or a call. The
surroundings of a statement say which of these ends it may have (`Surroundings.Allows`), and the
walk over a program checks each jump against them. So a statement at a sound place ends only as
its surroundings allow (`Moment.obeys`).

On the way of a `break` there are only blocks, choices and statements before it: each moment
`Nests` in the one that it ends. At the end of the way a loop is left, in the frame in which it was
entered (`Nests.breaks`, `leaves_loop`).
-/

namespace ScriptLang

open Scoping (Place Visits Phrase Surroundings)
open Relation (ReflTransGen)

/-! ## Ends that are allowed -/

/-- The surroundings allow statements to end in the given way: only a loop is left by `break`,
only a routine by `return`, and an initializer without a value. -/
def Scoping.Surroundings.Allows (around : Surroundings) : Flow → Prop
  | .normal => True
  | .broken => around.inLoop = true
  | .returned v => around.role.isSome = true ∧ (around.role = some .initializer → v = .nil)

/-- The phrase of a task that may end with a jump. -/
def Task.jumping? : Task → Option Phrase
  | .statement s => some (.statement s)
  | .statements body => some (.statements body)
  | .loop condition body _ => some (.statement (.whileLoop condition body))
  | _ => none

/-- If the task may end with a jump, the surroundings allow it. -/
def Task.Allowed (around : Surroundings) : (t : Task) → t.Result → Prop
  | .statement _, flow => around.Allows flow
  | .statements _, flow => around.Allows flow
  | .loop _ _ _, flow => around.Allows flow
  | _, _ => True

/-- At every sound place of what is evaluated, the end is allowed. -/
def Moment.Obeys (M : Moment) : Prop :=
  ∀ (table : Bindings) (P : Place), P.Sound table → M.task.jumping? = some P.phrase →
    Eval.Ends (M.task.perform M.fuel) M.machine (fun a _ => M.task.Allowed P.around a)
      fun _ _ => True

/-- Before a place of an accepted program no fault was found. -/
theorem Scoping.Place.Sound.quiet_state {table : Bindings} {P : Place} (h : P.Sound table) :
    P.state.found = [] := by
  have hprefix := (P.phrase.walk_grows P.around P.state).found
  have hquiet : (P.phrase.walk P.around P.state).found = [] := h.quiet
  rw [hquiet] at hprefix
  exact List.prefix_nil.mp hprefix

namespace Eval

variable {α : Type} {m : Machine} {n : Nat} {table : Bindings} {P : Place}

theorem ends_any {act : Eval α} : Ends act m (fun _ _ => True) fun _ _ => True :=
  ends_of (fun _ _ _ => trivial) fun _ _ _ => trivial

/-- A jump that the walk found no fault with is allowed. -/
theorem allows_broken {keyword : Lexeme} (hP : P.Sound table)
    (hphrase : P.phrase = .statement (.breakLoop keyword)) : P.around.inLoop = true := by
  obtain ⟨around, t, S, r⟩ := P
  cases hphrase
  have hquiet : (r.checkBreak around keyword).found = [] := hP.quiet
  unfold Scoping.Resolution.checkBreak at hquiet
  split at hquiet
  · assumption
  · simp [Scoping.Resolution.report] at hquiet

theorem allows_returned {around : Surroundings} {r : Scoping.Resolution} {keyword : Lexeme}
    {hasValue : Bool} {v : Value} (hquiet : (r.checkReturn around keyword hasValue).found = [])
    (hv : hasValue = false → v = .nil) : around.Allows (.returned v) := by
  unfold Scoping.Resolution.checkReturn at hquiet
  split at hquiet
  · simp [Scoping.Resolution.report] at hquiet
  · rename_i hrole
    cases hasValue with
    | false => exact ⟨by rw [hrole]; rfl, fun _ => hv rfl⟩
    | true => simp [Scoping.Resolution.report] at hquiet
  · rename_i role hinit hrole
    refine ⟨by rw [hrole]; rfl, fun h => absurd ?_ hinit⟩
    exact Option.some.inj (hrole.symm.trans h)

theorem obeys_statement (s : Stmt) (ih : ∀ N, Part ⟨n, .statement s, m⟩ N → N.Obeys) :
    Moment.Obeys ⟨n, .statement s, m⟩ := by
  rintro table ⟨around, t, S, r⟩ hP hphrase
  cases Option.some.inj hphrase
  cases s with
  | expression e => exact ends_bind ends_any fun _ _ _ _ => ends_pure trivial
  | print e =>
    refine ends_bind ends_any fun v m₁ _ _ => ?_
    exact ends_bind ends_any fun _ _ _ _ => ends_pure trivial
  | vars ds => exact ends_bind ends_any fun _ _ _ _ => ends_pure trivial
  | block body =>
    have hinner := ih _ .block table _ (Visits.block.sound hP) rfl
    exact ends_within (m := { m with frames := m.frames.push (some m.current) }) hinner
  | ifElse condition whenTrue whenFalse =>
    cases whenFalse with
    | none =>
      refine ends_bind ends_any fun v m₁ hcondition _ => ?_
      cases hv : v.isTruthy with
      | true =>
        have hinner := ih _ (.chosen hcondition hv) table _ (Visits.chosen.sound hP) rfl
        exact hinner
      | false => exact ends_pure trivial
    | some whenFalse =>
      refine ends_bind ends_any fun v m₁ hcondition _ => ?_
      cases hv : v.isTruthy with
      | true =>
        have hinner := ih _ (.chosen hcondition hv) table _ (Visits.chosen.sound hP) rfl
        exact hinner
      | false =>
        have hinner := ih _ (.alternative hcondition hv) table _ (Visits.alternative.sound hP) rfl
        exact hinner
  | whileLoop condition body => exact ih _ .loop table _ hP rfl
  | breakLoop keyword => exact ends_pure (allows_broken hP rfl)
  | returnFrom keyword value =>
    cases value with
    | none => exact ends_pure (allows_returned hP.quiet fun _ => rfl)
    | some e =>
      have hquiet := (Visits.returned.sound hP).quiet_state
      exact ends_bind ends_any fun _ _ _ _ => ends_pure (allows_returned hquiet nofun)
  | function name routine => 
    refine ends_bind ends_any fun v m₁ _ _ => ?_
    exact ends_bind ends_any fun _ _ _ _ => ends_pure trivial
  | «class» name superclass members => exact ends_bind ends_any fun _ _ _ _ => ends_pure trivial

theorem obeys_statements (body : List Stmt)
    (ih : ∀ N, Part ⟨n, .statements body, m⟩ N → N.Obeys) :
    Moment.Obeys ⟨n, .statements body, m⟩ := by
  rintro table ⟨around, t, S, r⟩ hP hphrase
  cases Option.some.inj hphrase
  cases body with
  | nil => exact ends_pure trivial
  | cons s rest =>
    have hhead := ih _ .head table _ (Visits.head.sound hP) rfl
    refine ends_bind hhead fun flow m₁ hs hflow => ?_
    cases flow with
    | normal =>
      have hrest := ih _ (.tail hs) table _ (Visits.tail.sound hP) rfl
      exact hrest
    | broken => exact ends_pure hflow
    | returned v => exact ends_pure hflow

/-- A loop keeps a `break` of its body to itself. -/
theorem obeys_loop (condition : Expr) (body : Stmt) (rounds : Nat)
    (ih : ∀ N, Part ⟨n, .loop condition body rounds, m⟩ N → N.Obeys) :
    Moment.Obeys ⟨n, .loop condition body rounds, m⟩ := by
  rintro table ⟨around, t, S, r⟩ hP hphrase
  cases Option.some.inj hphrase
  cases rounds with
  | zero => exact ends_outOfFuel trivial
  | succ k =>
    refine ends_bind ends_any fun v m₁ hcondition _ => ?_
    cases hv : v.isTruthy with
    | true =>
      have hbody := ih _ (.roundBody hcondition hv) table _ (Visits.roundBody.sound hP) rfl
      refine ends_bind hbody fun flow m₂ hround hflow => ?_
      cases flow with
      | normal => exact ih _ (.nextRound hcondition hv hround) table _ hP rfl
      | broken => exact ends_pure trivial
      | returned w => exact ends_pure hflow
    | false => exact ends_pure trivial

end Eval

/-- **Every end is allowed.** -/
theorem Moment.obeys (M : Moment) : M.Obeys := by
  refine M.induction fun M ih => ?_
  obtain ⟨n, t, m⟩ := M
  cases t with
  | statement s => exact Eval.obeys_statement s ih
  | statements body => exact Eval.obeys_statements body ih
  | loop condition body rounds => exact Eval.obeys_loop condition body rounds ih
  | _ => exact fun _ _ _ hphrase => nomatch hphrase

/-! ## Loops -/

namespace Eval

variable {n : Nat} {m m' : Machine}

/-- A loop never ends by `break`, whatever its body does. -/
theorem repeatWhile_not_broken (condition : Eval Value) (body : Eval Flow) (rounds : Nat) :
    Ends (repeatWhile condition body rounds) m (fun flow _ => flow ≠ .broken) fun _ _ => True := by
  induction rounds generalizing m with
  | zero => exact ends_outOfFuel trivial
  | succ k ih =>
    refine ends_bind ends_any fun v m₁ _ _ => ?_
    cases v.isTruthy with
    | true =>
      refine ends_bind ends_any fun flow m₂ _ _ => ?_
      cases flow with
      | normal => exact ih
      | broken => exact ends_pure nofun
      | returned w => exact ends_pure nofun
    | false => exact ends_pure nofun

end Eval

/-! ## The way of a break -/

/-- The moment ends by `break`. -/
def Moment.Breaks (M : Moment) (m' : Machine) : Prop :=
  match M.task with
  | .statement s => Eval.statement (.ofFuel M.fuel) s M.machine = .ok .broken m'
  | .statements body => Eval.statements (.ofFuel M.fuel) body M.machine = .ok .broken m'
  | _ => False

/-- The second moment is a statement, or a list of them, which the first one runs without a loop
or a call in between. -/
inductive Nests : Moment → Moment → Prop
  | block {n body m} : Nests ⟨n, .statement (.block body), m⟩ ⟨n, .statements body, m.inBlock⟩
  | chosen {n m m₁ condition whenTrue whenFalse v}
    (hcondition : Eval.expression (.ofFuel n) condition m = .ok v m₁) (hv : v.isTruthy = true) :
    Nests ⟨n, .statement (.ifElse condition whenTrue whenFalse), m⟩ ⟨n, .statement whenTrue, m₁⟩
  | alternative {n m m₁ condition whenTrue whenFalse v}
    (hcondition : Eval.expression (.ofFuel n) condition m = .ok v m₁) (hv : v.isTruthy = false) :
    Nests ⟨n, .statement (.ifElse condition whenTrue (some whenFalse)), m⟩
      ⟨n, .statement whenFalse, m₁⟩
  | head {n m s rest} : Nests ⟨n, .statements (s :: rest), m⟩ ⟨n, .statement s, m⟩
  | tail {n m m₁ s rest} (hhead : Eval.statement (.ofFuel n) s m = .ok .normal m₁) :
    Nests ⟨n, .statements (s :: rest), m⟩ ⟨n, .statements rest, m₁⟩

open Eval in
/-- What a moment nests in ends by `break` if it does, with the frame restored in which it
started. -/
theorem Nests.breaks {M N : Moment} (h : Nests M N) {m : Machine}
    (hN : N.Breaks { m with current := N.machine.current }) :
    M.Breaks { m with current := M.machine.current } := by
  cases h with
  | @block n body m₀ =>
    have hbody : statements (.ofFuel n) body
        { m₀ with frames := m₀.frames.push (some m₀.current), current := m₀.frames.nextId } =
          .ok .broken _ := hN
    change within m₀.frames.nextId (statements (.ofFuel n) body)
      { m₀ with frames := m₀.frames.push (some m₀.current) } = _
    unfold within
    rw [hbody]
  | @chosen n m₀ m₁ condition whenTrue whenFalse v hcondition hv =>
    have hchosen : statement (.ofFuel n) whenTrue m₁ = .ok .broken _ := hN
    rw [(grows_of_expression hcondition).current] at hchosen
    cases whenFalse with
    | none =>
      refine (bind_of_ok hcondition).trans ?_
      dsimp only
      rwa [ite_of_truthy hv]
    | some whenFalse =>
      refine (bind_of_ok hcondition).trans ?_
      dsimp only
      rwa [ite_of_truthy hv]
  | @alternative n m₀ m₁ condition whenTrue whenFalse v hcondition hv =>
    have halternative : statement (.ofFuel n) whenFalse m₁ = .ok .broken _ := hN
    rw [(grows_of_expression hcondition).current] at halternative
    refine (bind_of_ok hcondition).trans ?_
    dsimp only
    rwa [ite_of_not_truthy hv]
  | @head n m₀ s rest => exact bind_of_ok hN
  | @tail n m₀ m₁ s rest hhead =>
    have htail : statements (.ofFuel n) rest m₁ = .ok .broken _ := hN
    rw [(grows_of_statement hhead).current] at htail
    exact (bind_of_ok hhead).trans htail

theorem breaks_of_nests {M N : Moment} (h : ReflTransGen Nests M N) {m : Machine}
    (hN : N.Breaks { m with current := N.machine.current }) :
    M.Breaks { m with current := M.machine.current } := by
  induction h with
  | refl => exact hN
  | tail _ hlast ih => exact ih (hlast.breaks hN)

open Eval in
/-- A `break` on its way leaves the loop around it, with the frame restored in which the round
began. -/
theorem leaves_loop {n : Nat} {condition : Expr} {body : Stmt} {k : Nat} {keyword : Lexeme}
    {m₀ m₁ m : Machine} {v : Value}
    (hcondition : expression (.ofFuel n) condition m₀ = .ok v m₁) (hv : v.isTruthy = true)
    (hnests : ReflTransGen Nests ⟨n, .statement body, m₁⟩ ⟨n, .statement (.breakLoop keyword), m⟩) :
    repeatWhile (expression (.ofFuel n) condition) (statement (.ofFuel n) body) (k + 1) m₀ =
      .ok .normal { m with current := m₀.current } := by
  have hbreak : Moment.Breaks ⟨n, .statement (.breakLoop keyword), m⟩ m := rfl
  have hbody : statement (.ofFuel n) body m₁ = .ok .broken { m with current := m₁.current } :=
    breaks_of_nests hnests hbreak
  rw [(grows_of_expression hcondition).current] at hbody
  refine (bind_of_ok hcondition).trans ?_
  rw [ite_of_truthy hv]
  exact bind_of_ok hbody

end ScriptLang
