import ScriptLang.Proofs.Evaluation.Control
import ScriptLang.Proofs.Grammar.ForLoops

/-!
# Running loops with clauses

What a loop with clauses does is said here without blocks and without a `while` loop
(`ForLoop.run`): the first clause is run once, in a frame of its own; before each round the
condition is evaluated; a round is the body and then, if the body goes on, the increment in the same
frame. The tree of a loop does just that, on every machine and within all limits
(`Eval.statement_tree`).
-/

namespace ScriptLang

open Eval (Limits)
open Relation (ReflTransGen)

theorem Machine.current_lt_inBlock (m : Machine) : m.inBlock.current < m.inBlock.frames.count := by
  change m.frames.count < (m.frames.push (some m.current)).count
  rw [Frames.count_push]
  exact Nat.lt_succ_self _

/-! ## What loops do -/

/-- Run the first clause. -/
def ForInitializer.run (limits : Limits) : ForInitializer → Eval Unit
  | vars ds => Eval.declarators limits ds
  | expression e => do
    let _ ← Eval.expression limits e
    pure ()

namespace ForLoop

variable (limits : Limits) (loop : ForLoop)

/-- Whether there is another round. A missing condition always holds. -/
def goesOn : Eval Bool :=
  match loop.condition with
  | some e => do return (← Eval.expression limits e).isTruthy
  | none => pure true

/-- One round: the body, and unless it jumps out, the increment. With an increment, both are run
in a frame that is made for the round. -/
def round : Eval Flow :=
  match loop.increment with
  | some e => do
    let frame ← Eval.newFrame (← Eval.current)
    Eval.within frame do
      match ← Eval.statement limits loop.body with
      | .normal => do
        let _ ← Eval.expression limits e
        pure .normal
      | flow => pure flow
  | none => Eval.statement limits loop.body

/-- Rounds as long as the condition holds, fewer than the given number of them. -/
def rounds : Nat → Eval Flow
  | 0 => Eval.outOfFuel
  | k + 1 => do
    if ← loop.goesOn limits then
      match ← loop.round limits with
      | .normal => rounds k
      | .broken => pure .normal
      | .returned v => pure (.returned v)
    else
      pure .normal

/-- Run a loop. The first clause has a frame of its own, in which the rounds are run, too. -/
def run : Eval Flow :=
  match loop.initializer with
  | some i => do
    let frame ← Eval.newFrame (← Eval.current)
    Eval.within frame do
      i.run limits
      loop.rounds limits limits.rounds
  | none => loop.rounds limits limits.rounds

end ForLoop

/-! ## What trees do -/

namespace Eval

variable {limits : Limits} {loop : ForLoop}

theorem statements_singleton (s : Stmt) : statements limits [s] = statement limits s := by
  rw [statements]
  refine Eq.trans (congrArg _ (funext fun flow => ?_)) (bind_pure (statement limits s))
  cases flow <;> rfl

theorem statement_initializer (i : ForInitializer) :
    statement limits i.tree = i.run limits >>= fun _ => pure .normal := by
  cases i with
  | vars ds => rfl
  | expression e =>
    unfold ForInitializer.run
    rw [bind_assoc]
    rfl

theorem statement_of_run {i : ForInitializer} {m m₁ : Machine} (h : i.run limits m = .ok () m₁) :
    statement limits i.tree m = .ok .normal m₁ := by
  rw [statement_initializer, bind_of_ok h]
  rfl

theorem goesOn_eq :
    loop.goesOn limits = Value.isTruthy <$> expression limits loop.conditionTree := by
  unfold ForLoop.goesOn ForLoop.conditionTree
  cases loop.condition with
  | some e => rfl
  | none => rfl

theorem statement_round : statement limits loop.roundTree = loop.round limits := by
  unfold ForLoop.roundTree ForLoop.round
  cases loop.increment with
  | none => rfl
  | some e =>
    dsimp only
    rw [statement]
    refine congrArg _ (funext fun outer => congrArg _ (funext fun frame => congrArg _ ?_))
    rw [statements, statements_singleton]
    rfl

theorem repeatWhile_eq (k : Nat) : repeatWhile (expression limits loop.conditionTree)
    (statement limits loop.roundTree) k = loop.rounds limits k := by
  induction k with
  | zero => rfl
  | succ k ih =>
    rw [ForLoop.rounds, ← ih, goesOn_eq, bind_map_left, ← statement_round]
    rfl

/-- **The tree of a loop does what the loop does.** -/
theorem statement_tree (limits : Limits) (loop : ForLoop) :
    statement limits loop.tree = loop.run limits := by
  have hwhile : statement limits loop.whileTree = loop.rounds limits limits.rounds :=
    repeatWhile_eq limits.rounds
  unfold ForLoop.run
  rw [loop.tree_eq]
  cases loop.initializer with
  | none => exact hwhile
  | some i =>
    dsimp only
    rw [statement]
    refine congrArg _ (funext fun outer => congrArg _ (funext fun frame => congrArg _ ?_))
    rw [statements, statements_singleton, statement_initializer, hwhile, bind_assoc]
    rfl

end Eval

/-! ## Rounds -/

namespace ForLoop

/-- The frame in which the rounds of a loop are run. -/
def frame (loop : ForLoop) (m : Machine) : FrameId :=
  match loop.initializer with
  | some _ => m.frames.nextId
  | none => m.current

/-- The machine on which the body of a round is run, once the condition was evaluated. -/
def inRound (loop : ForLoop) (m : Machine) : Machine :=
  match loop.increment with
  | some _ => m.inBlock
  | none => m

/-- The loop that is run on `m` comes to a round that begins on the last machine, and then it may
have so many rounds. -/
inductive Turns (loop : ForLoop) (n : Nat) (m : Machine) : Nat → Machine → Prop
  | first (h : loop.initializer = none) : Turns loop n m n m
  | entered {i m₁} (h : loop.initializer = some i) (hi : i.run (.ofFuel n) m.inBlock = .ok () m₁) :
    Turns loop n m n m₁
  | next {k m₁ m₂ m₃} (h : Turns loop n m (k + 1) m₁)
    (hcondition : loop.goesOn (.ofFuel n) m₁ = .ok true m₂)
    (hround : loop.round (.ofFuel n) m₂ = .ok .normal m₃) : Turns loop n m k m₃

/-- In the round that begins on `m₁`, the piece is evaluated at the moment. -/
inductive Evaluates (loop : ForLoop) (n : Nat) (m₁ : Machine) : Piece → Moment → Prop
  | condition {e} (h : loop.condition = some e) :
    Evaluates loop n m₁ .condition ⟨n, .expression e, m₁⟩
  | body {m₂} (hcondition : loop.goesOn (.ofFuel n) m₁ = .ok true m₂) :
    Evaluates loop n m₁ .body ⟨n, .statement loop.body, loop.inRound m₂⟩
  | increment {e m₂ m₃} (h : loop.increment = some e)
    (hcondition : loop.goesOn (.ofFuel n) m₁ = .ok true m₂)
    (hbody : Eval.statement (.ofFuel n) loop.body (loop.inRound m₂) = .ok .normal m₃) :
    Evaluates loop n m₁ .increment ⟨n, .expression e, m₃⟩

/-! ### Rounds are parts -/

variable {loop : ForLoop} {n : Nat} {m m₁ : Machine}

theorem goesOn_eq_ok {limits : Limits} {b : Bool} (h : loop.goesOn limits m = .ok b m₁) :
    ∃ v, Eval.expression limits loop.conditionTree m = .ok v m₁ ∧ v.isTruthy = b := by
  rw [Eval.goesOn_eq] at h
  obtain ⟨v, hv, rfl⟩ := Eval.map_eq_ok h
  exact ⟨v, hv, rfl⟩

/-- The loop without its first clause is run on the machine that the first clause leaves. -/
theorem path_whileTree (h : loop.initializer = none ∧ m₁ = m ∨
    ∃ i, loop.initializer = some i ∧ i.run (.ofFuel n) m.inBlock = .ok () m₁) :
    ReflTransGen Part ⟨n, .statement loop.tree, m⟩ ⟨n, .statement loop.whileTree, m₁⟩ := by
  rw [loop.tree_eq]
  rcases h with ⟨hnone, rfl⟩ | ⟨i, hi, hrun⟩
  · rw [hnone]
  · rw [hi]
    exact ((ReflTransGen.single .block).tail (.tail (Eval.statement_of_run hrun))).tail .head

/-- Each round is a round of the `while` loop in the tree. -/
theorem Turns.path {k : Nat} (h : loop.Turns n m k m₁) :
    ReflTransGen Part ⟨n, .statement loop.tree, m⟩
      ⟨n, .loop loop.conditionTree loop.roundTree k, m₁⟩ := by
  induction h with
  | first h => exact (path_whileTree (.inl ⟨h, rfl⟩)).tail .loop
  | entered h hi => exact (path_whileTree (.inr ⟨_, h, hi⟩)).tail .loop
  | next _ hcondition hround ih =>
    obtain ⟨v, hv, htrue⟩ := goesOn_eq_ok hcondition
    rw [← Eval.statement_round] at hround
    exact ih.tail (.nextRound hv htrue hround)

/-- What is evaluated in a round is a part of it. -/
theorem Evaluates.path {k : Nat} {piece : Piece} {N : Moment}
    (h : loop.Evaluates n m₁ piece N) :
    ReflTransGen Part ⟨n, .loop loop.conditionTree loop.roundTree (k + 1), m₁⟩ N := by
  have hround {m₂ : Machine} (hcondition : loop.goesOn (.ofFuel n) m₁ = .ok true m₂) :
      ReflTransGen Part ⟨n, .loop loop.conditionTree loop.roundTree (k + 1), m₁⟩
        ⟨n, .statement loop.roundTree, m₂⟩ := by
    obtain ⟨v, hv, htrue⟩ := goesOn_eq_ok hcondition
    exact .single (.roundBody hv htrue)
  cases h with
  | condition h =>
    have htree : loop.conditionTree = _ := congrArg (Option.getD · _) h
    rw [htree]
    exact .single .roundCondition
  | body hcondition =>
    refine (hround hcondition).trans ?_
    unfold roundTree inRound
    cases loop.increment with
    | none => exact .refl
    | some e => exact (ReflTransGen.single .block).tail .head
  | increment h hcondition hbody =>
    refine (hround hcondition).trans ?_
    unfold inRound at hbody
    unfold roundTree
    rw [h] at hbody ⊢
    exact (((ReflTransGen.single .block).tail (.tail hbody)).tail .head).tail .evaluated

/-! ### Growth -/

section Growth

variable {m₂ : Machine}

theorem grows_of_goesOn {b : Bool} (h : loop.goesOn (.ofFuel n) m = .ok b m₁) : m.Grows [] m₁ := by
  obtain ⟨v, hv, -⟩ := goesOn_eq_ok h
  exact Eval.grows_of_expression hv

theorem grows_of_round {flow : Flow} (h : loop.round (.ofFuel n) m = .ok flow m₁) :
    m.Grows loop.roundTree.declares m₁ := by
  rw [← Eval.statement_round] at h
  exact Eval.grows_of_statement h

/-- The frame of a loop that was started on `m`, once the first clause was run. -/
structure Opened (loop : ForLoop) (m : Machine) (fs : Frames) : Prop where
  /-- It is right inside the frame in which the loop was started, unless it is the same, -/
  outward : loop.initializer.isSome → fs.outward? (loop.frame m) = some m.current
  /-- and has the variables of the loop. -/
  names : ∀ x ∈ loop.names, (fs.here? (loop.frame m) x).isSome

theorem Opened.later {fs fs' : Frames} {may : FrameId → String → Prop} (h : loop.Opened m fs)
    (hfs : fs.Extends may fs') : loop.Opened m fs' where
  outward hsome := by
    have houtward := h.outward hsome
    rw [hfs.outward _ (Frames.lt_count_of_outward? houtward), houtward]
  names x hx := hfs.kept _ x (h.names x hx)

theorem opened_first (h : loop.initializer = none) (fs : Frames) : loop.Opened m fs := by
  refine ⟨fun hsome => ?_, fun x hx => ?_⟩
  · rw [h] at hsome
    cases hsome
  · unfold names at hx
    rw [h] at hx
    cases hx

theorem frame_eq_nextId {i : ForInitializer} (hi : loop.initializer = some i) :
    loop.frame m = m.frames.nextId := by
  unfold frame
  rw [hi]

theorem opened_entered {i : ForInitializer} (hi : loop.initializer = some i)
    (hrun : i.run (.ofFuel n) m.inBlock = .ok () m₁) : loop.Opened m m₁.frames := by
  have hgrows := Eval.grows_of_statement (Eval.statement_of_run hrun)
  have hcurrent : m₁.current = loop.frame m := hgrows.current.trans (frame_eq_nextId hi).symm
  refine ⟨fun _ => ?_, fun x hx => ?_⟩
  · rw [frame_eq_nextId hi]
    exact (hgrows.frames.outward _ m.current_lt_inBlock).trans (Frames.outward?_push_self ..)
  · rw [← hcurrent]
    unfold names at hx
    rw [hi] at hx
    cases i with
    | vars ds => exact Eval.defines_declarators hrun m.current_lt_inBlock x hx
    | expression e => cases hx

/-- Every round begins in the frame of the loop. -/
theorem Turns.begins {k : Nat} (h : loop.Turns n m k m₁) :
    m₁.current = loop.frame m ∧ loop.Opened m m₁.frames := by
  induction h with
  | first h =>
    refine ⟨?_, opened_first h _⟩
    unfold frame
    rw [h]
  | entered h hi =>
    have hgrows := Eval.grows_of_statement (Eval.statement_of_run hi)
    exact ⟨hgrows.current.trans (frame_eq_nextId h).symm, opened_entered h hi⟩
  | next _ hcondition hround ih =>
    have hfirst := grows_of_goesOn hcondition
    have hlast := grows_of_round hround
    exact ⟨(hlast.current.trans hfirst.current).trans ih.1,
      (ih.2.later hfirst.frames).later hlast.frames⟩

end Growth

end ForLoop

end ScriptLang
