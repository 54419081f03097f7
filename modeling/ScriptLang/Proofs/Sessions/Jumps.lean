import ScriptLang.Proofs.Agreement.Jumps
import ScriptLang.Proofs.Sessions.History

/-!
# Jumps stay inside

The machine drops a jump that comes out of a statement of a program, and takes a `break` out of
the body of a function for its end. Neither happens in a session that can be reached: statements
of a program are walked over outside all loops and routines, and the body of a function outside
all loops, so such ends are not allowed (`Moment.obeys`).

A `break` is always inside a round of a loop, with only blocks, choices and statements between the
two (`Launch.Round`), and it is this loop that it leaves.
-/

namespace ScriptLang

open Scoping (Place Visits Phrase)
open Relation (ReflTransGen)

variable {L : List Launch} {l : Launch} {s : Session} {N : Moment} {P : Place}

/-! ## Surroundings of places -/

/-- A routine is outside the loops around it. -/
theorem Launch.Places.outside_loops (h : l.Places P) {r : Routine} (hphrase : P.phrase = .routine r) :
    P.around.inLoop = false := by
  obtain ⟨Q, hQ, hpath⟩ := h
  cases hpath with
  | refl => cases hQ <;> cases hphrase
  | tail _ hlast => cases hlast <;> first | rfl | cases hphrase

/-- What is left of the statements of a program was visited outside all loops and routines. -/
def Launch.AtTop (l : Launch) (N : Moment) : Prop :=
  ∀ body, N.task = .topLevel body → ∃ P, l.Places P ∧ P.phrase = .statements body ∧ P.around = {}

theorem Launch.atTop (h : l.Runs N) : l.AtTop N := by
  refine Machine.Runs.induction h (fun M hM => ?_) fun M N _ ih hpart => ?_
  · intro body htask
    cases hM with
    | statements =>
      cases htask
      exact ⟨_, Launch.Root.statements.places, rfl, rfl⟩
    | trailing => cases htask
  · intro body htask
    cases hpart with
    | topTail _ =>
      cases htask
      obtain ⟨⟨a, _, S, r⟩, hP, rfl, haround⟩ := ih _ rfl
      exact ⟨_, hP.visits .tail, rfl, haround⟩
    | _ => cases htask

/-! ## Rounds of loops -/

/-- The moment is in a round of a loop of the launch, which has `m₀` before it and runs its body on
`m₁`. There is neither another loop nor a call in between. -/
structure Launch.Round (l : Launch) (N : Moment) (condition : Expr) (body : Stmt) (rounds : Nat)
    (m₀ m₁ : Machine) : Prop where
  runs : l.Runs ⟨N.fuel, .loop condition body (rounds + 1), m₀⟩
  part : Part ⟨N.fuel, .loop condition body (rounds + 1), m₀⟩ ⟨N.fuel, .statement body, m₁⟩
  nests : ReflTransGen Nests ⟨N.fuel, .statement body, m₁⟩ N

/-- The moment is in some round of a loop. -/
def Launch.InRound (l : Launch) (N : Moment) : Prop :=
  ∃ condition body rounds m₀ m₁, l.Round N condition body rounds m₀ m₁

theorem Launch.InRound.nest {M : Moment} (h : l.InRound M) (hN : Nests M N) : l.InRound N := by
  obtain ⟨condition, body, rounds, m₀, m₁, hruns, hpart, hnests⟩ := h
  have hfuel : N.fuel = M.fuel := by cases hN <;> rfl
  rw [← hfuel] at hruns hpart hnests
  exact ⟨condition, body, rounds, m₀, m₁, hruns, hpart, hnests.tail hN⟩

/-- The statements that are run at a moment. -/
def Task.running? : Task → Option Phrase
  | .statement s => some (.statement s)
  | .statements body => some (.statements body)
  | _ => none

/-- The statements that are run were visited outside all loops, or they are in a round of one. -/
def World.Unlooped (W : World) (l : Launch) (N : Moment) : Prop :=
  ∀ t, N.task.running? = some t →
    (∃ P, W.placed P ∧ P.phrase = t ∧ P.around.inLoop = false) ∨ l.InRound N

namespace World.Unlooped

variable {W : World} {M : Moment}

/-- Blocks, choices and lists of statements do not change whether there is a loop around. -/
theorem nest (h : W.Unlooped l M) (hN : Nests M N) : W.Unlooped l N := by
  intro t' ht'
  have hplace {t t' : Phrase} (ht : M.task.running? = some t)
      (hvisit : ∀ a S r, ∃ S' r', Visits ⟨a, t, S, r⟩ ⟨a, t', S', r'⟩) :
      (∃ P, W.placed P ∧ P.phrase = t' ∧ P.around.inLoop = false) ∨ l.InRound N := by
    rcases h t ht with ⟨⟨a, _, S, r⟩, hP, rfl, hloop⟩ | hround
    · obtain ⟨S', r', hvisits⟩ := hvisit a S r
      exact .inl ⟨_, W.visits hP hvisits, rfl, hloop⟩
    · exact .inr (hround.nest hN)
  cases hN with
  | block =>
    cases ht'
    exact hplace rfl fun a S r => ⟨_, _, .block⟩
  | chosen _ _ =>
    cases ht'
    exact hplace rfl fun a S r => ⟨_, _, .chosen⟩
  | alternative _ _ =>
    cases ht'
    exact hplace rfl fun a S r => ⟨_, _, .alternative⟩
  | head =>
    cases ht'
    exact hplace rfl fun a S r => ⟨_, _, .head⟩
  | tail _ =>
    cases ht'
    exact hplace rfl fun a S r => ⟨_, _, .tail⟩

end World.Unlooped

namespace Session.Kept

variable (h : Session.Kept L s) (hl : l.Follows s)

include h hl

/-- The body of a function was visited outside all loops, and that of an initializer as one. -/
theorem body_placed {n : Nat} {f : Function} {arguments : List Value} {m : Machine}
    (hN : l.Runs ⟨n, .call f arguments, m⟩) :
    ∃ P, (h.next hl).placed P ∧ P.phrase = .statements f.routine.body ∧ P.around.inLoop = false ∧
      (f.isInitializer = true → P.around.role = some .initializer) := by
  obtain ⟨⟨⟨a, _, S, r⟩, ⟨l', hl', hP⟩, rfl, hrole, -⟩, -, -⟩ := (h.fits hl hN).suits
  exact ⟨_, ⟨l', hl', hP.visits .body⟩, rfl, hP.outside_loops rfl, hrole⟩

/-- Every statement that is run was visited outside all loops, or is in a round of one. -/
theorem unlooped (hN : l.Runs N) : (h.next hl).Unlooped l N := by
  refine Machine.Runs.induction hN (fun M hM => ?_) fun M N hM ih hpart => ?_
  · cases hM <;> exact fun _ ht => nomatch ht
  · have hplace {t : Phrase} (hP : ∃ P, (h.next hl).placed P ∧ P.phrase = t ∧
        P.around.inLoop = false) (ht : N.task.running? = some t) : (h.next hl).Unlooped l N :=
      fun t' ht' => .inl (by rwa [← Option.some.inj (ht.symm.trans ht')])
    cases hpart with
    | block => exact ih.nest .block
    | chosen hcondition hv => exact ih.nest (.chosen hcondition hv)
    | alternative hcondition hv => exact ih.nest (.alternative hcondition hv)
    | head => exact ih.nest .head
    | tail hhead => exact ih.nest (.tail hhead)
    | roundBody hcondition hv =>
      exact fun t ht => .inr ⟨_, _, _, _, _, hM, .roundBody hcondition hv, .refl⟩
    | topHead =>
      obtain ⟨⟨a, _, S, r⟩, hP, rfl, rfl⟩ := Launch.atTop hM _ rfl
      exact hplace ⟨_, ⟨l, by simp, hP.visits .head⟩, rfl, rfl⟩ rfl
    | body =>
      obtain ⟨P, hP, hphrase, hloop, -⟩ := h.body_placed hl hM
      exact hplace ⟨P, hP, hphrase, hloop⟩ rfl
    | _ => exact fun _ ht => nomatch ht

/-- A `break` is in a round of a loop. -/
theorem inRound {n : Nat} {keyword : Lexeme} {m : Machine}
    (hN : l.Runs ⟨n, .statement (.breakLoop keyword), m⟩) :
    l.InRound ⟨n, .statement (.breakLoop keyword), m⟩ := by
  rcases h.unlooped hl hN _ rfl with ⟨P, hP, hphrase, hloop⟩ | hround
  · have hallowed := Eval.allows_broken ((h.next hl).sound hP) hphrase
    rw [hloop] at hallowed
    cases hallowed
  · exact hround

end Session.Kept

theorem Launch.Round.leaves {condition : Expr} {body : Stmt} {rounds n : Nat} {keyword : Lexeme}
    {m m₀ m₁ : Machine}
    (h : l.Round ⟨n, .statement (.breakLoop keyword), m⟩ condition body rounds m₀ m₁) :
    (Task.loop condition body (rounds + 1)).perform n m₀ =
      .ok .normal { m with current := m₀.current } := by
  cases h.part with
  | roundBody hcondition hv => exact leaves_loop hcondition hv h.nests

/-! ## Jumps -/

/-- **Jumps stay inside.** In every run of a session that was reached by earlier runs, the
statements of the program that end do so normally; the body of a function does not end by `break`,
and that of an initializer ends normally or by returning nothing; and no loop ends by `break`. Each
`break` is in a round of a loop, without another loop or a call in between, and it leaves just this
loop, in the frame in which the loop was entered. -/
theorem jumps_stay_inside (hs : Session.Reached L s) {fuel : Nat} {source : String} {mode : Mode}
    (hlaunch : s.launch? fuel source mode = some l) :
    (∀ n stmt rest m flow m', l.Runs ⟨n, .topLevel (stmt :: rest), m⟩ →
      Eval.statement (.ofFuel n) stmt m = .ok flow m' → flow = .normal) ∧
    (∀ n f arguments m flow m', l.Runs ⟨n, .call f arguments, m⟩ →
      Eval.statements (.ofFuel n) f.routine.body (m.inCall f arguments) = .ok flow m' →
      flow ≠ .broken ∧ (f.isInitializer = true → flow = .normal ∨ flow = .returned .nil)) ∧
    (∀ n condition body m flow m',
      Eval.statement (.ofFuel n) (.whileLoop condition body) m = .ok flow m' → flow ≠ .broken) ∧
    (∀ n keyword m, l.Runs ⟨n, .statement (.breakLoop keyword), m⟩ →
      ∃ condition body rounds m₀ m₁,
        l.Round ⟨n, .statement (.breakLoop keyword), m⟩ condition body rounds m₀ m₁ ∧
        (Task.loop condition body (rounds + 1)).perform n m₀ =
          .ok .normal { m with current := m₀.current }) := by
  have hl := Session.follows_of_launch hlaunch
  refine ⟨fun n stmt rest m flow m' hN hend => ?_, fun n f arguments m flow m' hN hend => ?_,
    fun n condition body m flow m' hend => ?_, fun n keyword m hN => ?_⟩
  · obtain ⟨⟨a, _, S, r⟩, hP, rfl, rfl⟩ := Launch.atTop hN _ rfl
    have hsound := (hs.kept.next hl).sound ⟨l, by simp, hP.visits .head⟩
    have hallowed := (Moment.obeys ⟨n, .statement stmt, m⟩ _ _ hsound rfl).of_ok hend
    cases flow with
    | normal => rfl
    | broken => cases hallowed
    | returned v => cases hallowed.1
  · obtain ⟨P, hP, hphrase, hloop, hrole⟩ := hs.kept.body_placed hl hN
    have hsound := (hs.kept.next hl).sound hP
    have hallowed := (Moment.obeys ⟨n, .statements f.routine.body, m.inCall f arguments⟩ _ _ hsound
      (by rw [hphrase]; rfl)).of_ok hend
    cases flow with
    | normal => exact ⟨nofun, fun _ => .inl rfl⟩
    | broken =>
      have hinLoop : P.around.inLoop = true := hallowed
      rw [hloop] at hinLoop
      cases hinLoop
    | returned v => exact ⟨nofun, fun hf => .inr (by rw [hallowed.2 (hrole hf)])⟩
  · exact (Eval.repeatWhile_not_broken ..).of_ok hend
  · obtain ⟨condition, body, rounds, m₀, m₁, hround⟩ := hs.kept.inRound hl hN
    exact ⟨condition, body, rounds, m₀, m₁, hround, hround.leaves⟩

/-- A `break` in a block in a loop. -/
theorem break_leaves_while : ∃ l keyword m condition body rounds m₀ m₁,
    Session.start.launch? 20 "while(true){break;}" .script = some l ∧
      l.Round ⟨20, .statement (.breakLoop keyword), m⟩ condition body rounds m₀ m₁ ∧
      (Task.loop condition body (rounds + 1)).perform 20 m₀ =
        .ok .normal { m with current := m₀.current } := by
  let keyword : Lexeme := ⟨"break", 1⟩
  let condition : Expr := .literal (.bool true)
  let p : Program := ⟨[.whileLoop condition (.block [.breakLoop keyword])], none⟩
  let l : Launch := ⟨.start, ∅, 20, p⟩
  have hlaunch : Session.start.launch? 20 "while(true){break;}" .script = some l := rfl
  have hN : l.Runs ⟨20, .statement (.breakLoop keyword), l.start.home.inBlock⟩ := by
    have hstart : l.Runs ⟨20, .topLevel p.statements, l.start.home⟩ :=
      Machine.Starts.statements.runs
    have hloop := (hstart.part .topHead).part .loop
    have hcondition : Eval.expression (.ofFuel 20) condition l.start.home =
      .ok (.bool true) l.start.home := rfl
    exact ((hloop.part (.roundBody hcondition rfl)).part .block).part .head
  obtain ⟨condition', body, rounds, m₀, m₁, hround, hend⟩ :=
    (jumps_stay_inside (.start _ _) hlaunch).2.2.2 _ _ _ hN
  exact ⟨l, _, _, condition', body, rounds, m₀, m₁, hlaunch, hround, hend⟩

end ScriptLang
