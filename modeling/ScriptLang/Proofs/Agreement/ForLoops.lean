import ScriptLang.Proofs.Agreement.Fits
import ScriptLang.Proofs.Evaluation.ForLoops
import ScriptLang.Proofs.Scoping.ForLoops

/-!
# The frames of loops with clauses

All rounds of a loop are run in one frame, that of the first clause, and a round with an increment
in one more frame, which the body and the increment have in common (`ForLoop.Framed`). These are
the frames that are made for the scopes in which the walk goes over the pieces of the loop: in every
round, each piece is evaluated in a frame that is lodged in the scopes of its place
(`World.lodged_place`).

Once the loop has ended, in whatever way, no frame that it made is found from the current one
(`Machine.Forgets`).
-/

namespace ScriptLang

open Scoping (Place Site Visits Phrase)
open Relation (ReflTransGen)

/-! ## Ways outward -/

namespace Frames

theorem ancestor?_add (fs : Frames) (i j : Nat) (f : FrameId) :
    fs.ancestor? (i + j) f = (fs.ancestor? i f).bind (fs.ancestor? j) := by
  induction i generalizing f with
  | zero => rw [Nat.zero_add]; rfl
  | succ i ih =>
    rw [Nat.add_right_comm, ancestor?, ancestor?]
    cases fs.outward? f with
    | none => rfl
    | some g => exact ih g

theorem Extends.ancestor?_eq_some {may : FrameId → String → Prop} {fs fs' : Frames}
    (h : fs.Extends may fs') {k : Nat} {f g : FrameId} (hg : fs.ancestor? k f = some g) :
    fs'.ancestor? k f = some g := by
  induction k generalizing f with
  | zero => exact hg
  | succ k ih =>
    rw [Frames.ancestor?] at hg ⊢
    cases hf : fs.outward? f with
    | none =>
      rw [hf] at hg
      cases hg
    | some f' =>
      rw [hf] at hg
      rw [h.outward f (lt_count_of_outward? hf), hf]
      exact ih hg

/-- Where all frames on the way outward were made, there is no other way later. -/
theorem Extends.ancestor? {may : FrameId → String → Prop} {fs fs' : Frames}
    (h : fs.Extends may fs') {k : Nat} {f : FrameId}
    (hold : ∀ j g, fs.ancestor? j f = some g → g < fs.count) :
    fs'.ancestor? k f = fs.ancestor? k f := by
  induction k generalizing f with
  | zero => rfl
  | succ k ih =>
    rw [Frames.ancestor?, Frames.ancestor?, h.outward f (hold 0 f rfl)]
    cases hf : fs.outward? f with
    | none => rfl
    | some g =>
      refine ih fun j g' hg' => hold (j + 1) g' ?_
      rw [Frames.ancestor?, hf]
      exact hg'

end Frames

/-- The second machine is in the frame that the first one is in. From there no frame is found that
was made since, and the frames that are found have no new names. -/
structure Machine.Forgets (m m' : Machine) : Prop where
  current : m'.current = m.current
  older : ∀ k g, m'.frames.ancestor? k m'.current = some g → g < m.frames.count
  names : ∀ f x, f < m.frames.count → (m'.frames.here? f x).isSome → (m.frames.here? f x).isSome

theorem Machine.Grows.forgets {m m' : Machine} (h : m.Grows [] m')
    (hold : ∀ k g, m.frames.ancestor? k m.current = some g → g < m.frames.count) :
    m.Forgets m' where
  current := h.current
  older k g hg := by
    rw [h.current, h.frames.ancestor? hold] at hg
    exact hold k g hg
  names f x hf hx := (h.frames.new f x hf hx).resolve_right fun hnew => by cases hnew.2

/-! ## Frames of rounds -/

namespace ForLoop

variable {loop : ForLoop} {n : Nat} {m m₁ : Machine} {piece : Piece} {N : Moment}

/-- The frames around a piece of a loop, which was started on `m`, in the round that begins on
`m₁`. -/
structure Framed (loop : ForLoop) (n : Nat) (m m₁ : Machine) (piece : Piece) (N : Moment) :
    Prop where
  /-- As many links outward as there are scopes of the round is the frame of the loop, -/
  frame : N.machine.frames.ancestor? (loop.sitesOf piece).length N.machine.current =
    some (loop.frame m)
  /-- and then the frame in which the loop was started. -/
  outer : N.machine.frames.ancestor? ((loop.sitesOf piece).length + loop.ownSites.length)
    N.machine.current = some m.current
  /-- The frame of the loop has its variables. -/
  names : ∀ x ∈ loop.names, (N.machine.frames.here? (loop.frame m) x).isSome
  /-- A frame of the round is made for it once the condition was evaluated. -/
  fresh : loop.sitesOf piece ≠ [] →
    ∃ m₂, loop.goesOn (.ofFuel n) m₁ = .ok true m₂ ∧ N.machine.current = m₂.frames.nextId

theorem Opened.outer {fs : Frames} (h : loop.Opened m fs) :
    fs.ancestor? loop.ownSites.length (loop.frame m) = some m.current := by
  have houtward := h.outward
  unfold ownSites
  unfold frame at houtward ⊢
  cases hi : loop.initializer with
  | none => rfl
  | some i =>
    rw [hi] at houtward
    change fs.ancestor? 1 m.frames.nextId = some m.current
    rw [Frames.ancestor?, houtward rfl]
    rfl

theorem framed_of (hopened : loop.Opened m N.machine.frames)
    (hframe : N.machine.frames.ancestor? (loop.sitesOf piece).length N.machine.current =
      some (loop.frame m))
    (hfresh : loop.sitesOf piece ≠ [] →
      ∃ m₂, loop.goesOn (.ofFuel n) m₁ = .ok true m₂ ∧ N.machine.current = m₂.frames.nextId) :
    loop.Framed n m m₁ piece N where
  frame := hframe
  outer := by
    rw [Frames.ancestor?_add, hframe]
    exact hopened.outer
  names := hopened.names
  fresh := hfresh

/-- What is evaluated later in the same frame has the same frames around it. -/
theorem Framed.later {N' : Moment} {xs : List String} {piece' : Piece}
    (h : loop.Framed n m m₁ piece N) (hgrows : N.machine.Grows xs N'.machine)
    (hsites : loop.sitesOf piece' = loop.sitesOf piece) : loop.Framed n m m₁ piece' N' where
  frame := by
    rw [hsites, hgrows.current]
    exact hgrows.frames.ancestor?_eq_some h.frame
  outer := by
    rw [hsites, hgrows.current]
    exact hgrows.frames.ancestor?_eq_some h.outer
  names x hx := hgrows.frames.kept _ x (h.names x hx)
  fresh := by
    rw [hsites, hgrows.current]
    exact h.fresh

theorem Evaluates.framed (h : loop.Evaluates n m₁ piece N) (hcurrent : m₁.current = loop.frame m)
    (hopened : loop.Opened m m₁.frames) : loop.Framed n m m₁ piece N := by
  -- the machine on which the body is run, in both kinds of round
  have hround {m₂ : Machine} (hcondition : loop.goesOn (.ofFuel n) m₁ = .ok true m₂) :
      loop.Framed n m m₁ .body ⟨n, .statement loop.body, loop.inRound m₂⟩ := by
    have hgrows := grows_of_goesOn hcondition
    have hlater := hopened.later hgrows.frames
    have hcurrent₂ : m₂.current = loop.frame m := hgrows.current.trans hcurrent
    have hsites : loop.sitesOf .body = loop.roundSites := rfl
    unfold inRound
    cases hincrement : loop.increment with
    | none =>
      have hnone : loop.sitesOf .body = [] := by
        rw [hsites, roundSites, hincrement]
      refine framed_of hlater ?_ fun hne => absurd hnone hne
      rw [hnone]
      exact congrArg some hcurrent₂
    | some e =>
      have hpushed : m₂.frames.Extends (fun _ _ => True) m₂.inBlock.frames := .of_push _
      refine framed_of (hlater.later hpushed) ?_ fun _ => ⟨m₂, hcondition, rfl⟩
      have hone : (loop.sitesOf .body).length = 1 := by
        rw [hsites, roundSites, hincrement]
        rfl
      have houtward : m₂.inBlock.frames.outward? m₂.inBlock.current = some m₂.current :=
        Frames.outward?_push_self ..
      rw [hone, Frames.ancestor?, houtward, ← hcurrent₂]
      rfl
  cases h with
  | condition h => exact framed_of hopened (congrArg some hcurrent) fun hne => absurd rfl hne
  | body hcondition => exact hround hcondition
  | increment h hcondition hbody =>
    exact (hround hcondition).later (Eval.grows_of_statement hbody) rfl

end ForLoop

/-! ## Frames and scopes -/

namespace World

variable {W : World} {pending : Pending} {loop : ForLoop} {P : Place} {n k : Nat} {m m₁ : Machine}

theorem happens_path {M N : Moment} (h : W.happens M) (hpath : ReflTransGen Part M N) :
    W.happens N := by
  induction hpath with
  | refl => exact h
  | tail _ hlast ih => exact W.part ih hlast

/-- Every round begins in a frame that is lodged in the scopes of the loop. -/
theorem lodged_whilePlace (hP : W.placed P) (hphrase : P.phrase = .statement loop.tree)
    (hhappens : W.happens ⟨n, .statement loop.tree, m⟩)
    (hlodged : W.Lodged m.frames pending P.sites P.state.scopes m.current)
    (h : loop.Turns n m k m₁) :
    W.Lodged m₁.frames pending (loop.whilePlace P).sites (loop.whilePlace P).state.scopes
      m₁.current := by
  induction h with
  | first h =>
    unfold ForLoop.whilePlace ForLoop.ownSites
    rw [h]
    exact hlodged
  | @entered i m₁ h hi =>
    have htree : loop.tree = .block [i.tree, loop.whileTree] := by
      rw [loop.tree_eq, h]
    have hwf : i.tree.WellFormed := by
      have hall := (W.sound hP).wellFormed
      rw [hphrase, htree] at hall
      exact hall.1
    rw [htree] at hhappens
    have hrun := Eval.statement_of_run hi
    unfold ForLoop.whilePlace ForLoop.ownSites
    rw [h]
    refine ((hlodged.block hhappens).later (Eval.grows_of_statement hrun)).widen
      (Scoping.statement_grows P.around i.tree P.state.enter).scopes fun x hx => .inl ?_
    exact Eval.defines_statement hwf hrun m.current_lt_inBlock x hx
  | next _ hcondition hround ih =>
    exact (ih.later (ForLoop.grows_of_goesOn hcondition)).later (ForLoop.grows_of_round hround)

/-- Every piece is evaluated in a frame that is lodged in the scopes of its place. -/
theorem lodged_place {piece : ForLoop.Piece} {N : Moment} (hbody : loop.body.declares = [])
    (hhappens : W.happens ⟨n, .loop loop.conditionTree loop.roundTree (k + 1), m₁⟩)
    (hlodged : W.Lodged m₁.frames pending (loop.whilePlace P).sites
      (loop.whilePlace P).state.scopes m₁.current) (h : loop.Evaluates n m₁ piece N) :
    W.Lodged N.machine.frames pending (loop.place P piece).sites
      (loop.place P piece).state.scopes N.machine.current := by
  have hround {m₂ : Machine} (hcondition : loop.goesOn (.ofFuel n) m₁ = .ok true m₂) :
      W.Lodged (loop.inRound m₂).frames pending (loop.bodyPlace P).sites
        (loop.bodyPlace P).state.scopes (loop.inRound m₂).current := by
    obtain ⟨v, hv, htrue⟩ := ForLoop.goesOn_eq_ok hcondition
    have hpart := W.part hhappens (.roundBody hv htrue)
    have hlater := (hlodged.later (ForLoop.grows_of_goesOn hcondition)).congr
      (Scoping.widened_nil_iff.mp (Scoping.expression_grows P.around loop.conditionTree _).scopes)
    unfold ForLoop.bodyPlace ForLoop.roundSites ForLoop.inRound
    unfold ForLoop.roundTree at hpart
    cases hincrement : loop.increment with
    | none => exact hlater
    | some e =>
      rw [hincrement] at hpart
      exact hlater.block hpart
  cases h with
  | condition h => exact hlodged
  | body hcondition => exact hround hcondition
  | increment h hcondition hbody' =>
    have hgrows := Eval.grows_of_statement hbody'
    have hscopes := (Scoping.statement_grows (loop.bodyPlace P).around loop.body
      (loop.bodyPlace P).state).scopes
    rw [hbody] at hscopes
    exact ((hround hcondition).later hgrows).congr (Scoping.widened_nil_iff.mp hscopes)

end World

end ScriptLang
