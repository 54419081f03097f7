import ScriptLang.Proofs.Agreement.ForLoops
import ScriptLang.Proofs.Sessions.Lookups
import ScriptLang.Proofs.Sessions.Tree

/-!
# Loops with clauses are loops

The parser turns a loop with clauses into blocks and a `while` loop, and neither the resolver nor
the evaluator knows of it. Yet all three agree on what the loop is: what is parsed is the tree of
its clauses, the tree is run like the loop, and the pieces of the loop were walked over in the very
scopes for which the frames around them are made (`for_loops_are_loops`).
-/

namespace ScriptLang

open Scoping (Place Site Visits Phrase)
open Relation (ReflTransGen)

variable {L : List Launch} {l : Launch} {s : Session} {N : Moment}
variable {fuel : Nat} {source : String} {mode : Mode}

/-! ## Frames that are left -/

/-- On a machine that is in order, the frames around one that was made were made. -/
theorem Machine.Orderly.ancestor_lt {m : Machine} (h : m.Orderly) {k : Nat} {f g : FrameId}
    (hf : f < m.frames.count) (hg : m.frames.ancestor? k f = some g) : g < m.frames.count := by
  induction k generalizing f with
  | zero =>
    cases hg
    exact hf
  | succ k ih =>
    rw [Frames.ancestor?] at hg
    by_cases hglobals : f = m.globals
    · rw [hglobals, h.globals.2] at hg
      cases hg
    · obtain ⟨f', hlt, houtward⟩ := h.earlier f hf hglobals
      rw [houtward] at hg
      exact ih (Nat.lt_trans hlt hf) hg

namespace Session.Reached

theorem rests (h : Session.Reached L s) : s.Rests := by
  induction h with
  | start maxDepth clock => exact rests_start maxDepth clock
  | run _ fuel source mode _ ih => exact (ih.run fuel source mode).1
  | takePrinted _ ih => exact ih.takePrinted

/-- However a statement ends that declares nothing, the frames that it made are left. -/
theorem forgets (h : Session.Reached L s) (hlaunch : s.launch? fuel source mode = some l) {n : Nat}
    {stmt : Stmt} {m : Machine} (hN : l.Runs ⟨n, .statement stmt, m⟩)
    (hdeclares : stmt.declares = []) :
    Eval.Ends (Eval.statement (.ofFuel n) stmt) m (fun _ m' => m.Forgets m')
      fun _ m' => m.Forgets m' := by
  obtain ⟨horderly, -⟩ := h.rests.runs hlaunch hN
  have hold (k : Nat) (g : FrameId) (hg : m.frames.ancestor? k m.current = some g) :
      g < m.frames.count := horderly.ancestor_lt horderly.current hg
  have hkeeps : Eval.Keeps stmt.declares (Eval.statement (.ofFuel n) stmt) m :=
    Moment.keeps ⟨n, .statement stmt, m⟩
  rw [hdeclares] at hkeeps
  exact Eval.Ends.mono hkeeps (fun _ _ _ hgrows => hgrows.forgets hold)
    fun _ _ hgrows => hgrows.forgets hold

end Session.Reached

/-! ## Scopes of the pieces -/

/-- A piece of a loop at a place is walked over in the scopes around the loop and in its own, and
the references in it are bound to these. -/
structure Launch.Counts (l : Launch) (loop : ForLoop) (P : Place) (piece : ForLoop.Piece)
    (t : Phrase) : Prop where
  visited : ReflTransGen Visits P (loop.place P piece)
  phrase : (loop.place P piece).phrase = t
  sites : (loop.place P piece).sites = loop.sitesOf piece ++ (loop.ownSites ++ P.sites)
  /-- A reference in the piece is bound to a scope that has its name, inside the piece or around
  it. -/
  bound : ∀ R ref hops, ReflTransGen Visits (loop.place P piece) R → R.Mentions ref →
    l.start.bindings.hops? ref.id = some hops →
    ∃ inner scope, R.sites = inner ++ (loop.place P piece).sites ∧
      R.state.scopes[hops]? = some scope ∧ scope.contains ref.word.text
  /-- A variable of the loop is as many scopes further out than the piece as the round has, unless a
  scope inside the piece hides it. -/
  names : ∀ R ref inner, ReflTransGen Visits (loop.place P piece) R → R.Mentions ref →
    ref.word.text ∈ loop.names → R.sites = inner ++ (loop.place P piece).sites →
    (∀ k scope, k < inner.length → R.state.scopes[k]? = some scope →
      ¬ scope.contains ref.word.text) →
    l.start.bindings.hops? ref.id = some (inner.length + (loop.sitesOf piece).length)

/-- The frames at a moment were made for the scopes at a place, and have their names, except for
variables whose initializers had not come to their ends when the loop was started. -/
structure Launch.Seats (L : List Launch) (l : Launch) (M N : Moment) (Q : Place) : Prop where
  phrase : N.task.phrase? = some Q.phrase
  frames : ∀ k scope, Q.state.scopes[k]? = some scope → ∃ f site,
    N.machine.frames.ancestor? k N.machine.current = some f ∧ Q.sites[k]? = some site ∧
      Made (L ++ [l]) f site ∧
      ∀ x, scope.contains x → (N.machine.frames.here? f x).isSome ∨ Unfinished L l M f x

theorem ForLoop.declares_tree {loop : ForLoop} (hbody : loop.body.declares = []) :
    loop.tree.declares = [] := by
  have hround : loop.whileTree.declares = [] := by
    unfold whileTree roundTree
    cases loop.increment with
    | none => exact hbody
    | some e => rfl
  rw [loop.tree_eq]
  cases loop.initializer with
  | none => exact hround
  | some i => rfl

theorem ForLoop.Evaluates.phrase_place {loop : ForLoop} {P : Place} {n : Nat} {m₁ : Machine}
    {piece : Piece} (h : loop.Evaluates n m₁ piece N) :
    N.task.phrase? = some (loop.place P piece).phrase := by
  have hpiece : loop.phrase? piece = N.task.phrase? := by
    cases h with
    | condition h => exact congrArg (Option.map _) h
    | body _ => rfl
    | increment h _ _ => exact congrArg (Option.map _) h
  obtain ⟨t, ht⟩ : ∃ t, N.task.phrase? = some t := by cases h <;> exact ⟨_, rfl⟩
  rw [ForLoop.phrase_place (hpiece.trans ht), ht]

namespace Session.Kept

variable {loop : ForLoop} {P : Place} {piece : ForLoop.Piece} {t : Phrase} {n : Nat} {m : Machine}
variable (h : Session.Kept L s) (hl : l.Follows s)

include h hl

theorem counts_forLoop (hP : (h.next hl).placed P) (hphrase : P.phrase = .statement loop.tree)
    (hbody : loop.body.declares = []) (ht : loop.phrase? piece = some t) :
    l.Counts loop P piece t where
  visited := ForLoop.path_place hphrase ht
  phrase := ForLoop.phrase_place ht
  sites := ForLoop.sites_place
  bound R ref hops hR hmentions hhops := by
    have hsound := Visits.path_sound ((ForLoop.path_place hphrase ht).trans hR)
      ((h.next hl).sound hP)
    obtain ⟨scope, hscope, hname⟩ := hsound.binds hmentions hhops
    obtain ⟨inner, hsites, -⟩ := Visits.path_enters (ForLoop.declares_place hbody) hR
    exact ⟨inner, scope, hsites, hscope, hname⟩
  names R ref inner hR hmentions hname hsites hinner :=
    ((h.next hl).sound hP).hops_forLoop hphrase hbody ht hR hmentions hname hsites hinner

/-- Where a loop is run, it has a place, and the frames at the pieces are those of its scopes. -/
theorem seats_forLoop (hbody : loop.body.declares = []) (hM : l.Runs ⟨n, .statement loop.tree, m⟩) :
    ∃ P, (h.next hl).placed P ∧ P.phrase = .statement loop.tree ∧
      ∀ piece k m₁ N, loop.Turns n m (k + 1) m₁ → loop.Evaluates n m₁ piece N →
        Launch.Seats L l ⟨n, .statement loop.tree, m⟩ N (loop.place P piece) := by
  obtain ⟨hhappens, -, P, hP, hphrase, hlodged⟩ := h.fits hl hM
  refine ⟨P, hP, hphrase, fun piece k m₁ N hturns hpiece => ?_⟩
  have hbegins := World.lodged_whilePlace hP hphrase hhappens hlodged hturns
  have hN := World.lodged_place hbody (World.happens_path hhappens hturns.path) hbegins hpiece
  refine ⟨hpiece.phrase_place, fun i scope hscope => ?_⟩
  obtain ⟨f, site, hf, hsite, hmade, hnames⟩ := hN.ancestor hscope
  exact ⟨f, site, hf, hsite, h.made hl hmade, hnames⟩

end Session.Kept

/-! ## Loops -/

/-- **Loops with clauses are loops.** What parses as a `for` statement is the tree of its clauses
and its body. The tree does what the loop does: on every machine and within all limits, both end in
the same way on the same machine. In every session that was reached by runs, wherever an accepted
program has the tree of a loop, each piece of it was walked over in the scopes around the loop and
in those of the first clause and of a round, references in it were bound to these scopes, and the
scopes around the loop are the same after it. And wherever the loop is run, each piece of each round
is evaluated in the frames that were made for these scopes: all rounds in the one frame that the
first clause made and that has the variables of the loop, and the body and the increment in one more
frame, if there is an increment, which is made for the round. However the loop ends, these frames
are left. -/
theorem for_loops_are_loops :
    (∀ depth more c stmt c', c.Honest → c.kind = .keyword .for →
      Grammar.statement (Grammar.grammar depth) more c = .ok stmt c' →
      ∃ loop : ForLoop, Grammar.forClauses (Grammar.grammar depth) more c = .ok loop c' ∧
        stmt = loop.tree ∧ loop.body.declares = []) ∧
    (∀ limits (loop : ForLoop), Eval.statement limits loop.tree = loop.run limits) ∧
    ∀ L s, Session.Reached L s → ∀ fuel source mode l, s.launch? fuel source mode = some l →
      ∀ loop : ForLoop, loop.body.declares = [] →
      (∀ l' ∈ L ++ [l], ∀ P, l'.Places P → P.phrase = .statement loop.tree →
        (∀ piece t, loop.phrase? piece = some t → l.Counts loop P piece t) ∧
        P.state.Spares 0 P.after) ∧
      ∀ n m, l.Runs ⟨n, .statement loop.tree, m⟩ →
        Eval.Ends (loop.run (.ofFuel n)) m (fun _ m' => m.Forgets m') (fun _ m' => m.Forgets m') ∧
        ∃ l' ∈ L ++ [l], ∃ P, l'.Places P ∧ P.phrase = .statement loop.tree ∧
          ∀ piece k m₁ N, loop.Turns n m (k + 1) m₁ → loop.Evaluates n m₁ piece N →
            l.Runs N ∧ loop.Framed n m m₁ piece N ∧
              Launch.Seats L l ⟨n, .statement loop.tree, m⟩ N (loop.place P piece) := by
  refine ⟨fun depth more c stmt c' hc hfor hparse =>
      Grammar.forLoop_of_statement (Grammar.faithful_grammar depth) hc hfor hparse,
    Eval.statement_tree, fun L s hs fuel source mode l hlaunch loop hbody => ?_⟩
  have hl := Session.follows_of_launch hlaunch
  refine ⟨fun l' hl' P hP hphrase => ⟨fun piece t ht => ?_, ?_⟩, fun n m hM => ⟨?_, ?_⟩⟩
  · exact hs.kept.counts_forLoop hl ⟨l', hl', hP⟩ hphrase hbody ht
  · unfold Place.after
    rw [hphrase]
    exact Scoping.statement_spares_all P.around _ _ (ForLoop.declares_tree hbody)
  · rw [← Eval.statement_tree]
    exact hs.forgets hlaunch hM (ForLoop.declares_tree hbody)
  · obtain ⟨P, ⟨l', hl', hP⟩, hphrase, hseats⟩ := hs.kept.seats_forLoop hl hbody hM
    refine ⟨l', hl', P, hP, hphrase, fun piece k m₁ N hturns hpiece => ⟨?_, ?_, ?_⟩⟩
    · obtain ⟨M, hstart, hpath⟩ := hM
      exact ⟨M, hstart, hpath.trans (hturns.path.trans hpiece.path)⟩
    · obtain ⟨hcurrent, hopened⟩ := hturns.begins
      exact hpiece.framed hcurrent hopened
    · exact hseats piece k m₁ N hturns hpiece

/-- The increment of the first round of a loop with all clauses. -/
theorem for_increment_is_framed :
    ∃ (c c' : Grammar.Cursor) (loop : ForLoop) (l : Launch) (m m₁ : Machine) (N : Moment) (P : Place)
      (t : Phrase),
      Grammar.statement (Grammar.grammar 20) 20 c = .ok loop.tree c' ∧
      (∃ read, Grammar.forClauses (Grammar.grammar 20) 20 c = .ok read c' ∧
        loop.tree = read.tree ∧ read.body.declares = []) ∧
      Session.start.launch? 20 "for(var i=true;i;i=false){}" .script = some l ∧
      l.Runs ⟨20, .statement loop.tree, m⟩ ∧ loop.Turns 20 m 20 m₁ ∧
      loop.Evaluates 20 m₁ .increment N ∧ loop.Framed 20 m m₁ .increment N ∧
      Launch.Seats [] l ⟨20, .statement loop.tree, m⟩ N (loop.place P .increment) ∧
      l.Counts loop P .increment t := by
  let i : Ref := ⟨0, ⟨"i", 1⟩⟩
  let j : Ref := ⟨1, ⟨"i", 1⟩⟩
  let loop : ForLoop := {
    initializer := some (.vars [⟨⟨"i", 1⟩, some (.literal (.bool true))⟩])
    condition := some (.variable i)
    increment := some (.assign j (.literal (.bool false)))
    body := .block [] }
  let c : Grammar.Cursor := .start (Source.tokens "for(var i=true;i;i=false){}") 0
  let l : Launch := ⟨.start, ((∅ : Bindings).bind 0 0).bind 1 1, 20, ⟨[loop.tree], none⟩⟩
  let m : Machine := l.start.home
  let m₁ : Machine := m.inBlock.defining "i" (.bool true)
  have hc : c.Honest := fun t => Source.tokens_honest _ t
  obtain ⟨c', hparse⟩ : ∃ c', Grammar.statement (Grammar.grammar 20) 20 c = .ok loop.tree c' :=
    ⟨_, rfl⟩
  have hlaunch : Session.start.launch? 20 "for(var i=true;i;i=false){}" .script = some l := rfl
  have hM : l.Runs ⟨20, .statement loop.tree, m⟩ := by
    have hstart : l.Runs ⟨20, .topLevel [loop.tree], m⟩ := Machine.Starts.statements.runs
    exact hstart.part .topHead
  have hturns : loop.Turns 20 m 20 m₁ := .entered rfl rfl
  have hcondition : loop.goesOn (.ofFuel 20) m₁ = .ok true m₁ := rfl
  have hpiece : loop.Evaluates 20 m₁ .increment _ := .increment rfl hcondition rfl
  obtain ⟨hread, -, hloops⟩ := for_loops_are_loops
  obtain ⟨hplaces, hruns⟩ := hloops [] _ (.start _ _) _ _ _ _ hlaunch loop rfl
  obtain ⟨-, l', hl', P, hP, hphrase, hpieces⟩ := hruns 20 m hM
  obtain ⟨-, hframed, hseats⟩ := hpieces .increment 19 m₁ _ hturns hpiece
  exact ⟨c, c', loop, l, m, m₁, _, P, _, hparse, hread 20 20 c _ c' hc rfl hparse, hlaunch, hM, hturns,
    hpiece, hframed, hseats, (hplaces l' hl' P hP hphrase).1 .increment _ rfl⟩

end ScriptLang
