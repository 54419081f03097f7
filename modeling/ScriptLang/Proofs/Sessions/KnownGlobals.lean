import ScriptLang.Proofs.Sessions.Readiness

/-!
# Reads that are let through as global

In the initializer of a local, a read of its name may be let through because there is a global of
that name (`Scoping.Place.LetsThrough`). However it comes to be evaluated, in its own run or in a later
one, the global is there: known names and present globals are kept together from run to run
(`Session.Launched.settled`), whether a run finishes or is stopped. The one exception is a read in the
initializer of a global that nothing before makes known. The name is known in this initializer, but as
long as it has not come to its end there is no global; so it is while it runs, and afterwards if it was
given up.

`let_through_read_finds_global` states this for every such read in every run of every session.
-/

namespace ScriptLang

open Scoping (Place)
open Relation (ReflTransGen)

/-! ## One run -/

/-- The next launch has no references of earlier ones. -/
theorem Provided.next {L : List Launch} {l : Launch} {s : Session} {m : Machine}
    {excuse : Launch → Place → String → Prop} {id : Nat} (hs : s.Bound L) (hl : l.Follows s)
    (h : Provided L m excuse id) : Provided (L ++ [l]) m excuse id := by
  obtain ⟨⟨l₀, hl₀, hid⟩, hfound⟩ := h
  refine ⟨⟨l₀, List.mem_append_left _ hl₀, hid⟩, fun l' hl' P ref hP hthrough heq => ?_⟩
  rcases List.mem_append.mp hl' with hl' | hl'
  · exact hfound l' hl' P ref hP hthrough heq
  · obtain rfl := List.mem_singleton.mp hl'
    have hnew := hl.fresh _ (hP.mem_ids hthrough.mem_ids)
    rw [heq] at hnew
    exact absurd (hs.spent l₀ hl₀ id hid) (Nat.not_lt.mpr hnew)

namespace Launch

variable {L : List Launch} {l : Launch} {s : Session}

section Run

variable (hs : s.Bound L) (hl : l.Follows s) (hm : Settled L s.machine)

include hs hl hm

/-- The program starts with the names of the globals that are there. -/
theorem ready_start : l.Ready L l.start.home (.start l.machine.globalNames) where
  closed := by
    have hmachine : (Realm.provided L l.machine (GaveUp L)).Closed l.machine := hl.machine ▸ hm
    have hnext := hmachine.mono (Realm.referring_le fun _ hid => hid.next hs hl)
    exact (hnext.learn l.bindings).home.provided (fun _ hx => hx) fun _ _ _ hx => .inr hx
  known _ hx := Machine.mem_globalNames.mp hx
  outside := rfl
  current := rfl

/-- The statements of the program settle, and then its trailing expression. -/
theorem settles_start {M : Moment} (hM : l.start.Starts l.fuel l.program M) :
    ∃ after, l.Settles L M after := by
  have hstatements := settles_topLevel hs hl (ready_start hs hl hm) Root.statements.places
    Machine.Starts.statements.runs
  cases hM with
  | statements => exact ⟨_, hstatements⟩
  | trailing htrailing hend =>
    exact ⟨_, settles_expression hs hl (hstatements.ends.of_ok hend)
      (Root.trailing htrailing).places _⟩

/-- Whether the run finishes or stops, the machine is settled again. -/
theorem settled_run : Settled (L ++ [l]) l.run.2 := by
  cases hend : Eval.program (.ofFuel l.fuel) l.program l.start with
  | error stop m' =>
    obtain ⟨M, hM, hstop⟩ := Machine.exists_start_of_stop hend
    obtain ⟨after, hsettles⟩ := settles_start hs hl hm hM
    have hsettled : Settled (L ++ [l]) m' := hsettles.ends.of_error hstop
    unfold run Machine.run
    rw [hend]
    cases stop <;> exact hsettled
  | ok value m' =>
    have hrun : l.run = (.finished value, m') := by
      unfold run Machine.run
      rw [hend]
    obtain ⟨m₁, hstatements, hfinish⟩ := Machine.run_finished hrun
    rw [hrun]
    unfold Machine.finish at hfinish
    cases htrailing : l.program.trailing with
    | none =>
      rw [htrailing] at hfinish
      cases hfinish
      obtain ⟨after, hsettles⟩ := settles_start hs hl hm .statements
      exact (hsettles.ends.of_ok hstatements).settled
    | some e =>
      rw [htrailing] at hfinish
      obtain ⟨v, he, -⟩ := Eval.map_eq_ok hfinish
      obtain ⟨after, hsettles⟩ := settles_start hs hl hm (.trailing htrailing hstatements)
      exact (hsettles.ends.of_ok he).settled

end Run

end Launch

/-! ## Sessions -/

namespace Session

variable {L : List Launch} {l : Launch} {s : Session}

/-- **Between runs, everything is settled.** -/
theorem Launched.settled (h : Launched L s) : Launch.Settled L s.machine := by
  induction h with
  | start maxDepth clock =>
    exact Realm.closed_start (fun _ => trivial) (fun _ => trivial) maxDepth clock
  | @takePrinted L s _ ih =>
    have hprinted : (Realm.provided L s.machine (Launch.GaveUp L)).Closed s.takePrinted.2.machine :=
      ih.congr rfl rfl rfl (Nat.le_refl _)
    exact hprinted.provided (fun _ hx => hx) fun _ _ _ hx => .inr hx
  | @run L s h fuel source mode ih =>
    cases hlaunch : s.launch? fuel source mode with
    | none =>
      obtain ⟨ds, hrun⟩ := run_of_no_launch hlaunch
      rw [hrun, Option.toList_none, List.append_nil]
      exact ih
    | some l =>
      rw [run_of_launch hlaunch]
      exact Launch.settled_run h.bound (follows_of_launch hlaunch) ih

theorem Launched.follows (h : Launched L s) (hl : l ∈ L) : ∃ s, l.Follows s := by
  induction h with
  | start => cases hl
  | takePrinted _ ih => exact ih hl
  | @run L s h fuel source mode ih =>
    rcases List.mem_append.mp hl with hl | hl
    · exact ih hl
    · exact ⟨s, follows_of_launch (Option.mem_toList.mp hl)⟩

end Session

/-! ## Look-ups -/

namespace Launch

variable {L : List Launch} {l l' : Launch} {s : Session} {P : Place} {ref : Ref}
variable {fuel : Nat} {source : String} {mode : Mode}

/-- A read that is let through is not bound. -/
theorem Places.hops?_of_letsThrough (hl : l.Follows s) (hP : l.Places P)
    (hthrough : P.LetsThrough ref) : l.bindings.hops? ref.id = none := by
  have hsound := hP.sound_of_follows hl
  obtain ⟨a, t, S, r⟩ := P
  obtain ⟨rfl, hinitializing, hnowhere, -⟩ := hthrough
  have hindex : r.index? ref 1 = none := by
    have hbind := hnowhere
    rw [Scoping.Resolution.bind?_eq, Option.map_eq_none_iff] at hbind
    exact hbind
  rw [hsound.seeks .variable, Scoping.Resolution.reads?, if_pos hinitializing, hindex]

/-- The references of a program are bound in a later run as they were resolved. -/
theorem Runs.hops?_of_mem {N : Moment} (hs : s.Bound L) (hlaunch : s.launch? fuel source mode = some l)
    (hN : l.Runs N) (hl' : l' ∈ L ++ [l]) {id : Nat} (hid : id ∈ l'.program.ids) :
    N.machine.bindings.hops? id = l'.bindings.hops? id := by
  have hbindings : N.machine.bindings = l.start.bindings := (Machine.Runs.leads hN).bindings
  rw [hbindings]
  rcases List.mem_append.mp hl' with hl' | hl'
  · rw [Session.hops?_of_launch hlaunch (hs.spent l' hl' id hid)]
    exact hs.kept l' hl' id hid
  · obtain rfl := List.mem_singleton.mp hl'
    exact hs.unspent.hops?_own hlaunch hid

end Launch

/-- A variable that is not bound is read if there is a global of its name. -/
theorem Eval.readVariable_of_global {ref : Ref} {m : Machine} (hbound : m.bindings.hops? ref.id = none)
    (hroot : m.frames.root m.globals = m.globals) (hx : m.HasGlobal ref.word.text) :
    ∃ v, Eval.readVariable ref m = .ok v m := by
  obtain ⟨v, hv⟩ := Option.isSome_iff_exists.mp hx
  refine ⟨v, ?_⟩
  unfold Eval.readVariable
  rw [hbound]
  dsimp only
  unfold Frames.getGlobal
  rw [hroot, hv]
  rfl

/-- **A read that is let through as global finds it.** In a session after any runs, whatever became of
them, and in the next run: Take a variable of one of the programs so far, this one included, that is
read in the initializer of a local of its name and is let through as a global. Whenever it is
evaluated it has a value, unless it is in the initializer of a global of its name that nothing
before makes known, and an earlier run gave up this initializer, or it runs right now, around the
evaluation. -/
theorem let_through_read_finds_global {L : List Launch} {s : Session} (hs : Session.Launched L s)
    {fuel : Nat} {source : String} {mode : Mode} {l : Launch}
    (hlaunch : s.launch? fuel source mode = some l) {l' : Launch} (hl' : l' ∈ L ++ [l]) {P : Place}
    (hP : l'.Places P) {ref : Ref} (hthrough : P.LetsThrough ref) {n : Nat} {m : Machine}
    (hN : l.Runs ⟨n, .expression (.variable ref), m⟩) :
    (∃ v, Eval.readVariable ref m = .ok v m) ∨ Launch.GaveUp L l' P ref.word.text ∨
      l.RunsAround ⟨n, .expression (.variable ref), m⟩ l' P ref.word.text := by
  have hl := Session.follows_of_launch hlaunch
  have hbound := hs.bound
  have hclosed : (Realm.ofLaunches (L ++ [l])).Closed m :=
    ((hbound.closed_start hl.machine fun _ hl' => List.mem_append_left _ hl').fits_run
      (Realm.admits_ofLaunches (by simp)) hN).closed
  have hunbound : m.bindings.hops? ref.id = none := by
    obtain ⟨s', hs'⟩ : ∃ s', l'.Follows s' := by
      rcases List.mem_append.mp hl' with hl' | hl'
      · exact hs.follows hl'
      · exact ⟨s, List.mem_singleton.mp hl' ▸ hl⟩
    rw [← hP.hops?_of_letsThrough hs' hthrough]
    exact Launch.Runs.hops?_of_mem hbound hlaunch hN hl' (hP.mem_ids hthrough.mem_ids)
  obtain ⟨M, hM, hpath⟩ := hN
  obtain ⟨after, hsettles⟩ := Launch.settles_start hbound hl hs.settled hM
  rcases hsettles.finds n ref m hpath l' hl' P hP hthrough with hx | hx
  · exact .inl (Eval.readVariable_of_global hunbound (hclosed.root_eq hclosed.globals_lt) hx)
  · exact .inr hx

/-- A global that a local of its name is initialized with. -/
theorem shadowed_global_is_found : ∃ l P ref n m,
    Session.start.launch? 20 "var a;{var a=a;a;}" .script = some l ∧ l.Places P ∧
      P.LetsThrough ref ∧ l.Runs ⟨n, .expression (.variable ref), m⟩ ∧
      Eval.readVariable ref m = .ok .nil m ∧
      ((∃ v, Eval.readVariable ref m = .ok v m) ∨ Launch.GaveUp [] l P ref.word.text ∨
        l.RunsAround ⟨n, .expression (.variable ref), m⟩ l P ref.word.text) := by
  let word : Lexeme := ⟨"a", 1⟩
  let ref : Ref := ⟨0, word⟩
  let inner : List Stmt := [.vars [⟨word, some (.variable ref)⟩], .expression (.variable ⟨1, word⟩)]
  let p : Program := ⟨[.vars [⟨word, none⟩], .block inner], none⟩
  let l : Launch := ⟨.start, (∅ : Bindings).bind 1 0, 20, p⟩
  let m : Machine := (l.start.home.defining "a" .nil).inBlock
  have hlaunch : Session.start.launch? 20 "var a;{var a=a;a;}" .script = some l := rfl
  obtain ⟨P, hP, hthrough⟩ : ∃ P, l.Places P ∧ P.LetsThrough ref := by
    have hP := (Launch.Root.statements (l := l)).places.visits .tail |>.visits .head |>.visits .block
      |>.visits .head |>.visits .declared |>.visits .initializer
    exact ⟨_, hP, rfl, rfl, rfl, by decide⟩
  have hN : l.Runs ⟨20, .expression (.variable ref), m⟩ := by
    have hstart : l.Runs ⟨20, .topLevel p.statements, l.start.home⟩ :=
      Machine.Starts.statements.runs
    have hdeclared : Eval.statement (.ofFuel 20) (.vars [⟨word, none⟩]) l.start.home =
        .ok .normal (l.start.home.defining "a" .nil) := rfl
    have hblock := (hstart.part (.topTail hdeclared)).part .topHead |>.part .block
    exact hblock.part .head |>.part .declared |>.part .initializer
  exact ⟨l, P, ref, 20, m, hlaunch, hP, hthrough, hN, rfl,
    let_through_read_finds_global (.start _ _) hlaunch (List.mem_singleton_self l) hP hthrough hN⟩

/-- A global that nothing before makes known is known in its own initializer, and is not there. -/
theorem new_global_is_missing_in_its_initializer : ∃ l P ref n m,
    Session.start.launch? 20 "var a=fun(){var a=a;a;}();" .script = some l ∧ l.Places P ∧
      P.LetsThrough ref ∧ l.Runs ⟨n, .expression (.variable ref), m⟩ ∧
      Eval.readVariable ref m = .error (.error (.at ref.word (.undefinedVariable "a"))) m := by
  let word : Lexeme := ⟨"a", 1⟩
  let ref : Ref := ⟨0, word⟩
  let body : List Stmt := [.vars [⟨word, some (.variable ref)⟩], .expression (.variable ⟨1, word⟩)]
  let callee : Expr := .function ⟨[], body⟩
  let p : Program := ⟨[.vars [⟨word, some (.call callee [] ⟨")", 1⟩)⟩]], none⟩
  let l : Launch := ⟨.start, (∅ : Bindings).bind 1 0, 20, p⟩
  have hlaunch : Session.start.launch? 20 "var a=fun(){var a=a;a;}();" .script = some l := rfl
  let f : Function := ⟨0, none, ⟨[], body⟩, 0, false⟩
  let m : Machine := { l.start.home with made := 1 }.deeper.inCall f []
  have hP := (Launch.Root.statements (l := l)).places.visits .head |>.visits .declared
    |>.visits .initializer |>.visits .callee |>.visits .function |>.visits .body |>.visits .head
    |>.visits .declared |>.visits .initializer
  have hN : l.Runs ⟨19, .expression (.variable ref), m⟩ := by
    have hstart : l.Runs ⟨20, .topLevel p.statements, l.start.home⟩ :=
      Machine.Starts.statements.runs
    have hcall := (hstart.part .topHead).part .declared |>.part .initializer
    have hcallee : Eval.expression (.ofFuel 20) callee l.start.home =
        .ok (.callable (.function f)) { l.start.home with made := 1 } := rfl
    have hbody := (hcall.part (.apply hcallee rfl rfl (by decide))).part .function |>.part .body
    exact hbody.part .head |>.part .declared |>.part .initializer
  exact ⟨l, _, ref, 19, m, hlaunch, hP, ⟨rfl, rfl, rfl, by decide⟩, hN, rfl⟩

end ScriptLang
