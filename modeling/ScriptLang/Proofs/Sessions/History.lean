import ScriptLang.Proofs.Sessions.Launches

/-!
# Histories of sessions

The launches of a session up to some point are its history. All of them together make a world
(`World.ofLaunches`): its places are those of all programs that were accepted, and its moments those
of all their runs. What holds between runs is `Session.Kept`: every place is sound for the
bindings learned so far, and the machine is good, but for the variables whose initializers
were given up in some run (`Aborted`).

The next launch keeps this up, and while it runs, every moment fits the world with it added
(`Kept.fits`). So it holds in every session that can be reached by runs (`Reached.kept`).
-/

namespace ScriptLang

open Scoping (Place Visits Phrase)
open Relation (ReflTransGen)

variable {L : List Launch} {l : Launch} {s : Session}

/-- The variables whose initializers were given up in one of the runs. -/
def Aborted (L : List Launch) : Pending := fun f x =>
  ∃ l ∈ L, ∃ N I, l.Runs N ∧ N.Initializes f x I ∧ ∃ e m', I.ending = .error (.error e) m'

theorem Aborted.append {f : FrameId} {x : String} (h : Aborted L f x) : Aborted (L ++ [l]) f x := by
  obtain ⟨l', hl', habort⟩ := h
  exact ⟨l', List.mem_append_left _ hl', habort⟩

/-- The variables whose initializers run around a moment of a launch. -/
def Launch.Running (l : Launch) (N : Moment) : Pending := fun f x =>
  ∃ N' I, l.Runs N' ∧ N'.Initializes f x I ∧ ReflTransGen Part I N

/-- The world of some launches. -/
def World.ofLaunches (L : List Launch) (table : Bindings) (globals : FrameId)
    (hroot : ∀ l ∈ L, ∀ P, l.Root P → P.Sound table) : World where
  table := table
  globals := globals
  placed P := ∃ l ∈ L, l.Places P
  happens N := ∃ l ∈ L, l.Runs N
  visits := by
    rintro P P' ⟨l, hl, hP⟩ hv
    exact ⟨l, hl, hP.visits hv⟩
  sound := by
    rintro P ⟨l, hl, hP⟩
    exact hP.sound (hroot l hl)
  nested := by
    rintro P ⟨l, hl, hP⟩
    exact hP.nested
  part := by
    rintro M N ⟨l, hl, hM⟩ hN
    exact ⟨l, hl, hM.part hN⟩

/-! ## Between runs -/

/-- What holds of a session after the launches `L`. -/
structure Session.Kept (L : List Launch) (s : Session) : Prop where
  sound : ∀ l ∈ L, ∀ P, l.Root P → P.Sound s.machine.bindings
  below : ∀ l ∈ L, ∀ id ∈ l.program.ids, id < s.nextRef
  unbound : ∀ id, s.nextRef ≤ id → s.machine.bindings.hops? id = none
  free : ∀ f x, Aborted L f x → IsFree x
  stands : (World.ofLaunches L s.machine.bindings s.machine.globals sound).Stands (Aborted L)
    s.machine

theorem Launch.Root.mem_ids {P : Place} (h : l.Root P) {id : Nat} (hid : id ∈ P.phrase.ids) :
    id ∈ l.program.ids := by
  cases h with
  | statements => exact List.mem_append_left _ hid
  | @trailing e he =>
    refine List.mem_append_right _ ?_
    rw [he]
    simpa using hid

namespace Session.Kept

variable (h : Session.Kept L s) (hl : l.Follows s)

include h hl

/-- The bindings of the next program do not touch those of earlier ones. -/
theorem sound_next : ∀ l' ∈ L ++ [l], ∀ P, l'.Root P → P.Sound l.start.bindings := by
  intro l' hl' P hP
  have hlookup (id : Nat) : l.start.bindings.hops? id =
      (l.bindings.hops? id).or (s.machine.bindings.hops? id) := by
    have hmerge := Bindings.hops?_merge l.machine.bindings l.bindings id
    rw [hl.machine] at hmerge
    unfold Launch.start
    rw [hl.machine]
    exact hmerge
  rcases List.mem_append.mp hl' with hl' | hl'
  · refine (h.sound l' hl' P hP).congr fun id hid => ?_
    have hbelow := h.below l' hl' id (hP.mem_ids hid)
    have hnew : id ∉ l.program.ids := fun hmem => by
      have := hl.fresh id hmem
      omega
    rw [hlookup, Program.unbound hl.accepted hnew, Option.none_or]
  · rw [List.mem_singleton] at hl'
    subst hl'
    refine (hP.sound hl.proper hl.accepted).congr fun id hid => ?_
    rw [hlookup, h.unbound id (hl.fresh id (hP.mem_ids hid)), Option.or_none]

/-- The world with the next launch. -/
def next : World :=
  .ofLaunches (L ++ [l]) l.start.bindings l.start.globals (h.sound_next hl)

theorem next_le :
    (World.ofLaunches L s.machine.bindings s.machine.globals h.sound).Le (h.next hl) where
  globals := by
    change l.machine.globals = _
    rw [hl.machine]
    rfl
  placed := by
    rintro P ⟨l', hl', hP⟩
    exact ⟨l', List.mem_append_left _ hl', hP⟩
  happens := by
    rintro N ⟨l', hl', hN⟩
    exact ⟨l', List.mem_append_left _ hl', hN⟩

theorem stands_home : (h.next hl).Stands (Aborted L) l.start.home := by
  refine h.stands.mono (h.next_le hl) (fun _ _ hp => hp) ?_ ?_ ?_ rfl
  all_goals
    unfold Launch.start
    rw [hl.machine]
    rfl

theorem fits_statements :
    (h.next hl).Fits (Aborted L) ⟨l.fuel, .topLevel l.program.statements, l.start.home⟩ := by
  have hmem : l ∈ L ++ [l] := by simp
  have hplaced : (h.next hl).placed l.statementsPlace := ⟨l, hmem, Launch.Root.statements.places⟩
  refine ⟨⟨l, hmem, Machine.Starts.statements.runs⟩, h.stands_home hl, l.statementsPlace, hplaced,
    rfl, ?_⟩
  exact rfl

/-- The first moments of a run fit. -/
theorem fits_start {M : Moment} (hM : l.start.Starts l.fuel l.program M) :
    (h.next hl).Fits (Aborted L) M := by
  have hmem : l ∈ L ++ [l] := by simp
  cases hM with
  | statements => exact h.fits_statements hl
  | @trailing e m₁ htrailing hstatements =>
    have hstands := ((h.next hl).preserves _ _ (h.fits_statements hl)).of_ok hstatements
    have hgrows := Eval.grows_of_topLevel hstatements
    have hwalk := Phrase.walk_grows {} (.statements l.program.statements)
      (.start l.machine.globalNames)
    have hscopes : l.statementsPlace.after.scopes = [] := hwalk.scopes.nil_iff.mpr rfl
    have hplaced : (h.next hl).placed ⟨{}, .expression e, [], l.statementsPlace.after⟩ :=
      ⟨l, hmem, (Launch.Root.trailing htrailing).places⟩
    refine ⟨⟨l, hmem, (Machine.Starts.trailing htrailing hstatements).runs⟩, hstands.1, _, hplaced,
      rfl, ?_⟩
    change (h.next hl).Lodged m₁.frames _ [] l.statementsPlace.after.scopes m₁.current
    rw [hscopes, hgrows.current]
    exact rfl

/-- **Every moment of the next run fits.** The variables that may be missing are those whose
initializers were given up before or are running. -/
theorem fits {N : Moment} (hN : l.Runs N) :
    (h.next hl).Fits (fun f x => Aborted L f x ∨ l.Running N f x) N := by
  obtain ⟨M, hM, hpath⟩ := hN
  refine ((h.fits_start hl hM).path hpath).more fun f x hp => ?_
  rcases hp with hp | ⟨N', I, hN', hinit, hI⟩
  · exact .inl hp
  · exact .inr ⟨N', I, ⟨M, hM, hN'⟩, hinit, hI⟩

theorem free_next {f : FrameId} {x : String} (hx : Aborted (L ++ [l]) f x) : IsFree x := by
  obtain ⟨l', hl', N, I, hN, hinit, hend⟩ := hx
  rcases List.mem_append.mp hl' with hl' | hl'
  · exact h.free f x ⟨l', hl', N, I, hN, hinit, hend⟩
  · rw [List.mem_singleton] at hl'
    subst hl'
    exact (h.fits hl hN).free hinit

/-- A run that ends leaves a good machine. -/
theorem stands_run (hdone : l.run.1 ≠ .unfinished) :
    (h.next hl).Stands (Aborted (L ++ [l])) l.run.2 := by
  have hmem : l ∈ L ++ [l] := by simp
  have hmore (f : FrameId) (x : String) (hp : Aborted L f x) := hp.append (l := l)
  cases hrun : l.run with
  | mk outcome m' =>
    rw [hrun] at hdone
    cases outcome with
    | rejected ds =>
      unfold Launch.run Machine.run at hrun
      split at hrun <;> cases hrun
    | unfinished => exact absurd rfl hdone
    | finished v =>
      obtain ⟨m₁, hstatements, hfinish⟩ := Machine.run_finished hrun
      have hstands := (((h.next hl).preserves _ _ (h.fits_statements hl)).of_ok hstatements).1
      unfold Machine.finish at hfinish
      cases htrailing : l.program.trailing with
      | none =>
        rw [htrailing] at hfinish
        cases hfinish
        exact hstands.more hmore
      | some e =>
        rw [htrailing] at hfinish
        obtain ⟨w, he, -⟩ := Eval.map_eq_ok hfinish
        have hstart := h.fits_start hl (.trailing htrailing hstatements)
        exact (((h.next hl).preserves _ _ hstart).of_ok he).1.more hmore
    | failed error =>
      obtain ⟨M, hM, hend⟩ := Machine.run_failed hrun
      have hstop : (h.next hl).Stops (Aborted L) m' M.Aborts (.error error) :=
        ((h.next hl).preserves _ _ (h.fits_start hl hM)).of_error hend
      refine World.Stands.more (fun f x hp => ?_) hstop
      rcases hp with hp | ⟨N, I, hN, hinit, hI⟩
      · exact hmore f x hp
      · exact ⟨l, hmem, N, I, ⟨M, hM, hN⟩, hinit, hI⟩

/-- The value of the trailing expression is good. -/
theorem good_run {v : Value} (hv : l.run.1 = .finished (some v)) :
    (h.next hl).Good l.run.2.frames (Aborted (L ++ [l])) v := by
  cases hrun : l.run with
  | mk outcome m' =>
    rw [hrun] at hv
    cases hv
    obtain ⟨m₁, hstatements, hfinish⟩ := Machine.run_finished hrun
    unfold Machine.finish at hfinish
    cases htrailing : l.program.trailing with
    | none =>
      rw [htrailing] at hfinish
      cases hfinish
    | some e =>
      rw [htrailing] at hfinish
      obtain ⟨w, he, hw⟩ := Eval.map_eq_ok hfinish
      cases hw
      have hstart := h.fits_start hl (.trailing htrailing hstatements)
      have hgood := (((h.next hl).preserves _ _ hstart).of_ok he).2
      exact World.Good.more (fun f x hp => hp.append) hgood

/-- What holds between runs holds after the next run. -/
theorem after (hdone : l.run.1 ≠ .unfinished) {nextRef : Nat} (hle : s.nextRef ≤ nextRef)
    (hbelow : ∀ id ∈ l.program.ids, id < nextRef) :
    Session.Kept (L ++ [l]) ⟨l.run.2, nextRef⟩ := by
  have hgrows := l.start.home_grows_run l.fuel l.program
  have hbindings : l.run.2.bindings = l.start.bindings := hgrows.bindings
  have hglobals : l.run.2.globals = l.start.globals := hgrows.globals
  have hsound : ∀ l' ∈ L ++ [l], ∀ P, l'.Root P → P.Sound l.run.2.bindings := by
    rw [hbindings]
    exact h.sound_next hl
  refine ⟨hsound, fun l' hl' id hid => ?_, fun id hid => ?_, fun f x hx => h.free_next hl hx, ?_⟩
  · rcases List.mem_append.mp hl' with hl' | hl'
    · exact Nat.lt_of_lt_of_le (h.below l' hl' id hid) hle
    · rw [List.mem_singleton] at hl'
      subst hl'
      exact hbelow id hid
  · have hnew : id ∉ l.program.ids := fun hmem => Nat.not_lt.mpr hid (hbelow id hmem)
    change l.run.2.bindings.hops? id = none
    have hold : s.machine.bindings.hops? id = none := h.unbound id (Nat.le_trans hle hid)
    rw [hbindings]
    unfold Launch.start
    rw [hl.machine]
    have hmerge := Bindings.hops?_merge s.machine.bindings l.bindings id
    rw [Program.unbound hl.accepted hnew, hold] at hmerge
    exact hmerge
  · have hsame : (h.next hl).Le
        (.ofLaunches (L ++ [l]) l.run.2.bindings l.run.2.globals hsound) :=
      ⟨hglobals, fun _ hP => hP, fun _ hN => hN⟩
    exact (h.stands_run hl hdone).mono hsame (fun _ _ hp => hp) rfl rfl rfl rfl

end Session.Kept

/-! ## Sessions that can be reached -/

namespace Session

variable {fuel : Nat} {source : String} {mode : Mode}

theorem parse_machine (s : Session) (source : String) (mode : Mode) :
    (s.parse source mode).2.machine = s.machine := rfl

/-- A program that is accepted was read from the tokens of the source. -/
theorem result_of_parse {p : Program} (h : (s.parse source mode).1 = .ok p) :
    (Program.parse (Source.tokens source) mode s.nextRef).result = .ok p := by
  unfold parse at h
  dsimp only at h
  split at h
  · exact h
  · cases h
  · cases h

theorem run_of_parse_error {ds : List Diagnostic} (h : (s.parse source mode).1 = .error ds) :
    s.run fuel source mode = (.rejected ds, (s.parse source mode).2) := by
  have hparse : s.parse source mode = (.error ds, (s.parse source mode).2) := Prod.ext h rfl
  unfold run
  rw [hparse]

theorem run_of_parse_ok {p : Program} (h : (s.parse source mode).1 = .ok p) :
    s.run fuel source mode = (s.parse source mode).2.runProgram fuel p := by
  have hparse : s.parse source mode = (.ok p, (s.parse source mode).2) := Prod.ext h rfl
  unfold run
  rw [hparse]

theorem runProgram_of_error {p : Program} {ds : List Diagnostic}
    (h : p.resolve s.machine.globalNames = .error ds) :
    s.runProgram fuel p = (.rejected ds, s) := by
  unfold runProgram
  rw [h]

theorem runProgram_of_ok {p : Program} {bindings : Bindings}
    (h : p.resolve s.machine.globalNames = .ok bindings) :
    s.runProgram fuel p = (((s.machine.learn bindings).run fuel p).1,
      ⟨((s.machine.learn bindings).run fuel p).2, s.nextRef⟩) := by
  unfold runProgram
  rw [h]

/-- What the session runs for a source text, if it is accepted. -/
def launch? (s : Session) (fuel : Nat) (source : String) (mode : Mode) : Option Launch :=
  match (s.parse source mode).1 with
  | .error _ => none
  | .ok p =>
    match p.resolve s.machine.globalNames with
    | .error _ => none
    | .ok bindings => some ⟨s.machine, bindings, fuel, p⟩

/-- A text is launched if the parser and the resolver accept it. -/
theorem launch?_eq_some : s.launch? fuel source mode = some l ↔
    ∃ p bindings, (s.parse source mode).1 = .ok p ∧
      p.resolve s.machine.globalNames = .ok bindings ∧ ⟨s.machine, bindings, fuel, p⟩ = l := by
  unfold launch?
  cases (s.parse source mode).1 with
  | error ds => simp
  | ok p =>
    dsimp only
    cases hresolve : p.resolve s.machine.globalNames with
    | error ds => simp [hresolve]
    | ok bindings => simp [hresolve]

theorem launch?_eq_none : s.launch? fuel source mode = none ↔
    (∃ ds, (s.parse source mode).1 = .error ds) ∨
      ∃ p ds, (s.parse source mode).1 = .ok p ∧ p.resolve s.machine.globalNames = .error ds := by
  unfold launch?
  cases (s.parse source mode).1 with
  | error ds => simp
  | ok p =>
    dsimp only
    cases hresolve : p.resolve s.machine.globalNames with
    | error ds => simp [hresolve]
    | ok bindings => simp [hresolve]

theorem run_of_launch (h : s.launch? fuel source mode = some l) :
    s.run fuel source mode = (l.run.1, ⟨l.run.2, (s.parse source mode).2.nextRef⟩) := by
  obtain ⟨p, bindings, hparse, hresolve, rfl⟩ := launch?_eq_some.mp h
  rw [run_of_parse_ok hparse]
  exact runProgram_of_ok hresolve

theorem fuel_of_launch (h : s.launch? fuel source mode = some l) : l.fuel = fuel := by
  obtain ⟨p, bindings, -, -, rfl⟩ := launch?_eq_some.mp h
  rfl

theorem run_of_no_launch (h : s.launch? fuel source mode = none) :
    ∃ ds, s.run fuel source mode = (.rejected ds, (s.parse source mode).2) := by
  rcases launch?_eq_none.mp h with ⟨ds, hparse⟩ | ⟨p, ds, hparse, hresolve⟩
  · exact ⟨ds, run_of_parse_error hparse⟩
  · exact ⟨ds, (run_of_parse_ok hparse).trans (runProgram_of_error hresolve)⟩

/-- What is parsed is proper, and its numbers come after those of earlier programs. -/
theorem parse_fresh (s : Session) (source : String) (mode : Mode) :
    s.nextRef ≤ (s.parse source mode).2.nextRef ∧ ∀ p, (s.parse source mode).1 = .ok p →
      Grammar.FreshProgram s.nextRef (s.parse source mode).2.nextRef p := by
  obtain ⟨hle, hfresh⟩ := Program.parse_fresh source mode s.nextRef
  exact ⟨hle, fun p hp => hfresh p (result_of_parse hp)⟩

theorem fresh_of_launch (h : s.launch? fuel source mode = some l) :
    Grammar.FreshProgram s.nextRef (s.parse source mode).2.nextRef l.program := by
  obtain ⟨p, bindings, hparse, -, rfl⟩ := launch?_eq_some.mp h
  exact (s.parse_fresh source mode).2 p hparse

/-- What a session makes of a source text follows it. -/
theorem follows_of_launch (h : s.launch? fuel source mode = some l) : l.Follows s := by
  have hfresh := fresh_of_launch h
  obtain ⟨p, bindings, -, hresolve, rfl⟩ := launch?_eq_some.mp h
  exact ⟨rfl, hresolve, hfresh.proper, fun id hid => (hfresh.numbered.bounds id hid).1⟩

/-- The sessions that can be reached from a new one by runs that end, and the launches of these
runs. -/
inductive Reached : List Launch → Session → Prop
  | start (maxDepth : Nat) (clock : Nat → Float) : Reached [] (.start maxDepth clock)
  | run {L : List Launch} {s : Session} (h : Reached L s) (fuel : Nat) (source : String) (mode : Mode)
    (hdone : (s.run fuel source mode).1 ≠ .unfinished) :
    Reached (L ++ (s.launch? fuel source mode).toList) (s.run fuel source mode).2
  | takePrinted {L : List Launch} {s : Session} (h : Reached L s) : Reached L s.takePrinted.2

/-- The only values of a new machine are the native functions. -/
theorem here?_start {maxDepth : Nat} {clock : Nat → Float} {f : FrameId} {x : String} {v : Value}
    (h : (Machine.start maxDepth clock).frames.here? f x = some v) :
    x = "clock" ∧ v = .callable (.native .clock) := by
  have hframes : (Machine.start maxDepth clock).frames =
      (Frames.empty.push none).define 0 "clock" (.callable (.native .clock)) := rfl
  rw [hframes, Frames.here?_define] at h
  split at h
  · rename_i hc
    cases h
    exact ⟨hc.2.1, rfl⟩
  · rw [Frames.here?_push] at h
    cases h

theorem kept_start (maxDepth : Nat) (clock : Nat → Float) :
    Kept [] (.start maxDepth clock) := by
  refine ⟨nofun, nofun, fun id _ => ?_, ?_, ?_⟩
  · change (∅ : Bindings).hops? id = none
    simp [Bindings.hops?]
  · rintro f x ⟨l, hl, -⟩
    cases hl
  · refine ⟨fun f x v hv => ?_, fun i slots hi => ?_, fun f v hv => ?_,
      fun f x v _ hv hx => ?_, rfl, ?_, rfl⟩
    · obtain ⟨-, rfl⟩ := here?_start hv
      exact trivial
    · have hnone : (#[] : Array (Slots Value))[i]? = some slots := hi
      simp at hnone
    · obtain ⟨hname, -⟩ := here?_start hv
      exact absurd hname (by decide)
    · obtain ⟨rfl, -⟩ := here?_start hv
      exact absurd rfl hx
    · exact Nat.zero_lt_one

theorem Kept.takePrinted (h : Kept L s) : Kept L s.takePrinted.2 :=
  ⟨h.sound, h.below, h.unbound, h.free, h.stands.congr rfl rfl rfl rfl⟩

theorem Kept.run (h : Kept L s) (hdone : (s.run fuel source mode).1 ≠ .unfinished) :
    Kept (L ++ (s.launch? fuel source mode).toList) (s.run fuel source mode).2 := by
  obtain ⟨hle, -⟩ := s.parse_fresh source mode
  cases hlaunch : s.launch? fuel source mode with
  | none =>
    obtain ⟨ds, hrun⟩ := run_of_no_launch hlaunch
    rw [hrun, Option.toList_none, List.append_nil]
    exact ⟨h.sound, fun l hl id hid => Nat.lt_of_lt_of_le (h.below l hl id hid) hle,
      fun id hid => h.unbound id (Nat.le_trans hle hid), h.free, h.stands⟩
  | some l =>
    have hrun := run_of_launch hlaunch
    rw [hrun] at hdone ⊢
    have hnumbered := (fresh_of_launch hlaunch).numbered
    exact h.after (follows_of_launch hlaunch) hdone hle fun id hid =>
      (hnumbered.bounds id hid).2

/-- **Scopes and frames agree in every session that can be reached.** -/
theorem Reached.kept (h : Reached L s) : Kept L s := by
  induction h with
  | start maxDepth clock => exact kept_start maxDepth clock
  | takePrinted _ ih => exact ih.takePrinted
  | run _ _ _ _ hdone ih => exact ih.run hdone

end Session

end ScriptLang
