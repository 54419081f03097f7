import ScriptLang.Proofs.Evaluation.Fuel
import ScriptLang.Proofs.Evaluation.Rebinding
import ScriptLang.Proofs.Scoping.Joining
import ScriptLang.Proofs.Sessions.History

/-!
# One run or two

Running statements and then more of them in the same session is the same as running all of them
at once. The names that the first ones declare are global when the second ones are resolved
(`globalNames_of_finished`), so these get the same bindings (`Program.resolve_append`). And the
first ones do not notice the bindings of the second ones, since no reference of theirs has a number
of those (`Kept.agrees`, `Moment.blind_of_agrees`).

`run_append` puts this together.
-/

namespace ScriptLang

open Scoping (Place Phrase)
open Relation (ReflTransGen)

variable {L : List Launch} {l : Launch} {s s₁ : Session} {P Q : List Stmt}

/-! ## Statements of programs -/

/-- The statement was made by the parser: it stands in a program that was parsed from some text. -/
def Stmt.Parsed (stmt : Stmt) : Prop :=
  ∃ source mode nextRef p, (Program.parse (Source.tokens source) mode nextRef).result = .ok p ∧
    stmt ∈ p.statements

theorem Stmt.Parsed.wellFormed {stmt : Stmt} (h : stmt.Parsed) : stmt.WellFormed := by
  obtain ⟨source, mode, nextRef, p, hparse, hmem⟩ := h
  have hproper := ((Program.parse_fresh source mode nextRef).2 p hparse).proper
  exact Stmt.allWellFormed_iff.mp hproper.statements stmt hmem

theorem Scoping.Phrase.ids_append (P Q : List Stmt) :
    (Phrase.statements (P ++ Q)).ids = (Phrase.statements P).ids ++ (Phrase.statements Q).ids := by
  induction P with
  | nil => rfl
  | cons stmt rest ih => simp [ih]

theorem Program.ids_statements (P : List Stmt) :
    Program.ids ⟨P, none⟩ = (Phrase.statements P).ids := List.append_nil _

/-! ## Runs of statements -/

theorem Eval.topLevel_append (limits : Eval.Limits) (P Q : List Stmt) :
    Eval.topLevel limits (P ++ Q) =
      (Eval.topLevel limits P >>= fun _ => Eval.topLevel limits Q) := by
  induction P with
  | nil => rfl
  | cons stmt rest ih =>
    rw [List.cons_append, topLevel, topLevel, bind_assoc, ih]

/-- More statements are run on the machine that the first ones leave. -/
theorem Machine.run_append {m m₁ : Machine} {fuel : Nat}
    (hP : Eval.topLevel (.ofFuel fuel) P m.home = .ok () m₁) (hhome : m₁.home = m₁) :
    m.run fuel ⟨P ++ Q, none⟩ = m₁.run fuel ⟨Q, none⟩ := by
  unfold run
  rw [program_eq, program_eq, hhome]
  dsimp only
  rw [Eval.topLevel_append, bind_assoc, Eval.bind_of_ok hP]
  rfl

/-- A run of statements that comes to its end. -/
theorem Machine.run_finished_statements {m m₁ : Machine} {fuel : Nat} {v : Option Value}
    (h : m.run fuel ⟨P, none⟩ = (.finished v, m₁)) :
    Eval.topLevel (.ofFuel fuel) P m.home = .ok () m₁ := by
  obtain ⟨m₂, hP, hfinish⟩ := run_finished h
  cases hfinish
  exact hP

/-- A program that runs to its end does so with the bindings that it gets. -/
theorem Session.runProgram_finished {fuel : Nat} {p : Program} {b : Bindings} {v : Option Value}
    (haccepted : p.resolve s.machine.globalNames = .ok b)
    (h : s.runProgram fuel p = (.finished v, s₁)) :
    (s.machine.learn b).run fuel p = (.finished v, s₁.machine) ∧ s₁.nextRef = s.nextRef := by
  rw [runProgram_of_ok haccepted] at h
  obtain ⟨houtcome, hsession⟩ := Prod.mk.inj h
  cases hsession
  exact ⟨Prod.ext houtcome rfl, rfl⟩

/-- After a run that comes to its end, the global names are those before and those that the
statements declare. -/
theorem globalNames_of_finished {m m₁ : Machine} {fuel : Nat} (hP : Stmt.AllWellFormed P)
    (hglobals : m.globals < m.frames.count)
    (h : Eval.topLevel (.ofFuel fuel) P m.home = .ok () m₁) (x : String) :
    x ∈ m₁.globalNames ↔ x ∈ m.globalNames ∨ x ∈ P.flatMap Stmt.declares := by
  have hgrows := Eval.grows_of_topLevel h
  have hcurrent : m₁.current = m.globals := hgrows.current
  have hsame : m₁.globals = m.globals := hgrows.globals
  unfold Machine.globalNames
  rw [hsame, Frames.mem_names_iff, Frames.mem_names_iff]
  constructor
  · intro hx
    exact (hgrows.frames.new m.globals x hglobals hx).imp_right fun hnew => hnew.2
  · rintro (hx | hx)
    · exact hgrows.frames.kept _ _ hx
    · have hdefined := Eval.defines_topLevel hP h hglobals x hx
      rwa [hcurrent] at hdefined

/-! ## Other bindings -/

namespace Session.Kept

variable (h : Session.Kept L s) (hl : l.Follows s)

include h hl

/-- All places are sound for a table that has the same entries for all programs. -/
theorem sound_of_same {table : Bindings} {P : Place} (hP : (h.next hl).placed P)
    (hsame : ∀ l' ∈ L ++ [l], ∀ id ∈ l'.program.ids,
      table.hops? id = l.start.bindings.hops? id) : P.Sound table := by
  obtain ⟨l', hl', hplaces⟩ := hP
  refine hplaces.sound fun Q hQ => ?_
  exact (h.sound_next hl l' hl' Q hQ).congr fun id hid => hsame l' hl' id (hQ.mem_ids hid)

/-- Bindings of references that have other numbers make no difference for any look-up. -/
theorem agrees {more : Bindings} {N : Moment} (hN : l.Runs N)
    (hmore : ∀ id, id < s.nextRef ∨ id ∈ l.program.ids → more.hops? id = none) :
    N.Agrees (l.start.bindings.merge more) := by
  intro ref m hlookup
  obtain ⟨P, hP, -, hmentions, -, hbindings⟩ := (h.fits hl hN).lookup hlookup
  have hsound : P.Sound (l.start.bindings.merge more) := by
    refine h.sound_of_same hl hP fun l' hl' id hid => ?_
    have hnone : more.hops? id = none := by
      rcases List.mem_append.mp hl' with hl' | hl'
      · exact hmore id (.inl (h.below l' hl' id hid))
      · rw [List.mem_singleton] at hl'
        exact hmore id (.inr (hl' ▸ hid))
    have hmerge := Bindings.hops?_merge l.start.bindings more id
    rwa [hnone, Option.none_or] at hmerge
  have hid := hmentions.mem_ids
  rw [hsound.agrees _ hid, hbindings]
  exact (((h.next hl).sound hP).agrees _ hid).symm

/-- The statements of the next program run in the same way if more bindings are known. -/
theorem topLevel_learn {more : Bindings} {m₁ : Machine}
    (hmore : ∀ id, id < s.nextRef ∨ id ∈ l.program.ids → more.hops? id = none)
    (hend : Eval.topLevel (.ofFuel l.fuel) l.program.statements l.start.home = .ok () m₁) :
    Eval.topLevel (.ofFuel l.fuel) l.program.statements (l.start.learn more).home =
      .ok () (m₁.learn more) := by
  have hblind : Moment.Blind (l.start.bindings.merge more)
      ⟨l.fuel, .topLevel l.program.statements, l.start.home⟩ := by
    refine Moment.blind_of_agrees _ fun N hN => ?_
    exact h.agrees hl ⟨_, Machine.Starts.statements, hN⟩ hmore
  have hbindings : m₁.bindings = l.start.bindings := (Eval.grows_of_topLevel hend).bindings
  have hrebind : Eval.topLevel (.ofFuel l.fuel) l.program.statements (l.start.learn more).home =
      .ok () (m₁.rebind (l.start.bindings.merge more)) :=
    hblind.trans (congrArg (Eval.rebound _) hend)
  rw [hrebind, ← hbindings]
  rfl

/-- More statements run at once as they do after those of the next program. -/
theorem run_append (hprogram : l.program = ⟨P, none⟩) {more : Bindings} {m₁ : Machine}
    (hmore : ∀ id, id < s.nextRef ∨ id ∈ l.program.ids → more.hops? id = none)
    (hend : Eval.topLevel (.ofFuel l.fuel) P l.start.home = .ok () m₁) :
    (s.machine.learn (l.bindings.merge more)).run l.fuel ⟨P ++ Q, none⟩ =
      (m₁.learn more).run l.fuel ⟨Q, none⟩ := by
  have hstatements : l.program.statements = P := congrArg Program.statements hprogram
  have hlearn : l.start.learn more = s.machine.learn (l.bindings.merge more) := by
    unfold Launch.start
    rw [hl.machine]
    exact congrArg s.machine.rebind (Bindings.merge_assoc ..)
  have hhome : (m₁.learn more).home = m₁.learn more :=
    congrArg (Machine.learn · more) (Eval.grows_of_topLevel hend).home_eq
  rw [← hstatements] at hend
  have hmerged := h.topLevel_learn hl hmore hend
  rw [hlearn, hstatements] at hmerged
  exact Machine.run_append hmerged hhome

end Session.Kept

/-! ## Joining -/

/-- **Running statements at once or one after the other.** In a session that was reached by earlier
runs, let `P` and `Q` be statements that the parser made, with a new number for each reference. If
`P` is accepted and runs to its end, then the global names are those before and those that `P`
declares; `P ++ Q` is accepted if and only if `Q` is accepted after `P`, with the same faults if not
and the bindings of both if so; and running `P ++ Q` ends in the same way and leaves the same session
as running `Q` after `P`. -/
theorem run_append_eq (hs : Session.Reached L s) (hparsed : ∀ stmt ∈ P ++ Q, stmt.Parsed)
    (hdistinct : (Phrase.statements (P ++ Q)).ids.Nodup)
    (hfresh : ∀ id ∈ (Phrase.statements (P ++ Q)).ids, s.nextRef ≤ id) {bP : Bindings}
    (haccepted : Program.resolve ⟨P, none⟩ s.machine.globalNames = .ok bP) {fuel : Nat}
    {v : Option Value} (hrun : s.runProgram fuel ⟨P, none⟩ = (.finished v, s₁)) :
    (∀ x, x ∈ s₁.machine.globalNames ↔
      x ∈ s.machine.globalNames ∨ x ∈ P.flatMap Stmt.declares) ∧
    Program.resolve ⟨P ++ Q, none⟩ s.machine.globalNames =
      (Program.resolve ⟨Q, none⟩ s₁.machine.globalNames).map (fun bQ => bP.merge bQ) ∧
    ∀ bQ, Program.resolve ⟨Q, none⟩ s₁.machine.globalNames = .ok bQ → ∀ fuel' ≥ fuel,
      s.runProgram fuel' ⟨P ++ Q, none⟩ = s₁.runProgram fuel' ⟨Q, none⟩ := by
  rw [Phrase.ids_append] at hdistinct hfresh
  obtain ⟨hidsP, -, hdisjoint⟩ := List.nodup_append'.mp hdistinct
  have hwfP : Stmt.AllWellFormed P := Stmt.allWellFormed_iff.mpr fun stmt hstmt =>
    (hparsed stmt (List.mem_append_left Q hstmt)).wellFormed
  have hproper : Program.Proper ⟨P, none⟩ := ⟨by rwa [Program.ids_statements], hwfP, trivial⟩
  obtain ⟨hrunP, hnextRef⟩ := Session.runProgram_finished haccepted hrun
  have hP := Machine.run_finished_statements hrunP
  have hglobals : (s.machine.learn bP).globals < (s.machine.learn bP).frames.count := by
    have hlt := hs.kept.stands.globals_lt
    exact hlt
  have hnames := globalNames_of_finished hwfP hglobals hP
  refine ⟨hnames, Program.resolve_append haccepted hnames, fun bQ hQ fuel' hfuel => ?_⟩
  have hrunP' : (s.machine.learn bP).run fuel' ⟨P, none⟩ = (.finished v, s₁.machine) := by
    rw [Machine.run_of_le hfuel (by rw [hrunP]; exact nofun), hrunP]
  have hl : Launch.Follows ⟨s.machine, bP, fuel', ⟨P, none⟩⟩ s := by
    refine ⟨rfl, haccepted, hproper, fun id hid => ?_⟩
    rw [Program.ids_statements] at hid
    exact hfresh id (List.mem_append_left _ hid)
  -- no reference of `P` or of an earlier program has a number of `Q`
  have hmore (id : Nat) (hid : id < s.nextRef ∨ id ∈ Program.ids ⟨P, none⟩) :
      bQ.hops? id = none := by
    refine Program.unbound hQ fun hidQ => ?_
    rw [Program.ids_statements] at hid hidQ
    rcases hid with hid | hid
    · exact absurd (hfresh id (List.mem_append_right _ hidQ)) (Nat.not_le.mpr hid)
    · exact hdisjoint hid hidQ
  have hend := (Machine.run_finished_statements hrunP')
  have hsame := hs.kept.run_append hl (Q := Q) rfl hmore hend
  unfold Session.runProgram
  rw [Program.resolve_append haccepted hnames, hQ, hnextRef]
  dsimp only [Except.map]
  rw [hsame]

/-- A declaration, and a statement that reads the variable. -/
theorem declaration_then_print : ∃ P Q bP bQ s₁,
    Program.resolve ⟨P, none⟩ Session.start.machine.globalNames = .ok bP ∧
      Session.start.runProgram 1 ⟨P, none⟩ = (.finished none, s₁) ∧
      Program.resolve ⟨Q, none⟩ s₁.machine.globalNames = .ok bQ ∧
      Session.start.runProgram 1 ⟨P ++ Q, none⟩ = s₁.runProgram 1 ⟨Q, none⟩ := by
  let declaration : Stmt := .vars [⟨⟨"a", 1⟩, none⟩]
  let print : Stmt := .print (.variable ⟨0, ⟨"a", 1⟩⟩)
  have hparse : (Program.parse (Source.tokens "var a;print a;") .script 0).result =
    .ok ⟨[declaration, print], none⟩ := rfl
  have hparsed (stmt : Stmt) (h : stmt ∈ [declaration] ++ [print]) : stmt.Parsed :=
    ⟨_, _, _, _, hparse, h⟩
  have hP : Program.resolve ⟨[declaration], none⟩ Session.start.machine.globalNames = .ok ∅ := rfl
  have hrun : Session.start.runProgram 1 ⟨[declaration], none⟩ =
    (.finished none, (Session.start.runProgram 1 ⟨[declaration], none⟩).2) := rfl
  have hQ : Program.resolve ⟨[print], none⟩
    (Session.start.runProgram 1 ⟨[declaration], none⟩).2.machine.globalNames = .ok ∅ := rfl
  obtain ⟨-, -, hsame⟩ :=
    run_append_eq (.start _ _) hparsed (by decide) (by decide) hP hrun
  exact ⟨_, _, _, _, _, hP, hrun, hQ, hsame _ hQ 1 (Nat.le_refl 1)⟩

end ScriptLang
