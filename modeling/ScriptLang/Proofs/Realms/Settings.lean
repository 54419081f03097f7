import ScriptLang.Proofs.Realms.Fields

/-!
# What was set last

The fields that are set in the course of a moment are listed in turn (`Moment.settings`), those that
its parts set included. At the end of the moment each field has the value that it was set to last, or
if it was not set, the one that it had (`Moment.records`). The same holds in the middle of the course,
for what was set by then (`Moment.Meets.field?_machine`), and for runs of programs
(`Realm.Closed.field?_run`, `Realm.Closed.field?_meets`).
-/

namespace ScriptLang

open Relation (ReflTransGen)

/-! ## The fields that are set -/

/-- The fields that are set in the course of a moment, in turn. -/
def Moment.settings (M : Moment) : List Setting :=
  M.course.attach.flatMap fun s =>
    match s with
    | ⟨.part N, _⟩ => N.settings
    | ⟨.set w, _⟩ => [w]
termination_by M.measure
decreasing_by exact (Moment.part_mem_course_iff.mp ‹_›).measure_lt

/-- The fields that are set in one step. -/
def Step.settings : Step → List Setting
  | part N => N.settings
  | set w => [w]

theorem Moment.settings_eq (M : Moment) : M.settings = M.course.flatMap Step.settings := by
  rw [settings, List.flatMap_subtype (g := Step.settings), List.unattach_attach]
  rintro (N | w) hs <;> rfl

/-- At the end of a moment, the fields that were set in its course have the values that they were set
to last, and all others the values that they had. -/
def Moment.Records (M : Moment) : Prop := ∀ i name,
  M.final.field? i name = (lastSet? M.settings i name).or (M.machine.field? i name)

theorem Through.field? {m m' : Machine} {steps : List Step} (h : Through m steps m')
    (hparts : ∀ N, .part N ∈ steps → N.Records) (i : Instance) (name : String) :
    m'.field? i name = (lastSet? (steps.flatMap Step.settings) i name).or (m.field? i name) := by
  induction h with
  | done h => exact h.field? i name
  | @step m m₁ m₂ m' s steps h hstep hrest ih =>
    have hone : m₂.field? i name = (lastSet? s.settings i name).or (m₁.field? i name) := by
      cases hstep with
      | part N => exact hparts N List.mem_cons_self i name
      | set hw => exact Machine.field?_setting hw i name
    rw [ih fun N hN => hparts N (List.mem_cons_of_mem s hN), hone, h.field?, List.flatMap_cons,
      lastSet?_append, Option.or_assoc]

/-- **Fields have the values that they were set to last.** -/
theorem Moment.records {R : Realm} (M : Moment) (h : R.Fits M) : M.Records := by
  induction M using Moment.induction with
  | _ M ih =>
    intro i name
    rw [settings_eq]
    refine (through_course h).field? (fun N hN => ?_) i name
    have hpart := part_mem_course_iff.mp hN
    exact ih N hpart (h.inside hpart)

/-! ## In the middle of a course -/

/-- In the course of the first moment, the second one is met after the fields in the list were set. -/
inductive Moment.Meets : Moment → List Setting → Moment → Prop
  | here {M} : Meets M [] M
  | inside {M N K before rest ws} (h : M.course = before ++ .part N :: rest) (hK : Meets N ws K) :
    Meets M (before.flatMap Step.settings ++ ws) K

namespace Moment.Meets

variable {M N K : Moment} {ws : List Setting}

theorem part (h : M.Meets ws N) : ReflTransGen Part M N := by
  induction h with
  | here => exact .refl
  | inside h _ ih =>
    refine .head (part_mem_course_iff.mp ?_) ih
    rw [h]
    exact List.mem_append_right _ List.mem_cons_self

end Moment.Meets

/-- Whatever is evaluated in the course of a moment is met there. -/
theorem Moment.exists_meets {M N : Moment} (h : ReflTransGen Part M N) : ∃ ws, M.Meets ws N := by
  induction h using ReflTransGen.head_induction_on with
  | refl => exact ⟨[], .here⟩
  | head hM _ ih =>
    obtain ⟨before, rest, hcourse⟩ := List.append_of_mem hM.mem_course
    obtain ⟨ws, hK⟩ := ih
    exact ⟨_, .inside hcourse hK⟩

/-- When a moment is met, too, fields have the values that they were set to last. -/
theorem Moment.Meets.field?_machine {R : Realm} {M N : Moment} {ws : List Setting}
    (h : M.Meets ws N) (hM : R.Fits M) (i : Instance) (name : String) :
    N.machine.field? i name = (lastSet? ws i name).or (M.machine.field? i name) := by
  induction h with
  | here => rfl
  | @inside M N K before rest ws hcourse _ ih =>
    have hpart {A : Moment} (hA : .part A ∈ M.course) : R.Fits A :=
      hM.inside (part_mem_course_iff.mp hA)
    have hthrough := through_course hM
    have hbefore {A : Moment} (hA : .part A ∈ before) : A.Records := by
      refine A.records (hpart ?_)
      rw [hcourse]
      exact List.mem_append_left _ hA
    have hN : R.Fits N := hpart (by rw [hcourse]; simp)
    rw [hcourse] at hthrough
    rw [ih hN, hthrough.machine.field? fun A hA => hbefore hA, lastSet?_append, Option.or_assoc]

/-! ## Runs -/

namespace Machine

variable (m : Machine) (fuel : Nat) (p : Program)

/-- What happens when a program is run: its statements are run, and then its trailing expression is
evaluated. -/
def course : List Step :=
  Moment.followedBy ⟨fuel, .topLevel p.statements, m.home⟩ fun _ m₁ =>
    match p.trailing with
    | some e => [.part ⟨fuel, .expression e, m₁⟩]
    | none => []

/-- The fields that are set when a program is run. -/
def settings : List Setting := (m.course fuel p).flatMap Step.settings

/-- When a program is run, the moment is met after the fields in the list were set. -/
def Meets (ws : List Setting) (N : Moment) : Prop :=
  ∃ before M rest ws', m.course fuel p = before ++ .part M :: rest ∧ M.Meets ws' N ∧
    ws = before.flatMap Step.settings ++ ws'

variable {m fuel p}

theorem part_mem_course_iff {M : Moment} : .part M ∈ m.course fuel p ↔ m.Starts fuel p M := by
  unfold course
  rw [Moment.part_mem_followedBy_iff]
  constructor
  · rintro (rfl | ⟨u, m₁, hend, hM⟩)
    · exact .statements
    · split at hM
      · rename_i e htrailing
        cases List.mem_singleton.mp hM
        exact .trailing htrailing hend
      · cases hM
  · rintro (_ | ⟨htrailing, hend⟩)
    · exact .inl rfl
    · refine .inr ⟨(), _, hend, ?_⟩
      rw [htrailing]
      exact List.mem_cons_self

theorem Meets.runs {ws : List Setting} {N : Moment} (h : m.Meets fuel p ws N) : m.Runs fuel p N := by
  obtain ⟨before, M, rest, ws', hcourse, hM, -⟩ := h
  refine ⟨M, part_mem_course_iff.mp ?_, hM.part⟩
  rw [hcourse]
  exact List.mem_append_right _ List.mem_cons_self

/-- Every moment of a run is met. -/
theorem Runs.exists_meets {N : Moment} (h : m.Runs fuel p N) : ∃ ws, m.Meets fuel p ws N := by
  obtain ⟨M, hM, hpath⟩ := h
  obtain ⟨before, rest, hcourse⟩ := List.append_of_mem (part_mem_course_iff.mpr hM)
  obtain ⟨ws, hmeets⟩ := Moment.exists_meets hpath
  exact ⟨_, before, M, rest, ws, hcourse, hmeets, rfl⟩

open Eval in
theorem through_course_run : Through m.home (m.course fuel p) (m.run fuel p).2 := by
  have hpasses : Passes (topLevel (.ofFuel fuel) p.statements >>= fun _ => finish fuel p) m.home
      (m.course fuel p) := by
    refine passes_followedBy ⟨fuel, .topLevel p.statements, m.home⟩ fun _ m₁ _ => ?_
    unfold finish
    cases p.trailing with
    | none => exact still_pure.passes
    | some e => exact ends_map (passes_part ⟨fuel, .expression e, m₁⟩)
  unfold run
  rw [program_eq]
  cases hend : (topLevel (.ofFuel fuel) p.statements >>= fun _ => finish fuel p) m.home with
  | ok v m' => exact hpasses.of_ok hend
  | error stop m' => cases stop <;> exact hpasses.of_error hend

end Machine

namespace Realm.Closed

variable {R : Realm} {m : Machine} {fuel : Nat} {p : Program}

theorem starts_records (h : R.Closed m) (hp : R.Admits p) {M : Moment}
    (hM : .part M ∈ m.course fuel p) : M.Records :=
  M.records (h.fits_start hp (Machine.part_mem_course_iff.mp hM))

/-- After a run, fields have the values that they were set to last. -/
theorem field?_run (h : R.Closed m) (hp : R.Admits p) (fuel : Nat) (i : Instance) (name : String) :
    (m.run fuel p).2.field? i name = (lastSet? (m.settings fuel p) i name).or (m.field? i name) :=
  Machine.through_course_run.field? (fun _ hM => h.starts_records hp hM) i name

/-- Whenever a moment is met, fields have the values that they were set to last. -/
theorem field?_meets (h : R.Closed m) (hp : R.Admits p) {ws : List Setting} {N : Moment}
    (hN : m.Meets fuel p ws N) (i : Instance) (name : String) :
    N.machine.field? i name = (lastSet? ws i name).or (m.field? i name) := by
  obtain ⟨before, M, rest, ws', hcourse, hM, rfl⟩ := hN
  have hmem {A : Moment} (hA : .part A ∈ before ++ .part M :: rest) : .part A ∈ m.course fuel p :=
    hcourse ▸ hA
  have hfits : R.Fits M := h.fits_start hp (Machine.part_mem_course_iff.mp (hmem (by simp)))
  have hthrough : Through m.home (m.course fuel p) (m.run fuel p).2 := Machine.through_course_run
  rw [hcourse] at hthrough
  rw [hM.field?_machine hfits, hthrough.machine.field? fun A hA =>
    h.starts_records hp (hmem (List.mem_append_left _ hA)), lastSet?_append, Option.or_assoc]
  rfl

end Realm.Closed

end ScriptLang
