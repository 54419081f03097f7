import ScriptLang.Proofs.Realms.Origins
import ScriptLang.Proofs.Realms.Settings

/-!
# Instances are made once

An instance gets the next number, and from then on there are more: in all that is done to make it
(`Moment.Makes.path`), when that ends (`Moment.Makes.lt_final`), and in whatever comes after it in any
course (`Through.order`, `Moment.Makes.lt_of_le`). So no two instances that are made in a run have the
same number (`Realm.Closed.makes_eq`). The numbers are new ones, and the instances are there when the
run ends (`Machine.Runs.size_le`, `Realm.Closed.lt_size_run`).
-/

namespace ScriptLang

open Relation (ReflTransGen)

/-! ## Numbers of instances in a course -/

theorem Moment.size_le (M : Moment) : M.machine.fields.size ≤ M.final.fields.size := by
  have hkeeps : Eval.Keeps M.task.declares (M.task.perform M.fuel) M.machine := M.keeps
  exact ends_final_iff.mp (Eval.Ends.mono hkeeps (fun _ _ _ h => h.fields) fun _ _ h => h.fields)

theorem Step.Leads.size_le {s : Step} {m m' : Machine} (h : s.Leads m m') :
    m.fields.size ≤ m'.fields.size := by
  cases h with
  | part N => exact N.size_le
  | set => simp [Machine.setting]

namespace Through

variable {m m' : Machine} {steps : List Step} {A B N : Moment}

theorem size_le (h : Through m steps m') : m.fields.size ≤ m'.fields.size := by
  induction h with
  | done h => exact h.size
  | step h hstep _ ih => exact Nat.le_trans h.size (Nat.le_trans hstep.size_le ih)

/-- A part begins with no fewer instances, and ends with no more. -/
theorem part_size_le (h : Through m steps m') (hN : .part N ∈ steps) :
    m.fields.size ≤ N.machine.fields.size ∧ N.final.fields.size ≤ m'.fields.size := by
  induction h with
  | done => cases hN
  | step hquiet hstep hrest ih =>
    rcases List.mem_cons.mp hN with heq | hN
    · subst heq
      cases hstep
      exact ⟨hquiet.size, hrest.size_le⟩
    · obtain ⟨hbegins, hends⟩ := ih hN
      exact ⟨Nat.le_trans hquiet.size (Nat.le_trans hstep.size_le hbegins), hends⟩

/-- Of two parts one begins with no fewer instances than there are when the other one ends. -/
theorem order (h : Through m steps m') (hA : .part A ∈ steps) (hB : .part B ∈ steps) :
    A = B ∨ A.final.fields.size ≤ B.machine.fields.size ∨
      B.final.fields.size ≤ A.machine.fields.size := by
  induction h with
  | done => cases hA
  | step _ hstep hrest ih =>
    rcases List.mem_cons.mp hA with heqA | hA'
    · subst heqA
      rcases List.mem_cons.mp hB with heqB | hB'
      · cases heqB
        exact .inl rfl
      · cases hstep
        exact .inr (.inl (hrest.part_size_le hB').1)
    · rcases List.mem_cons.mp hB with heqB | hB'
      · subst heqB
        cases hstep
        exact .inr (.inr (hrest.part_size_le hA').1)
      · exact ih hA' hB'

end Through

/-- However much is around a moment, there are no fewer instances when all of it ends. -/
theorem Realm.Fits.size_le_path {R : Realm} {M N : Moment} (h : R.Fits M)
    (hpath : ReflTransGen Part M N) : N.final.fields.size ≤ M.final.fields.size := by
  induction hpath using ReflTransGen.head_induction_on with
  | refl => exact Nat.le_refl _
  | head hM _ ih =>
    have hpart := ((Moment.through_course h).part_size_le hM.mem_course).2
    exact Nat.le_trans (ih (h.inside hM)) hpart

/-! ## Instances that are made -/

namespace Moment.Makes

variable {R : Realm} {M N N' A B : Moment} {i j : Instance}

theorem unique (h : N.Makes i) (h' : N.Makes j) : j = i := by
  cases h
  cases h'
  rfl

/-- The instance has the next number. -/
theorem id_eq (h : N.Makes i) : i.id = N.machine.fields.size := by
  cases h
  rfl

/-- What is done to make the instance is done when it is there. -/
theorem path (h : M.Makes i) (hN : Part M N) (hpath : ReflTransGen Part N N') :
    i.id < N'.machine.fields.size := by
  refine Nat.lt_of_lt_of_le ?_ (Part.precedes_path hpath).fields
  cases h with
  | @intro n c arguments m =>
    have hlt : m.fields.size < m.withInstance.fields.size := by simp [Machine.withInstance]
    cases hN with
    | constructBind => exact hlt
    | @constructCall _ _ m₁ _ _ f g hf hg =>
      have hprecedes := Moment.precedes
        ⟨n, .bind f (.instance (m.nextInstance c)), m.withInstance⟩ hg
      exact Nat.lt_of_lt_of_le hlt hprecedes.fields

/-- However the moment ends, the instance is there. -/
theorem lt_final (h : N.Makes i) (hN : R.Fits N) : i.id < N.final.fields.size := by
  cases h with
  | @intro n c arguments m =>
    have hmakes : Moment.Makes ⟨n + 1, .apply (.class c) arguments, m⟩ (m.nextInstance c) := .intro
    cases hf : c.initializer? with
    | none =>
      have hend : Moment.ending ⟨n + 1, .apply (.class c) arguments, m⟩ =
          .ok (.instance (m.nextInstance c)) m.withInstance := by
        change Eval.construct (Eval.runBody n) c arguments m = _
        unfold Eval.construct
        rw [hf]
        rfl
      unfold final
      rw [hend]
      simp [Machine.withInstance, Machine.nextInstance]
    | some f =>
      have hpart : Part ⟨n + 1, .apply (.class c) arguments, m⟩
          ⟨n, .bind f (.instance (m.nextInstance c)), m.withInstance⟩ := .constructBind hf
      exact Nat.lt_of_lt_of_le (hmakes.path hpart .refl)
        (Nat.le_trans (Moment.size_le _) (hN.size_le_path (.single hpart)))

/-- What is made later has a higher number. -/
theorem lt_of_le (hA : R.Fits A) (hpathA : ReflTransGen Part A N)
    (hpathB : ReflTransGen Part B N') (hle : A.final.fields.size ≤ B.machine.fields.size)
    (h : N.Makes i) (h' : N'.Makes j) : i.id < j.id := by
  calc i.id < N.final.fields.size := h.lt_final (hA.path hpathA)
    _ ≤ A.final.fields.size := hA.size_le_path hpathA
    _ ≤ B.machine.fields.size := hle
    _ ≤ N'.machine.fields.size := (Part.precedes_path hpathB).fields
    _ = j.id := h'.id_eq.symm

end Moment.Makes

/-- In the course of a moment, two instances that are made have different numbers. -/
theorem Realm.Fits.makes_eq {R : Realm} {M N N' : Moment} {i j : Instance} (hM : R.Fits M)
    (hN : ReflTransGen Part M N) (hN' : ReflTransGen Part M N') (h : N.Makes i) (h' : N'.Makes j)
    (hid : j.id = i.id) : j = i := by
  induction M using Moment.induction with
  | _ M ih =>
    rcases hN.cases_head with rfl | ⟨A, hA, hpathA⟩
    · rcases hN'.cases_head with rfl | ⟨B, hB, hpathB⟩
      · exact h.unique h'
      · have hlater := h.path hB hpathB
        rw [← h'.id_eq, hid] at hlater
        exact absurd hlater (Nat.lt_irrefl _)
    · rcases hN'.cases_head with rfl | ⟨B, hB, hpathB⟩
      · have hlater := h'.path hA hpathA
        rw [← h.id_eq, hid] at hlater
        exact absurd hlater (Nat.lt_irrefl _)
      · rcases (Moment.through_course hM).order hA.mem_course hB.mem_course with rfl | hle | hle
        · exact ih A hA (hM.inside hA) hpathA hpathB
        · exact absurd hid (Nat.ne_of_gt (h.lt_of_le (hM.inside hA) hpathA hpathB hle h'))
        · exact absurd hid (Nat.ne_of_lt (h'.lt_of_le (hM.inside hB) hpathB hpathA hle h))

/-! ## Runs -/

section Runs

variable {R : Realm} {m : Machine} {fuel : Nat} {p : Program} {N N' : Moment} {i j : Instance}

/-- **Two instances that are made in a run have different numbers.** -/
theorem Realm.Closed.makes_eq (hm : R.Closed m) (hp : R.Admits p) (hN : m.Runs fuel p N)
    (hN' : m.Runs fuel p N') (h : N.Makes i) (h' : N'.Makes j) (hid : j.id = i.id) : j = i := by
  obtain ⟨A, hA, hpathA⟩ := hN
  obtain ⟨B, hB, hpathB⟩ := hN'
  have hfitsA : R.Fits A := hm.fits_start hp hA
  have hfitsB : R.Fits B := hm.fits_start hp hB
  rcases Machine.through_course_run.order (Machine.part_mem_course_iff.mpr hA)
    (Machine.part_mem_course_iff.mpr hB) with rfl | hle | hle
  · exact hfitsA.makes_eq hpathA hpathB h h' hid
  · exact absurd hid (Nat.ne_of_gt (h.lt_of_le hfitsA hpathA hpathB hle h'))
  · exact absurd hid (Nat.ne_of_lt (h'.lt_of_le hfitsB hpathB hpathA hle h))

/-- The instances that are made in a run are new, -/
theorem Machine.Runs.size_le (hN : m.Runs fuel p N) (h : N.Makes i) : m.fields.size ≤ i.id := by
  rw [h.id_eq]
  exact hN.precedes.fields

/-- and they are there after it. -/
theorem Realm.Closed.lt_size_run (hm : R.Closed m) (hp : R.Admits p) (hN : m.Runs fuel p N)
    (h : N.Makes i) : i.id < (m.run fuel p).2.fields.size := by
  obtain ⟨A, hA, hpath⟩ := hN
  have hfits : R.Fits A := hm.fits_start hp hA
  have hrun := Machine.through_course_run.part_size_le (Machine.part_mem_course_iff.mpr hA)
  calc i.id < N.final.fields.size := h.lt_final (hfits.path hpath)
    _ ≤ A.final.fields.size := hfits.size_le_path hpath
    _ ≤ (m.run fuel p).2.fields.size := hrun.2

end Runs

end ScriptLang
