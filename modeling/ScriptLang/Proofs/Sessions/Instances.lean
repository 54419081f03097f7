import ScriptLang.Proofs.Realms.Instances
import ScriptLang.Proofs.Sessions.Origins

/-!
# Instances in a session

In all the runs of a session, no two instances that are made have the same number
(`Session.Hosted.distinctInstances`): within one run each is made once, and a later run has new
numbers. Whatever instance a session of a host comes across was made in one of the runs
(`Session.Hosted.knows`), and so the number of an instance tells which one it is, and its class
(`Session.Hosted.eq_of_id`).
-/

namespace ScriptLang

namespace Launch

theorem admits (L : List Launch) (l : Launch) : (Realm.ofLaunches (L ++ [l])).Admits l.program :=
  Realm.admits_ofLaunches (by simp)

end Launch

namespace Session

variable {L : List Launch} {vs : List Value} {s : Session} {l : Launch}
variable {fuel : Nat} {source : String} {mode : Mode}

theorem Hosted.closed_start (h : Hosted L vs s) (hlaunch : s.launch? fuel source mode = some l) :
    (Realm.ofLaunches (L ++ [l])).Closed l.start :=
  h.hosts.bound.closed_start (machine_of_launch hlaunch) fun _ hl' => List.mem_append_left _ hl'

/-- The instances that were made in the runs so far are there, and they have different numbers. -/
structure DistinctInstances (L : List Launch) (s : Session) : Prop where
  lt : ∀ M i, Launch.Happened L M → M.Makes i → i.id < s.machine.fields.size
  eq : ∀ M N i j, Launch.Happened L M → Launch.Happened L N → M.Makes i → N.Makes j →
    j.id = i.id → j = i

namespace DistinctInstances

/-- Only the number of instances matters. -/
theorem congr (h : DistinctInstances L s) {s' : Session}
    (hsize : s.machine.fields.size ≤ s'.machine.fields.size) : DistinctInstances L s' :=
  ⟨fun M i hM hi => Nat.lt_of_lt_of_le (h.lt M i hM hi) hsize, h.eq⟩

variable (h : DistinctInstances L s) (hlaunch : s.launch? fuel source mode = some l)

include h hlaunch

/-- The instances that are made in the next run have other numbers. -/
theorem lt_of_launch {M N : Moment} {i j : Instance} (hM : Launch.Happened L M) (hN : l.Runs N)
    (hi : M.Makes i) (hj : N.Makes j) : i.id < j.id := by
  have hnew : l.start.fields.size ≤ j.id := Machine.Runs.size_le hN hj
  rw [l.start_fields, machine_of_launch hlaunch] at hnew
  exact Nat.lt_of_lt_of_le (h.lt M i hM hi) hnew

variable (hs : Hosted L vs s)

include hs

/-- With the next run, instances still have different numbers. -/
theorem eq_next {M N : Moment} {i j : Instance} (hM : Launch.Happened (L ++ [l]) M)
    (hN : Launch.Happened (L ++ [l]) N) (hi : M.Makes i) (hj : N.Makes j) (hid : j.id = i.id) :
    j = i := by
  rcases hM.cases_append with hM | hM
  · rcases hN.cases_append with hN | hN
    · exact h.eq M N i j hM hN hi hj hid
    · exact absurd hid (Nat.ne_of_gt (h.lt_of_launch hlaunch hM hN hi hj))
  · rcases hN.cases_append with hN | hN
    · exact absurd hid (Nat.ne_of_lt (h.lt_of_launch hlaunch hN hM hj hi))
    · exact (hs.closed_start hlaunch).makes_eq (Launch.admits L l) hM hN hi hj hid

theorem run : DistinctInstances (L ++ [l]) (s.run fuel source mode).2 := by
  refine ⟨fun M i hM hi => ?_, fun M N i j hM hN => h.eq_next hlaunch hs hM hN⟩
  have hlater := (later_run s fuel source mode).fields
  rcases hM.cases_append with hM | hM
  · exact Nat.lt_of_lt_of_le (h.lt M i hM hi) hlater
  · rw [run_of_launch hlaunch]
    exact (hs.closed_start hlaunch).lt_size_run (Launch.admits L l) hM hi

end DistinctInstances

theorem Hosted.distinctInstances (h : Hosted L vs s) : DistinctInstances L s := by
  induction h with
  | start =>
    refine ⟨?_, ?_⟩
    · rintro M i ⟨l, hl, -⟩
      cases hl
    · rintro M N i j ⟨l, hl, -⟩
      cases hl
  | @run L vs s h fuel source mode _ ih =>
    cases hlaunch : s.launch? fuel source mode with
    | none =>
      rw [Option.toList_none, List.append_nil]
      exact ih.congr (later_run s fuel source mode).fields
    | some l => exact ih.run hlaunch h
  | takePrinted _ ih => exact ih.congr (Nat.le_refl _)
  | literal _ _ ih => exact ih
  | global _ _ ih => exact ih
  | defineGlobal _ _ _ ih => exact ih.congr (Nat.le_refl _)
  | clearGlobals _ ih => exact ih.congr (Nat.le_refl _)

/-- **The number of an instance tells which one it is.** -/
theorem Hosted.eq_of_id (hs : Hosted L vs s) (hlaunch : s.launch? fuel source mode = some l)
    {i j : Instance} (hi : i.Made (Launch.Happened (L ++ [l])))
    (hj : j.Made (Launch.Happened (L ++ [l]))) (hid : j.id = i.id) : j = i := by
  obtain ⟨M, hM, hmakes⟩ := hi.made
  obtain ⟨N, hN, hmakes'⟩ := hj.made
  exact hs.distinctInstances.eq_next hlaunch hs hM hN hmakes hmakes' hid

end Session

end ScriptLang
