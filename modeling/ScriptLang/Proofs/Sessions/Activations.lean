import ScriptLang.Proofs.Agreement.Activations
import ScriptLang.Proofs.Sessions.Numbers

/-!
# Frames of earlier launches

The frames that were activated in the launches of a session are among its frames, and the blocks and
routines they were made for are from the programs that were launched (`Session.Activated.run`).
So a launch that follows makes frames of its own, and nothing in its program was activated before.
-/

namespace ScriptLang

open Scoping (Place Site Phrase)

/-- The code of what is activated may be run. -/
theorem Realm.Fits.activated {A : Realm} {N : Moment} (hN : A.Fits N) {f : FrameId} {site : Site}
    (h : N.Activates f site) {P : Place} (hopens : P.Opens site) :
    ∃ t, A.code t ∧ t.ids = site.ids := by
  cases h with
  | block => exact ⟨_, hN.code _ rfl, rfl⟩
  | call => exact ⟨_, hN.supplies.1.code, rfl⟩
  | bind => cases hopens
  | «class» => cases hopens

namespace Session

variable {L : List Launch} {l : Launch} {s : Session} {N : Moment} {f : FrameId} {site : Site}

/-- What is known of the frames that were activated in the launches: they are among those of the
session, none is the global one, and only scopes of the launched programs have such frames. -/
structure Activated (L : List Launch) (s : Session) : Prop where
  below : ∀ l ∈ L, ∀ N f site, l.Runs N → N.Activates f site → f < s.machine.frames.count
  inner : ∀ l ∈ L, ∀ N f site, l.Runs N → N.Activates f site → s.machine.globals < f
  spent : ∀ l ∈ L, ∀ N f site, l.Runs N → N.Activates f site → ∀ P : Place, P.Opens site →
    ∀ id ∈ site.ids, id < s.nextRef

/-- What a launch activates is from the programs so far. -/
theorem Bound.spent_ids (h : s.Bound L) {fuel : Nat} {source : String} {mode : Mode}
    (hlaunch : s.launch? fuel source mode = some l) (hN : l.Runs N) (hsite : N.Activates f site)
    {P : Place} (hopens : P.Opens site) {id : Nat} (hid : id ∈ site.ids) :
    id < (s.run fuel source mode).2.nextRef := by
  have hclosed := h.closed_start (machine_of_launch hlaunch) fun _ hl' => List.mem_append_left [l] hl'
  have hadmits : (Realm.ofLaunches (L ++ [l])).Admits l.program :=
    Realm.admits_ofLaunches (List.mem_append_right _ (List.mem_singleton_self l))
  obtain ⟨t, ⟨l', hl', hcontains⟩, hids⟩ := (hclosed.fits_run hadmits hN).activated hsite hopens
  have hbound := h.run fuel source mode
  rw [hlaunch] at hbound
  exact hbound.spent l' hl' id (hcontains.ids (hids ▸ hid))

theorem activated_start (maxDepth : Nat) (clock : Nat → Float) :
    Activated [] (.start maxDepth clock) := ⟨by simp, by simp, by simp⟩

/-- **What is activated in a run is in the session after it.** -/
theorem Activated.run (h : Activated L s) (hbound : s.Bound L) (fuel : Nat) (source : String)
    (mode : Mode) :
    Activated (L ++ (s.launch? fuel source mode).toList) (s.run fuel source mode).2 := by
  have hle := (s.parse_fresh source mode).1
  rw [← nextRef_run] at hle
  cases hlaunch : s.launch? fuel source mode with
  | none =>
    obtain ⟨ds, hrun⟩ := run_of_no_launch hlaunch
    rw [Option.toList_none, List.append_nil]
    refine ⟨fun l hl N f site hN hsite => ?_, fun l hl N f site hN hsite => ?_,
      fun l hl N f site hN hsite P hopens id hid => ?_⟩
    · rw [hrun]
      exact h.below l hl N f site hN hsite
    · rw [hrun]
      exact h.inner l hl N f site hN hsite
    · exact Nat.lt_of_lt_of_le (h.spent l hl N f site hN hsite P hopens id hid) hle
  | some l =>
    have hmachine : l.start.frames = s.machine.frames := by
      rw [l.start_frames, machine_of_launch hlaunch]
    have hgrows := (l.start.home_grows_run l.fuel l.program).frames.count
    have hglobals : l.run.2.globals = s.machine.globals := by
      rw [← machine_of_launch hlaunch]
      exact (l.start.home_grows_run l.fuel l.program).globals
    refine ⟨fun l' hl' N f site hN hsite => ?_, fun l' hl' N f site hN hsite => ?_,
      fun l' hl' N f site hN hsite P hopens id hid => ?_⟩
    · rw [run_of_launch hlaunch]
      rcases List.mem_append.mp hl' with hl' | hl'
      · have hlt := h.below l' hl' N f site hN hsite
        rw [← hmachine] at hlt
        exact Nat.lt_of_lt_of_le hlt hgrows
      · cases List.mem_singleton.mp hl'
        exact hN.lt_count_run hsite
    · rw [run_of_launch hlaunch]
      change l.run.2.globals < f
      rw [hglobals]
      rcases List.mem_append.mp hl' with hl' | hl'
      · exact h.inner l' hl' N f site hN hsite
      · cases List.mem_singleton.mp hl'
        have hlt := (hbound.closed L fun _ hl => hl).globals_lt
        rw [← hmachine] at hlt
        exact Nat.lt_of_lt_of_le hlt (Machine.Runs.count_le hN hsite)
    · rcases List.mem_append.mp hl' with hl' | hl'
      · exact Nat.lt_of_lt_of_le (h.spent l' hl' N f site hN hsite P hopens id hid) hle
      · cases List.mem_singleton.mp hl'
        exact hbound.spent_ids hlaunch hN hsite hopens hid

end Session

end ScriptLang
