import ScriptLang.Proofs.Realms.Origins
import ScriptLang.Proofs.Sessions.Past
import ScriptLang.Proofs.Sessions.Tree

/-!
# Classes in a session

Whatever class a session of a host comes across, be it in a variable, in a field, on its way or in the
hands of the host, it was declared in one of the runs, and so were all classes above it
(`Class.Declared.line`). Whatever instance it comes across, it was made in one of the runs, and its
class was declared (`Session.Hosted.knows`). In particular a method that is called `init` is always an
initializer (`Class.Declared.isInitializer`).
-/

namespace ScriptLang

/-! ## Lines of declared classes -/

namespace Class.Declared

variable {H : Moment → Prop} {c d : Class}

/-- Every class in the line of a declared one was declared. -/
theorem line (h : c.Declared H) (hd : d ∈ c.line) : ∃ N, H N ∧ N.Declares d := by
  induction h with
  | @intro N c hN h _ ih =>
    obtain ⟨id, name, superclass, methods⟩ := c
    cases superclass with
    | none =>
      rw [Class.line] at hd
      cases List.mem_singleton.mp hd
      exact ⟨N, hN, h⟩
    | some superclass =>
      rw [Class.line] at hd
      rcases List.mem_cons.mp hd with rfl | hd
      · exact ⟨N, hN, h⟩
      · exact ih superclass rfl hd

/-- A method that is found under the name `init` is an initializer. -/
theorem isInitializer (h : c.Declared H) {f : Function} (hf : c.findMethod "init" = some f) :
    f.isInitializer = true := by
  rw [Class.findMethod_eq_findSome?] at hf
  obtain ⟨d, hd, hget⟩ := List.exists_of_findSome?_eq_some hf
  obtain ⟨N, -, hdeclares⟩ := h.line hd
  cases hdeclares with
  | intro _ hmethods =>
    have hinit := hmethods "init"
    split at hinit
    · obtain ⟨id, hid⟩ := hinit
      cases hid.symm.trans hget
      rfl
    · cases hinit.symm.trans hget

end Class.Declared

/-! ## Sessions -/

section Mono

variable {H H' : Moment → Prop}

theorem Value.Known.mono (hH : ∀ N, H N → H' N) {v : Value} (h : v.Known H) : v.Known H' := by
  cases v with
  | callable c =>
    cases c with
    | «class» c => exact Class.Declared.mono hH h
    | _ => exact trivial
  | «instance» i => exact Instance.Made.mono hH h
  | _ => exact trivial

theorem Machine.Known.mono (hH : ∀ N, H N → H' N) {m : Machine} (h : m.Known H) : m.Known H' :=
  ⟨fun f x v hv => (h.frames f x v hv).mono hH, fun i x v hv => (h.fields i x v hv).mono hH⟩

end Mono

theorem Launch.Happened.part {H : List Launch} {M N : Moment} (h : Happened H M) (hN : Part M N) :
    Happened H N := by
  obtain ⟨l, hl, hM⟩ := h
  exact ⟨l, hl, hM.part hN⟩

namespace Session

variable {L : List Launch} {vs : List Value} {s : Session} {l : Launch}
variable {fuel : Nat} {source : String} {mode : Mode}

/-- All values on the machine of a session and in the hands of its host are known. -/
structure Knows (L : List Launch) (vs : List Value) (s : Session) : Prop where
  machine : s.machine.Known (Launch.Happened L)
  values : ∀ v ∈ vs, v.Known (Launch.Happened L)

theorem knows_start (maxDepth : Nat) (clock : Nat → Float) : Knows [] [] (.start maxDepth clock) := by
  refine ⟨⟨fun f x v hv => ?_, fun i x v hv => ?_⟩, by simp⟩
  · obtain ⟨-, rfl⟩ := here?_start hv
    exact trivial
  · unfold Machine.field? start Machine.start at hv
    simp at hv

namespace Knows

variable (h : Knows L vs s)

include h

/-- What is known stays known when more has happened. -/
theorem mono {L' : List Launch} (hL : ∀ l ∈ L, l ∈ L') : s.machine.Known (Launch.Happened L') ∧
    ∀ v ∈ vs, v.Known (Launch.Happened L') := by
  have hH (N : Moment) (hN : Launch.Happened L N) : Launch.Happened L' N := by
    obtain ⟨l, hl, hN⟩ := hN
    exact ⟨l, hL l hl, hN⟩
  exact ⟨h.machine.mono hH, fun v hv => (h.values v hv).mono hH⟩

theorem launch (hlaunch : s.launch? fuel source mode = some l) :
    l.start.Known (Launch.Happened (L ++ [l])) := by
  have hL (l' : Launch) (hl' : l' ∈ L) : l' ∈ L ++ [l] := List.mem_append_left _ hl'
  have hmachine := (h.mono hL).1
  rw [← machine_of_launch hlaunch] at hmachine
  exact hmachine.congr rfl rfl

/-- Whatever exists at a moment of the next run is known. -/
theorem existing (hlaunch : s.launch? fuel source mode = some l) {N : Moment} (hN : l.Runs N)
    {v : Value} (hv : l.start.Existing l.fuel l.program vs N v) :
    v.Known (Launch.Happened (L ++ [l])) :=
  (h.launch hlaunch).existing (fun _ _ hM hpart => hM.part hpart) (fun _ hM => ⟨l, by simp, hM⟩)
    (h.mono fun l' hl' => List.mem_append_left _ hl').2 hN hv

theorem run (fuel : Nat) (source : String) (mode : Mode) :
    Knows (L ++ (s.launch? fuel source mode).toList)
      ((s.run fuel source mode).1.value?.toList ++ vs) (s.run fuel source mode).2 := by
  cases hlaunch : s.launch? fuel source mode with
  | none =>
    obtain ⟨ds, hrun⟩ := run_of_no_launch hlaunch
    rw [hrun, Option.toList_none, List.append_nil]
    exact ⟨h.machine, h.values⟩
  | some l =>
    have hruns (N : Moment) (hN : l.Runs N) : Launch.Happened (L ++ [l]) N := ⟨l, by simp, hN⟩
    obtain ⟨hmachine, hvalue⟩ :=
      (h.launch hlaunch).run (fun _ _ hM hpart => hM.part hpart) hruns
    rw [run_of_launch hlaunch]
    refine ⟨hmachine, fun v hv => ?_⟩
    rcases List.mem_append.mp hv with hv | hv
    · exact hvalue v (Outcome.finished_of_value? (Option.mem_toList.mp hv))
    · exact (h.mono fun l' hl' => List.mem_append_left _ hl').2 v hv

theorem add {v : Value} (hv : v.Known (Launch.Happened L)) : Knows L (v :: vs) s := by
  refine ⟨h.machine, fun w hw => ?_⟩
  rcases List.mem_cons.mp hw with rfl | hw
  · exact hv
  · exact h.values w hw

end Knows

/-- **All that a session of a host comes across is known.** -/
theorem Hosted.knows (h : Hosted L vs s) : Knows L vs s := by
  induction h with
  | start maxDepth clock => exact knows_start maxDepth clock
  | run _ fuel source mode _ ih => exact ih.run fuel source mode
  | takePrinted _ ih => exact ⟨ih.machine.congr rfl rfl, ih.values⟩
  | literal _ c ih => exact ih.add (Value.known_of_isPlain c.isPlain_value)
  | @global L vs s h name v hv ih =>
    rw [(h.hosts.bound.closed L fun _ hl => hl).global?_eq] at hv
    exact ih.add (ih.machine.frames _ _ _ hv)
  | defineGlobal _ _ hv ih => exact ⟨ih.machine.define _ _ (ih.values _ hv), ih.values⟩
  | @clearGlobals L vs s _ ih =>
    refine ⟨⟨fun f x v hv => ih.machine.frames f x v ?_, ih.machine.fields⟩, ih.values⟩
    have hv' : (s.machine.frames.clear s.machine.globals).here? f x = some v := hv
    rw [Frames.here?_clear] at hv'
    split at hv'
    · cases hv'
    · exact hv'

end Session

end ScriptLang
