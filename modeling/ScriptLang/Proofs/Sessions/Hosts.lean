import ScriptLang.Proofs.Relabelling.Fixed
import ScriptLang.Proofs.Sessions.Activations

/-!
# Sessions of a host

Between the runs of a session its host may look at the global variables, define them, and remove
them all. The sessions that a host can come to (`Session.Hosted`) are more than those that are reached
by runs alone: a variable that a program has declared may be gone, and another one may hold a
function that was removed long ago.

What is known of sessions holds here, too (`Session.Hosted.hosts`). The host has no values but
constants and those that it got from the session, and these are as good as the values on the machine
(`Session.Kept.Bears`). Removing variables does no harm, since the scopes of a program are lodged
inside the global frame, whose names do not matter (`World.Stands.clearGlobals`).
-/

namespace ScriptLang

open Scoping (Place Site)

/-! ## What later machines have -/

/-- The second machine is a later one: it has all that is on the first one. -/
structure Machine.Later (m m' : Machine) : Prop extends m.Precedes m' where
  extended : m.frames.Extends (fun _ _ => True) m'.frames
  globals : m'.globals = m.globals

theorem Machine.later_defineGlobal (m : Machine) (name : String) (v : Value) :
    m.Later (m.defineGlobal name v) where
  frames := Nat.le_of_eq (Frames.count_define ..).symm
  fields := Nat.le_refl _
  made := Nat.le_refl _
  extended := .of_define v (.inr trivial)
  globals := rfl

theorem Realm.Closed.global?_eq {R : Realm} {m : Machine} (h : R.Closed m) (name : String) :
    m.global? name = m.frames.here? m.globals name := by
  obtain ⟨n, hn⟩ := Nat.exists_eq_succ_of_ne_zero (Nat.ne_zero_of_lt h.globals_lt)
  unfold Machine.global? Frames.lookup?
  rw [hn, Frames.lookupFrom, h.outward_globals]
  cases m.frames.here? m.globals name <;> rfl

theorem Outcome.finished_of_value? {outcome : Outcome} {v : Value} (h : outcome.value? = some v) :
    outcome = .finished (some v) := by
  cases outcome with
  | finished w =>
    cases h
    rfl
  | _ => cases h

namespace Session

variable {L L' : List Launch} {vs : List Value} {v : Value} {s s' : Session} {l : Launch}
variable {fuel : Nat} {source : String} {mode : Mode} {R : Relabelling}

theorem later_run (s : Session) (fuel : Nat) (source : String) (mode : Mode) :
    s.machine.Later (s.run fuel source mode).2.machine := by
  cases hlaunch : s.launch? fuel source mode with
  | none =>
    obtain ⟨ds, hrun⟩ := run_of_no_launch hlaunch
    rw [hrun]
    exact ⟨⟨Nat.le_refl _, Nat.le_refl _, Nat.le_refl _⟩, .refl _, rfl⟩
  | some l =>
    rw [run_of_launch hlaunch, ← machine_of_launch hlaunch]
    have hgrows := l.start.home_grows_run l.fuel l.program
    exact ⟨⟨hgrows.frames.count, hgrows.fields, hgrows.made⟩,
      hgrows.frames.mono fun _ _ _ _ => trivial, hgrows.globals⟩

/-! ## Labels on the machine -/

/-- The machine has no labels but those of the programs that were launched. -/
def Labelled (L : List Launch) (s : Session) : Prop :=
  ∀ L' R, (∀ l ∈ L, l ∈ L') → (Realm.ofLaunches L').Fixed R → s.machine.Fixed R

theorem Labelled.start (h : Labelled L s) (hmachine : l.machine = s.machine)
    (hL : ∀ l ∈ L, l ∈ L') (hR : (Realm.ofLaunches L').Fixed R) : l.start.Fixed R := by
  unfold Launch.start
  rw [hmachine]
  exact (h L' R hL hR).learn l.bindings

theorem Labelled.run (h : Labelled L s) (hbound : s.Bound L) (fuel : Nat) (source : String)
    (mode : Mode) :
    Labelled (L ++ (s.launch? fuel source mode).toList) (s.run fuel source mode).2 := by
  intro L' R hL hR
  have hold (l : Launch) (hl : l ∈ L) : l ∈ L' := hL l (List.mem_append_left _ hl)
  cases hlaunch : s.launch? fuel source mode with
  | none =>
    obtain ⟨ds, hrun⟩ := run_of_no_launch hlaunch
    rw [hrun]
    exact h L' R hold hR
  | some l =>
    rw [hlaunch] at hL
    have hmachine := machine_of_launch hlaunch
    have hl : l ∈ L' := hL l (List.mem_append_right _ (List.mem_singleton_self l))
    rw [run_of_launch hlaunch]
    exact (h.start hmachine hold hR).run hR (hbound.closed_start hmachine hold)
      (Realm.admits_ofLaunches hl) l.fuel

/-! ## Values from the session -/

/-- The value is as good as those on the machine: its functions are closed in frames of the session,
and their bodies are from the programs that were launched. -/
structure Kept.Bears (h : Kept L s) (v : Value) : Prop where
  good : (World.ofLaunches L s.machine.bindings s.machine.globals h.sound).Good s.machine.frames
    (Aborted L) v
  has : ∀ L', (∀ l ∈ L, l ∈ L') → (Realm.ofLaunches L').Has s.machine v
  fixed : ∀ L' R, (∀ l ∈ L, l ∈ L') → (Realm.ofLaunches L').Fixed R → v.relabel R = v

theorem Kept.bears_literal (h : Kept L s) (c : Literal) : h.Bears c.value := by
  cases c <;> exact ⟨trivial, fun _ _ => trivial, fun _ _ _ _ => rfl⟩

/-- Values stay good while the session goes on. -/
theorem Kept.Bears.later {h : Kept L s} (hv : h.Bears v) (h' : Kept L' s') (hL : ∀ l ∈ L, l ∈ L')
    (hm : s.machine.Later s'.machine) : h'.Bears v where
  good := by
    refine World.Good.mono ⟨hm.globals, ?_, ?_⟩ hm.extended ?_ hv.good
    · rintro P ⟨l, hl, hP⟩
      exact ⟨l, hL l hl, hP⟩
    · rintro N ⟨l, hl, hN⟩
      exact ⟨l, hL l hl, hN⟩
    · rintro f x ⟨l, hl, habort⟩
      exact .inr ⟨l, hL l hl, habort⟩
  has L'' hL'' := (hv.has L'' fun l hl => hL'' l (hL l hl)).later hm.toPrecedes
  fixed L'' R hL'' hR := hv.fixed L'' R (fun l hl => hL'' l (hL l hl)) hR

/-! ## What a host can do -/

/-- The sessions that a host can come to, from a new one, by runs that end and by defining and
removing global variables; the launches of the runs; and the values that the host has. These are
constants, values of trailing expressions, and values of global variables. A variable is not called
`super`. -/
inductive Hosted : List Launch → List Value → Session → Prop
  | start (maxDepth : Nat) (clock : Nat → Float) : Hosted [] [] (.start maxDepth clock)
  | run {L : List Launch} {vs : List Value} {s : Session} (h : Hosted L vs s) (fuel : Nat)
    (source : String) (mode : Mode) (hdone : (s.run fuel source mode).1 ≠ .unfinished) :
    Hosted (L ++ (s.launch? fuel source mode).toList)
      ((s.run fuel source mode).1.value?.toList ++ vs) (s.run fuel source mode).2
  | takePrinted {L : List Launch} {vs : List Value} {s : Session} (h : Hosted L vs s) :
    Hosted L vs s.takePrinted.2
  | literal {L : List Launch} {vs : List Value} {s : Session} (h : Hosted L vs s) (c : Literal) :
    Hosted L (c.value :: vs) s
  | global {L : List Launch} {vs : List Value} {s : Session} (h : Hosted L vs s) {name : String}
    {v : Value} (hv : s.machine.global? name = some v) : Hosted L (v :: vs) s
  | defineGlobal {L : List Launch} {vs : List Value} {s : Session} (h : Hosted L vs s)
    {name : String} (hname : name ≠ "super") {v : Value} (hv : v ∈ vs) :
    Hosted L vs { s with machine := s.machine.defineGlobal name v }
  | clearGlobals {L : List Launch} {vs : List Value} {s : Session} (h : Hosted L vs s) :
    Hosted L vs { s with machine := s.machine.clearGlobals }

/-- What is known of a session of a host. -/
structure Hosts (L : List Launch) (vs : List Value) (s : Session) : Prop where
  kept : Kept L s
  bound : s.Bound L
  activated : Activated L s
  labelled : Labelled L s
  values : ∀ v ∈ vs, kept.Bears v

namespace Hosts

theorem start (maxDepth : Nat) (clock : Nat → Float) : Hosts [] [] (.start maxDepth clock) where
  kept := kept_start maxDepth clock
  bound := bound_start maxDepth clock
  activated := activated_start maxDepth clock
  labelled _ _ _ _ := Machine.fixed_start maxDepth clock
  values := by simp

variable (h : Hosts L vs s)

include h

theorem takePrinted : Hosts L vs s.takePrinted.2 where
  kept := h.kept.takePrinted
  bound := h.bound.takePrinted
  activated := ⟨h.activated.below, h.activated.inner, h.activated.spent⟩
  labelled L' R hL hR := (h.labelled L' R hL hR).clearPrinted
  values v hv := (h.values v hv).later _ (fun _ hl => hl)
    ⟨⟨Nat.le_refl _, Nat.le_refl _, Nat.le_refl _⟩, .refl _, rfl⟩

/-- The value of the trailing expression is from the session. -/
theorem bears_value (hkept : Kept L' s') (hL' : L' = L ++ (s.launch? fuel source mode).toList)
    (hs' : s' = (s.run fuel source mode).2) (hv : (s.run fuel source mode).1.value? = some v) :
    hkept.Bears v := by
  cases hlaunch : s.launch? fuel source mode with
  | none =>
    obtain ⟨ds, hrun⟩ := run_of_no_launch hlaunch
    rw [hrun] at hv
    cases hv
  | some l =>
    rw [hlaunch] at hL'
    rw [run_of_launch hlaunch] at hs' hv
    subst hL' hs'
    have hmachine := machine_of_launch hlaunch
    have hfinished := Outcome.finished_of_value? hv
    have hglobals : l.run.2.globals = l.start.globals :=
      (l.start.home_grows_run l.fuel l.program).globals
    have hold {L'' : List Launch} (hL : ∀ l' ∈ L ++ [l], l' ∈ L'') (l' : Launch) (hl' : l' ∈ L) :
        l' ∈ L'' := hL l' (List.mem_append_left _ hl')
    have hnew {L'' : List Launch} (hL : ∀ l' ∈ L ++ [l], l' ∈ L'') :
        (Realm.ofLaunches L'').Admits l.program := Realm.admits_ofLaunches (hL l (by simp))
    refine ⟨?_, fun L'' hL => ?_, fun L'' R hL hR => ?_⟩
    · have hgood := h.kept.good_run (follows_of_launch hlaunch) hfinished
      have hsame : (h.kept.next (follows_of_launch hlaunch)).Le
          (.ofLaunches (L ++ [l]) l.run.2.bindings l.run.2.globals hkept.sound) :=
        ⟨hglobals, fun _ hP => hP, fun _ hN => hN⟩
      have hframes : l.run.2.frames.Extends (fun _ _ => True) l.run.2.frames := .refl _
      exact hgood.mono hsame hframes fun _ _ hp => .inr hp
    · exact ((h.bound.closed_start hmachine (hold hL)).run (hnew hL) l.fuel).2 v hfinished
    · exact (h.labelled.start hmachine (hold hL) hR).value hR
        (h.bound.closed_start hmachine (hold hL)) (hnew hL) hfinished

theorem run (fuel : Nat) (source : String) (mode : Mode)
    (hdone : (s.run fuel source mode).1 ≠ .unfinished) :
    Hosts (L ++ (s.launch? fuel source mode).toList)
      ((s.run fuel source mode).1.value?.toList ++ vs) (s.run fuel source mode).2 where
  kept := h.kept.run hdone
  bound := h.bound.run fuel source mode
  activated := h.activated.run h.bound fuel source mode
  labelled := h.labelled.run h.bound fuel source mode
  values v hv := by
    rcases List.mem_append.mp hv with hv | hv
    · exact h.bears_value _ rfl rfl (Option.mem_toList.mp hv)
    · exact (h.values v hv).later _ (fun _ hl => List.mem_append_left _ hl)
        (later_run s fuel source mode)

theorem add (hv : h.kept.Bears v) : Hosts L (v :: vs) s where
  __ := h
  values w hw := by
    rcases List.mem_cons.mp hw with rfl | hw
    · exact hv
    · exact h.values w hw

/-- The values of global variables are on the machine. -/
theorem bears_global {name : String} (hv : s.machine.global? name = some v) : h.kept.Bears v := by
  have hhere : s.machine.frames.here? s.machine.globals name = some v := by
    rw [← (h.bound.closed L fun _ hl => hl).global?_eq, hv]
  exact ⟨h.kept.stands.values _ name v hhere,
    fun L' hL => (h.bound.closed L' hL).values _ name v trivial hhere,
    fun L' R hL hR => (h.labelled L' R hL hR).here hhere⟩

theorem defineGlobal {name : String} (hname : name ≠ "super") (hv : v ∈ vs) :
    Hosts L vs { s with machine := s.machine.defineGlobal name v } := by
  have hlater := s.machine.later_defineGlobal name v
  have hbears := h.values v hv
  have hgood : (World.ofLaunches L s.machine.bindings s.machine.globals h.kept.sound).Good
      (s.machine.frames.define s.machine.globals name v) (Aborted L) v :=
    hbears.good.mono (.refl _) hlater.extended fun _ _ hp => .inr hp
  have hstands := h.kept.stands.define hlater.extended (fun _ _ hp => .inr hp) hgood
    (fun hsuper => absurd hsuper hname) fun hglobals => absurd rfl hglobals
  exact {
    kept := ⟨h.kept.sound, h.kept.below, h.kept.unbound, h.kept.free, hstands⟩
    bound := ⟨h.bound.unspent, h.bound.spent, h.bound.kept, fun L' hL =>
      (h.bound.closed L' hL).define s.machine.globals name (hbears.has L' hL)⟩
    activated := ⟨fun l hl N f site hN hsite =>
      Nat.lt_of_lt_of_le (h.activated.below l hl N f site hN hsite) hlater.frames,
      h.activated.inner, h.activated.spent⟩
    labelled := fun L' R hL hR =>
      (h.labelled L' R hL hR).defineGlobal name (hbears.fixed L' R hL hR)
    values := fun w hw => (h.values w hw).later _ (fun _ hl => hl) hlater }

theorem clearGlobals : Hosts L vs { s with machine := s.machine.clearGlobals } := by
  have hmade (f : FrameId) (site : Site)
      (hf : (World.ofLaunches L s.machine.bindings s.machine.globals h.kept.sound).Made f site) :
      f ≠ s.machine.globals := by
    obtain ⟨N, ⟨l, hl, hN⟩, hsite⟩ := hf
    exact Nat.ne_of_gt (h.activated.inner l hl N f site hN hsite)
  have hcount : s.machine.clearGlobals.frames.count = s.machine.frames.count :=
    Frames.count_clear ..
  have hprecedes : s.machine.Precedes s.machine.clearGlobals :=
    ⟨Nat.le_of_eq hcount.symm, Nat.le_refl _, Nat.le_refl _⟩
  exact {
    kept := ⟨h.kept.sound, h.kept.below, h.kept.unbound, h.kept.free,
      h.kept.stands.clearGlobals hmade⟩
    bound := ⟨h.bound.unspent, h.bound.spent, h.bound.kept, fun L' hL =>
      (h.bound.closed L' hL).clearGlobals⟩
    activated := ⟨fun l hl N f site hN hsite =>
      Nat.lt_of_lt_of_le (h.activated.below l hl N f site hN hsite) hprecedes.frames,
      h.activated.inner, h.activated.spent⟩
    labelled := fun L' R hL hR => (h.labelled L' R hL hR).clearGlobals
    values := fun w hw => {
      good := (h.values w hw).good.imp (fun _ hP => hP) (fun _ hM => hM) fun hf => hf.clear hmade
      has := fun L' hL => ((h.values w hw).has L' hL).later hprecedes
      fixed := (h.values w hw).fixed } }

end Hosts

/-- **What is known of sessions holds for those of a host.** -/
theorem Hosted.hosts (h : Hosted L vs s) : Hosts L vs s := by
  induction h with
  | start maxDepth clock => exact .start maxDepth clock
  | run _ fuel source mode hdone ih => exact ih.run fuel source mode hdone
  | takePrinted _ ih => exact ih.takePrinted
  | literal _ c ih => exact ih.add (ih.kept.bears_literal c)
  | global _ hv ih => exact ih.add (ih.bears_global hv)
  | defineGlobal _ hname hv ih => exact ih.defineGlobal hname hv
  | clearGlobals _ ih => exact ih.clearGlobals

end Session

end ScriptLang
