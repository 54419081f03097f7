import ScriptLang.Proofs.Sessions.Hosts
import ScriptLang.Proofs.Sessions.Lookups

/-!
# What happened in a session

The moments of all runs of a session, the next one included, are what happened (`Launch.Happened`).
Each of them fits some world in which there is nothing but what happened (`Hosted.fits`), since its
launch was the next one once (`Hosted.earlier`). No frame is activated at two of these moments
(`Hosted.distinct`): within one run this is so because one moment comes after the other, and a
later run makes frames of its own. `Hosted.coherent` puts this together.
-/

namespace ScriptLang

open Scoping (Place Site)

/-- It is a moment of one of the runs. -/
def Launch.Happened (H : List Launch) (M : Moment) : Prop := ∃ l ∈ H, l.Runs M

theorem Launch.Happened.cases_append {L : List Launch} {l : Launch} {M : Moment}
    (h : Happened (L ++ [l]) M) : Happened L M ∨ l.Runs M := by
  obtain ⟨l', hl', hM⟩ := h
  rcases List.mem_append.mp hl' with hl' | hl'
  · exact .inl ⟨l', hl', hM⟩
  · cases List.mem_singleton.mp hl'
    exact .inr hM

/-- In the world there are no places and moments but those of the launches. Nothing is pending that
is named by a keyword. -/
structure World.Past (H : List Launch) (W : World) (pending : Pending) : Prop where
  globals : W.globals = 0
  placed : ∀ P, W.placed P → ∃ l ∈ H, l.Places P
  happens : ∀ M, W.happens M → Launch.Happened H M
  free : ∀ f x, pending f x → IsFree x

/-- What is known of all that happened in the runs of some launches. -/
structure Launch.Coherent (H : List Launch) : Prop where
  /-- Each moment fits. -/
  fits : ∀ N, Happened H N → ∃ W pending, World.Past H W pending ∧ W.Fits pending N
  /-- No frame is activated at two moments, -/
  activates_eq : ∀ M N f site site', Happened H M → Happened H N → M.Activates f site →
    N.Activates f site' → M = N
  /-- and the global frame never is. -/
  ne_zero : ∀ M f site, Happened H M → M.Activates f site → f ≠ 0

namespace Session

variable {L : List Launch} {vs : List Value} {s : Session} {l l' : Launch}
variable {fuel : Nat} {source : String} {mode : Mode}

/-- Whatever was launched was once the next launch of a session. -/
theorem Hosted.earlier (h : Hosted L vs s) (hl : l ∈ L) :
    ∃ L₀ vs₀ s₀ fuel source mode, Hosted L₀ vs₀ s₀ ∧ s₀.launch? fuel source mode = some l ∧
      ∀ k ∈ L₀ ++ [l], k ∈ L := by
  induction h with
  | start => cases hl
  | @run L vs s h fuel source mode _ ih =>
    rcases List.mem_append.mp hl with hl | hl
    · obtain ⟨L₀, vs₀, s₀, fuel₀, source₀, mode₀, hs₀, hlaunch, hmem⟩ := ih hl
      exact ⟨L₀, vs₀, s₀, fuel₀, source₀, mode₀, hs₀, hlaunch,
        fun k hk => List.mem_append_left _ (hmem k hk)⟩
    · have hlaunch := Option.mem_toList.mp hl
      refine ⟨L, vs, s, fuel, source, mode, h, hlaunch, fun k hk => ?_⟩
      rwa [hlaunch]
  | takePrinted _ ih => exact ih hl
  | literal _ _ ih => exact ih hl
  | global _ _ ih => exact ih hl
  | defineGlobal _ _ _ ih => exact ih hl
  | clearGlobals _ ih => exact ih hl

/-- The global frame is always the same one. -/
theorem Hosted.globals_eq (h : Hosted L vs s) : s.machine.globals = 0 := by
  induction h with
  | start => rfl
  | run _ fuel source mode _ ih =>
    rw [(later_run _ fuel source mode).globals]
    exact ih
  | takePrinted _ ih => exact ih
  | literal _ _ ih => exact ih
  | global _ _ ih => exact ih
  | defineGlobal _ _ _ ih => exact ih
  | clearGlobals _ ih => exact ih

/-! ## Activations -/

/-- A launch does not activate frames of earlier runs. -/
theorem Activated.ne_of_launch (h : Activated L s) (hmachine : l.machine = s.machine)
    {M N : Moment} (hM : Launch.Happened L M) (hN : l.Runs N) {f g : FrameId} {site site' : Site}
    (hf : M.Activates f site) (hg : N.Activates g site') : f < g := by
  obtain ⟨l', hl', hM⟩ := hM
  have hlt := h.below l' hl' M f site hM hf
  have hle : l.start.frames.count ≤ g := Machine.Runs.count_le hN hg
  rw [l.start_frames, hmachine] at hle
  exact Nat.lt_of_lt_of_le hlt hle

/-- In the runs so far, no frame is activated at two moments. -/
def Distinct (H : List Launch) : Prop :=
  ∀ M N f site site', Launch.Happened H M → Launch.Happened H N → M.Activates f site →
    N.Activates f site' → M = N

theorem Activated.distinct (h : Activated L s) (hmachine : l.machine = s.machine)
    (hL : Distinct L) : Distinct (L ++ [l]) := by
  intro M N f site site' hM hN hf hf'
  rcases hM.cases_append with hM | hM
  · rcases hN.cases_append with hN | hN
    · exact hL M N f site site' hM hN hf hf'
    · exact absurd (h.ne_of_launch hmachine hM hN hf hf') (Nat.lt_irrefl f)
  · rcases hN.cases_append with hN | hN
    · exact absurd (h.ne_of_launch hmachine hN hM hf' hf) (Nat.lt_irrefl f)
    · exact (Moment.single_activates f).eq_of_runs hM hN ⟨site, hf⟩ ⟨site', hf'⟩

theorem Hosted.distinct (h : Hosted L vs s) : Distinct L := by
  induction h with
  | start =>
    rintro M N f site site' ⟨l, hl, -⟩
    cases hl
  | @run L vs s h fuel source mode _ ih =>
    cases hlaunch : s.launch? fuel source mode with
    | none =>
      rw [Option.toList_none, List.append_nil]
      exact ih
    | some l => exact h.hosts.activated.distinct (machine_of_launch hlaunch) ih
  | takePrinted _ ih => exact ih
  | literal _ _ ih => exact ih
  | global _ _ ih => exact ih
  | defineGlobal _ _ _ ih => exact ih
  | clearGlobals _ ih => exact ih

section Next

variable (hs : Hosted L vs s) (hlaunch : s.launch? fuel source mode = some l)

include hs hlaunch

/-- The global frame is never activated. -/
theorem Hosted.ne_zero {M : Moment} {f : FrameId} {site : Site}
    (hM : Launch.Happened (L ++ [l]) M) (hf : M.Activates f site) : f ≠ 0 := by
  rcases hM.cases_append with ⟨l', hl', hM⟩ | hM
  · exact Nat.ne_zero_of_lt (hs.hosts.activated.inner l' hl' M f site hM hf)
  · have hle : l.start.frames.count ≤ f := Machine.Runs.count_le hM hf
    have hlt : s.machine.globals < s.machine.frames.count := hs.hosts.kept.stands.globals_lt
    rw [l.start_frames, machine_of_launch hlaunch] at hle
    exact Nat.ne_zero_of_lt (Nat.lt_of_lt_of_le hlt hle)

/-- Whatever happened in a session fits. -/
theorem Hosted.fits {N : Moment} (hN : Launch.Happened (L ++ [l]) N) :
    ∃ W pending, World.Past (L ++ [l]) W pending ∧ W.Fits pending N := by
  obtain ⟨l', hl', hN⟩ := hN
  obtain ⟨L₀, vs₀, s₀, fuel₀, source₀, mode₀, hs₀, hlaunch₀, hmem⟩ :
      ∃ L₀ vs₀ s₀ fuel source mode, Hosted L₀ vs₀ s₀ ∧ s₀.launch? fuel source mode = some l' ∧
        ∀ k ∈ L₀ ++ [l'], k ∈ L ++ [l] := by
    rcases List.mem_append.mp hl' with hl' | hl'
    · obtain ⟨L₀, vs₀, s₀, fuel₀, source₀, mode₀, hs₀, hlaunch₀, hmem⟩ := hs.earlier hl'
      exact ⟨L₀, vs₀, s₀, fuel₀, source₀, mode₀, hs₀, hlaunch₀,
        fun k hk => List.mem_append_left _ (hmem k hk)⟩
    · cases List.mem_singleton.mp hl'
      exact ⟨L, vs, s, fuel, source, mode, hs, hlaunch, fun k hk => hk⟩
  have hl := follows_of_launch hlaunch₀
  have hkept := hs₀.hosts.kept
  refine ⟨hkept.next hl, _, ⟨?_, ?_, ?_, fun f x hx => hkept.free_of_unfinished hl hx⟩,
    hkept.fits hl hN⟩
  · change l'.machine.globals = 0
    rw [hl.machine, hs₀.globals_eq]
  · rintro P ⟨k, hk, hP⟩
    exact ⟨k, hmem k hk, hP⟩
  · rintro M ⟨k, hk, hM⟩
    exact ⟨k, hmem k hk, hM⟩

/-- **All that happened in a session, the next run included, is coherent.** -/
theorem Hosted.coherent : Launch.Coherent (L ++ [l]) where
  fits _ hN := hs.fits hlaunch hN
  activates_eq := hs.hosts.activated.distinct (machine_of_launch hlaunch) hs.distinct
  ne_zero _ _ _ hM hf := hs.ne_zero hlaunch hM hf

end Next

end Session

end ScriptLang
