import ScriptLang.Proofs.Agreement.Preservation

/-!
# Initializers around a moment

On the way from a moment to one of its parts, and on to a part of that, initializers are
entered. Those that are entered and not left are *running* around the last moment
(`Moment.Running`). If the first moment fits, the last one does, with the variables of these
initializers pending (`World.Fits.path`).
-/

namespace ScriptLang

open Scoping (Phrase)
open Relation (ReflTransGen)

/-- The variables whose initializers run around the second moment, in the course of what starts at
the first one. -/
def Moment.Running (M N : Moment) : Pending := fun f x =>
  ∃ N' I, ReflTransGen Part M N' ∧ N'.Initializes f x I ∧ ReflTransGen Part I N

namespace World

variable {W : World} {pending pending' : Pending} {m : Machine}

/-! ## More that is pending -/

section More

variable (hpending : ∀ f x, pending f x → pending' f x)

include hpending

theorem At.more {t : Phrase} (h : W.At pending m t) : W.At pending' m t := by
  obtain ⟨P, hP, hphrase, hlodged⟩ := h
  have hsame : m.frames.Extends (fun _ _ => True) m.frames := .refl _
  exact ⟨P, hP, hphrase, hlodged.mono (.refl W) hsame fun f x hp => .inr (hpending f x hp)⟩

theorem Good.more {v : Value} (h : W.Good m.frames pending v) : W.Good m.frames pending' v := by
  have hsame : m.frames.Extends (fun _ _ => True) m.frames := .refl _
  exact h.mono (.refl W) hsame fun f x hp => .inr (hpending f x hp)

theorem Suits.more {t : Task} (h : W.Suits pending m t) : W.Suits pending' m t := by
  have hsame : m.frames.Extends (fun _ _ => True) m.frames := .refl _
  have hkept (f : FrameId) (x : String) (hp : pending f x) :
      (m.frames.here? f x).isSome ∨ pending' f x := .inr (hpending f x hp)
  cases t with
  | expression e => exact At.more hpending h
  | expressions es => exact At.more hpending h
  | statement s => exact At.more hpending h
  | statements body => exact At.more hpending h
  | declarators ds => exact At.more hpending h
  | loop condition body rounds => exact At.more hpending h
  | topLevel body => exact At.more hpending h
  | apply c arguments =>
    obtain ⟨hc, harity, hvs⟩ := h
    exact ⟨hc.mono (.refl W) hsame hkept, harity, fun v hv => (hvs v hv).more hpending⟩
  | call f arguments =>
    obtain ⟨hf, harity, hvs⟩ := h
    exact ⟨hf.mono (.refl W) hsame hkept, harity, fun v hv => (hvs v hv).more hpending⟩
  | bind f self =>
    obtain ⟨hf, hself⟩ := h
    exact ⟨hf.mono (.refl W) hsame hkept, hself.more hpending⟩

theorem Fits.more {M : Moment} (h : W.Fits pending M) : W.Fits pending' M :=
  ⟨h.happens, h.stands.more hpending, h.suits.more hpending⟩

end More

/-! ## Along a path -/

/-- A part fits, with its variable pending if it is an initializer. -/
theorem Fits.step {M N : Moment} (hM : W.Fits pending M) (h : Part M N) :
    W.Fits (fun f x => pending f x ∨ M.Initializes f x N) N := by
  by_cases hinit : ∃ f x, M.Initializes f x N
  · obtain ⟨f, x, hinit⟩ := hinit
    cases hinit
    exact hM.initializer
  · have hnone (f : FrameId) (x : String) : ¬ M.Initializes f x N :=
      fun h => hinit ⟨f, x, h⟩
    exact (hM.part h (fun N _ => W.preserves N) hnone).more fun _ _ hp => .inl hp

theorem Fits.path {M N : Moment} (hM : W.Fits pending M) (h : ReflTransGen Part M N) :
    W.Fits (fun f x => pending f x ∨ M.Running N f x) N := by
  induction h with
  | refl => exact hM.more fun _ _ hp => .inl hp
  | @tail N N' hpath hlast ih =>
    refine (ih.step hlast).more fun f x hp => ?_
    rcases hp with (hp | ⟨N₀, I, hN₀, hinit, hI⟩) | hp
    · exact .inl hp
    · exact .inr ⟨N₀, I, hN₀, hinit, hI.tail hlast⟩
    · exact .inr ⟨N, N', hpath, hp, .refl⟩

/-- A variable with an initializer is not named by a keyword. -/
theorem Fits.free {M I : Moment} {f : FrameId} {x : String} (hM : W.Fits pending M)
    (h : M.Initializes f x I) : IsFree x := by
  cases h
  have hat : W.At pending _ _ := hM.suits
  exact hat.wellFormed.1

end World

end ScriptLang
