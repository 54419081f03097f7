import ScriptLang.Proofs.Evaluation.Runs

/-!
# One after another

Evaluation does one thing at a time. Of two parts of a moment one is over, with a result, before the
other one begins (`Part.order`). What a part has made by its end is there when the whole ends, too
(`Part.reaches`).

So there is only one moment of a kind in a run, if such moments never come one after the other nor
one inside the other (`Moment.Single`), such as the moment at which a stop is raised.
-/

namespace ScriptLang

open Relation (ReflTransGen)

/-! ## Order -/

/-- The first moment is over before the second one begins. -/
def Moment.Precedes (A B : Moment) : Prop := ∃ a m, A.ending = .ok a m ∧ m.Leads B.machine

open Eval Machine in
/-- **The parts of a moment come one after another.** -/
theorem Part.order {M A B : Moment} (hA : Part M A) (hB : Part M B) :
    A = B ∨ A.Precedes B ∨ B.Precedes A := by
  have hdefining {m : Machine} {name : String} {v : Value} : m.Leads (m.defining name v) :=
    .of_frames (.of_define v (.inr trivial))
  have happly {n m m₁ es vs} (h : expressions (.ofFuel n) es m = .ok vs m₁)
      (hdepth : m₁.depth < m₁.maxDepth) : m.Leads m₁.deeper :=
    (Moment.leads ⟨n, .expressions es, m⟩ h).trans (.of_deeper hdepth)
  have hround {n m m₁ s flow} (h : statement (.ofFuel n) s m = .ok flow m₁) : m.Leads m₁ :=
    Moment.leads ⟨n, .statement s, m⟩ h
  cases hA with
  | callee =>
    cases hB with
    | callee => exact .inl rfl
    | arguments hcallee => exact .inr (.inl ⟨_, _, hcallee, .refl _⟩)
    | apply hcallee harguments _ hdepth =>
      exact .inr (.inl ⟨_, _, hcallee, happly harguments hdepth⟩)
  | arguments hcallee =>
    cases hB with
    | callee => exact .inr (.inr ⟨_, _, hcallee, .refl _⟩)
    | arguments hcallee' =>
      cases hcallee.symm.trans hcallee'
      exact .inl rfl
    | apply hcallee' harguments _ hdepth =>
      cases hcallee.symm.trans hcallee'
      exact .inr (.inl ⟨_, _, harguments, .of_deeper hdepth⟩)
  | apply hcallee harguments _ hdepth =>
    cases hB with
    | callee => exact .inr (.inr ⟨_, _, hcallee, happly harguments hdepth⟩)
    | arguments hcallee' =>
      cases hcallee.symm.trans hcallee'
      exact .inr (.inr ⟨_, _, harguments, .of_deeper hdepth⟩)
    | apply hcallee' harguments' =>
      cases hcallee.symm.trans hcallee'
      cases harguments.symm.trans harguments'
      exact .inl rfl
  | initializer =>
    cases hB with
    | initializer => exact .inl rfl
    | afterInitializer he => exact .inr (.inl ⟨_, _, he, hdefining⟩)
  | afterInitializer he =>
    cases hB with
    | initializer => exact .inr (.inr ⟨_, _, he, hdefining⟩)
    | afterInitializer he' =>
      cases he.symm.trans he'
      exact .inl rfl
  | roundCondition =>
    cases hB with
    | roundCondition => exact .inl rfl
    | roundBody hcondition => exact .inr (.inl ⟨_, _, hcondition, .refl _⟩)
    | nextRound hcondition _ hbody => exact .inr (.inl ⟨_, _, hcondition, hround hbody⟩)
  | roundBody hcondition =>
    cases hB with
    | roundCondition => exact .inr (.inr ⟨_, _, hcondition, .refl _⟩)
    | roundBody hcondition' =>
      cases hcondition.symm.trans hcondition'
      exact .inl rfl
    | nextRound hcondition' _ hbody =>
      cases hcondition.symm.trans hcondition'
      exact .inr (.inl ⟨_, _, hbody, .refl _⟩)
  | nextRound hcondition _ hbody =>
    cases hB with
    | roundCondition => exact .inr (.inr ⟨_, _, hcondition, hround hbody⟩)
    | roundBody hcondition' =>
      cases hcondition.symm.trans hcondition'
      exact .inr (.inr ⟨_, _, hbody, .refl _⟩)
    | nextRound hcondition' _ hbody' =>
      cases hcondition.symm.trans hcondition'
      cases hbody.symm.trans hbody'
      exact .inl rfl
  | constructBind hf =>
    cases hB with
    | constructBind hf' =>
      cases hf.symm.trans hf'
      exact .inl rfl
    | constructCall hf' hg =>
      cases hf.symm.trans hf'
      exact .inr (.inl ⟨_, _, hg, .refl _⟩)
  | constructCall hf hg =>
    cases hB with
    | constructBind hf' =>
      cases hf.symm.trans hf'
      exact .inr (.inr ⟨_, _, hg, .refl _⟩)
    | constructCall hf' hg' =>
      cases hf.symm.trans hf'
      cases hg.symm.trans hg'
      exact .inl rfl
  | _ =>
    -- two parts of one kind are the same, since what comes before them ends in one way only
    cases hB <;> first
      | exact .inl rfl
      | exact .inr (.inl ⟨_, _, ‹_›, .refl _⟩)
      | exact .inr (.inr ⟨_, _, ‹_›, .refl _⟩)
      | exact .inl (by grind)

/-! ## Frames at the end -/

namespace Eval

variable {α β : Type} {k : Nat} {act : Eval α} {next : α → Eval β} {m m₁ : Machine}

/-- However the computation ends, there are so many frames. -/
def Reaches (k : Nat) (act : Eval α) (m : Machine) : Prop :=
  Ends act m (fun _ m' => k ≤ m'.frames.count) fun _ m' => k ≤ m'.frames.count

theorem Keeps.reaches {xs : List String} (h : Keeps xs act m) (hk : k ≤ m.frames.count) :
    Reaches k act m :=
  Ends.mono h (fun _ _ _ h => Nat.le_trans hk h.frames.count) fun _ _ h =>
    Nat.le_trans hk h.frames.count

/-- A computation that only has something left to do that makes no names. -/
theorem reaches_first (h : Reaches k act m) (hnext : ∀ a m₁, Keeps [] (next a) m₁) :
    Reaches k (act >>= next) m :=
  ends_bind h fun a m₁ _ hk => (hnext a m₁).reaches hk

theorem ComesTo.reaches {N : Moment} (h : ComesTo N act m)
    (hN : Reaches k (N.task.perform N.fuel) N.machine) : Reaches k act m := by
  induction h with
  | here => exact hN
  | before _ hnext ih =>
    refine ends_bind ih fun a m₁ _ hk => ?_
    obtain ⟨xs, hkeeps⟩ := hnext a m₁
    exact hkeeps.reaches hk
  | after hact _ ih => exact ends_bind_of_ok hact ih
  | inside _ ih => exact ends_within ih
  | deeper hdepth _ ih =>
    exact ends_deeper (fun hdeep => absurd hdepth (Nat.not_lt.mpr hdeep)) fun _ => ih
  | same hact _ ih =>
    unfold Reaches Ends
    rw [hact]
    exact ih

end Eval

/-- However the evaluation that starts at the moment ends, there are so many frames. -/
def Moment.Reaches (k : Nat) (M : Moment) : Prop :=
  Eval.Reaches k (M.task.perform M.fuel) M.machine

theorem Moment.reaches_of_le {k : Nat} (M : Moment) (hk : k ≤ M.machine.frames.count) :
    M.Reaches k := M.keeps.reaches hk

/-- What a part has made by its end is there when the whole ends. -/
theorem Part.reaches {M N : Moment} {k : Nat} (h : Part M N) (hN : N.Reaches k) : M.Reaches k :=
  h.comesTo.reaches hN

theorem Moment.Reaches.path {M N : Moment} {k : Nat} (h : N.Reaches k)
    (hpath : ReflTransGen Part M N) : M.Reaches k := by
  induction hpath using ReflTransGen.head_induction_on with
  | refl => exact h
  | head hM _ ih => exact hM.reaches ih

theorem Part.leads_path {M N : Moment} (h : ReflTransGen Part M N) : M.machine.Leads N.machine := by
  induction h with
  | refl => exact .refl _
  | tail _ hlast ih => exact ih.trans hlast.leads

/-! ## Once only -/

/-- Moments of a kind never come one after the other, nor one inside the other. -/
structure Moment.Single (C : Moment → Prop) : Prop where
  after : ∀ {A B N₁ N₂}, A.Precedes B → ReflTransGen Part A N₁ → ReflTransGen Part B N₂ →
    C N₁ → ¬ C N₂
  inside : ∀ {M B N}, Part M B → ReflTransGen Part B N → C M → ¬ C N

namespace Moment.Single

variable {C : Moment → Prop} (hC : Single C)

include hC

/-- There is only one such moment in the course of what starts at a moment. -/
theorem eq_of_path (M : Moment) {N₁ N₂ : Moment} (h₁ : ReflTransGen Part M N₁)
    (h₂ : ReflTransGen Part M N₂) (hN₁ : C N₁) (hN₂ : C N₂) : N₁ = N₂ := by
  induction M using Moment.induction with
  | _ M ih =>
    rcases h₁.cases_head with rfl | ⟨A, hA, hpathA⟩
    · rcases h₂.cases_head with rfl | ⟨B, hB, hpathB⟩
      · rfl
      · exact absurd hN₂ (hC.inside hB hpathB hN₁)
    · rcases h₂.cases_head with rfl | ⟨B, hB, hpathB⟩
      · exact absurd hN₁ (hC.inside hA hpathA hN₂)
      · rcases hA.order hB with rfl | hprecedes | hprecedes
        · exact ih A hA hpathA hpathB
        · exact absurd hN₂ (hC.after hprecedes hpathA hpathB hN₁)
        · exact absurd hN₁ (hC.after hprecedes hpathB hpathA hN₂)

/-- There is only one such moment in a run. -/
theorem eq_of_runs {m : Machine} {fuel : Nat} {p : Program} {N₁ N₂ : Moment}
    (h₁ : m.Runs fuel p N₁) (h₂ : m.Runs fuel p N₂) (hN₁ : C N₁) (hN₂ : C N₂) : N₁ = N₂ := by
  have horder {e m₁} (hstatements : Eval.topLevel (.ofFuel fuel) p.statements m.home = .ok () m₁) :
      Precedes ⟨fuel, .topLevel p.statements, m.home⟩ ⟨fuel, .expression e, m₁⟩ :=
    ⟨(), m₁, hstatements, .refl _⟩
  obtain ⟨A, hA, hpathA⟩ := h₁
  obtain ⟨B, hB, hpathB⟩ := h₂
  cases hA with
  | statements =>
    cases hB with
    | statements => exact hC.eq_of_path _ hpathA hpathB hN₁ hN₂
    | trailing _ hstatements =>
      exact absurd hN₂ (hC.after (horder hstatements) hpathA hpathB hN₁)
  | trailing htrailing hstatements =>
    cases hB with
    | statements =>
      exact absurd hN₁ (hC.after (horder hstatements) hpathB hpathA hN₂)
    | trailing htrailing' hstatements' =>
      cases htrailing.symm.trans htrailing'
      cases hstatements.symm.trans hstatements'
      exact hC.eq_of_path _ hpathA hpathB hN₁ hN₂

end Moment.Single

/-- What stops a part in the end stops the whole. -/
theorem Moment.stops_of_path {M N : Moment} (h : ReflTransGen Part M N) {stop : Abort}
    {m' : Machine} (hN : N.ending = .error stop m') : ∃ m₁, M.ending = .error stop m₁ := by
  induction h using ReflTransGen.head_induction_on with
  | refl => exact ⟨m', hN⟩
  | head hM _ ih =>
    obtain ⟨m₁, hstop⟩ := ih
    exact ⟨_, hM.stop hstop⟩

/-- **A stop is raised at one moment only.** -/
theorem Moment.single_raises : Moment.Single fun N => ∃ stop m', N.Raises stop m' where
  after := by
    rintro A B N₁ N₂ ⟨a, m, hend, -⟩ hpathA - ⟨stop, m', hraises, -⟩ -
    obtain ⟨m₁, hstop⟩ := stops_of_path hpathA hraises
    rw [hend] at hstop
    cases hstop
  inside := by
    rintro M B N hB hpath ⟨-, -, -, hparts⟩ ⟨stop, m', hraises, -⟩
    obtain ⟨m₁, hstop⟩ := stops_of_path hpath hraises
    exact hparts B hB stop m₁ hstop

end ScriptLang
