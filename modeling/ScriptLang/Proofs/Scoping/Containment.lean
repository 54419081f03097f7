import ScriptLang.Proofs.Scoping.Places

/-!
# Phrases inside phrases

A phrase contains what the walk over it goes over (`Phrase.Contains`), whatever the scopes are in
which that is done. The references of what is contained are among those of the whole.
-/

namespace ScriptLang.Scoping

open Relation (ReflTransGen)

/-- The walk over the first phrase goes over the second one next. -/
def Phrase.Holds (t t' : Phrase) : Prop :=
  ∃ a S r a' S' r', Visits ⟨a, t, S, r⟩ ⟨a', t', S', r'⟩

/-- The second phrase is inside the first one, or it is the same. -/
abbrev Phrase.Contains : Phrase → Phrase → Prop := ReflTransGen Phrase.Holds

theorem Visits.ids {P P' : Place} (h : Visits P P') {id : Nat} (hid : id ∈ P'.phrase.ids) :
    id ∈ P.phrase.ids := by
  cases h with
  | @choice _ _ _ _ _ whenFalse => cases whenFalse <;> simp_all
  | @chosen _ _ _ _ _ whenFalse => cases whenFalse <;> simp_all
  | @members _ _ _ _ superclass => cases superclass <;> simp_all
  | _ => simp_all

theorem Phrase.Contains.ids {t t' : Phrase} (h : t.Contains t') {id : Nat} (hid : id ∈ t'.ids) :
    id ∈ t.ids := by
  induction h with
  | refl => exact hid
  | tail _ hlast ih =>
    obtain ⟨a, S, r, a', S', r', hvisits⟩ := hlast
    exact ih (hvisits.ids hid)

end ScriptLang.Scoping
