import ScriptLang.Proofs.Scoping.Containment
import ScriptLang.Proofs.Scoping.References

/-!
# One place for each reference

The references of an accepted program have numbers of their own, so of two places with the same
reference inside, one is inside the other (`Visits.comparable`). Hence there is one place only that
mentions a reference (`Place.Mentions.eq`), and one only that opens a scope with references in it
(`Place.Opens.eq`).
-/

namespace ScriptLang.Scoping

open Relation (ReflTransGen)

variable {table : Bindings} {P Q Q' : Place} {id : Nat}

theorem Visits.path_ids (h : ReflTransGen Visits P Q) (hid : id ∈ Q.phrase.ids) :
    id ∈ P.phrase.ids := by
  induction h with
  | refl => exact hid
  | tail _ hlast ih => exact ih (hlast.ids hid)

/-- The scopes that a visit adds have no references but those of the phrase. -/
theorem Visits.site_ids (h : Visits P Q) {site : Site} (hsite : site ∈ Q.sites) :
    site ∈ P.sites ∨ ∀ id ∈ site.ids, id ∈ P.phrase.ids := by
  cases h with
  | block =>
    rcases List.mem_cons.mp hsite with rfl | hsite
    · exact .inr fun _ hid => hid
    · exact .inl hsite
  | body =>
    rcases List.mem_cons.mp hsite with rfl | hsite
    · exact .inr fun _ hid => hid
    · exact .inl hsite
  | @members a S r name superclass members =>
    cases superclass with
    | none =>
      rcases List.mem_cons.mp hsite with rfl | hsite
      · exact .inr fun _ hid => hid
      · exact .inl hsite
    | some ref =>
      rcases List.mem_cons.mp hsite with rfl | hsite
      · exact .inr fun _ hid => List.mem_cons_of_mem _ hid
      · rcases List.mem_cons.mp hsite with rfl | hsite
        · exact .inr fun _ hid => List.mem_cons_of_mem _ hid
        · exact .inl hsite
  | _ => exact .inl hsite

/-- Only one of the places that are visited next has a given reference inside. -/
theorem Visits.eq (h : Visits P Q) (h' : Visits P Q') (hdistinct : P.phrase.ids.Nodup)
    (hid : id ∈ Q.phrase.ids) (hid' : id ∈ Q'.phrase.ids) : Q' = Q := by
  -- Different visits go to parts whose references are listed one after the other.
  cases h with
  | @choice _ _ _ _ _ whenFalse =>
    cases whenFalse <;> cases h' <;> first | rfl | (simp [List.nodup_append] at hdistinct; grind)
  | @chosen _ _ _ _ _ whenFalse =>
    cases whenFalse <;> cases h' <;> first | rfl | (simp [List.nodup_append] at hdistinct; grind)
  | _ =>
    cases h' <;> first | rfl | (simp [List.nodup_append] at hdistinct; grind [Phrase.ids_routine])

/-- Of two places of an accepted program with the same reference inside, one is inside the other. -/
theorem Visits.comparable (h : ReflTransGen Visits P Q) (h' : ReflTransGen Visits P Q')
    (hsound : P.Sound table) (hid : id ∈ Q.phrase.ids) (hid' : id ∈ Q'.phrase.ids) :
    ReflTransGen Visits Q Q' ∨ ReflTransGen Visits Q' Q := by
  induction h using ReflTransGen.head_induction_on with
  | refl => exact .inl h'
  | head hfirst hrest ih =>
    rcases h'.cases_head with rfl | ⟨P₁, hfirst', hrest'⟩
    · exact .inr (.head hfirst hrest)
    · cases hfirst.eq hfirst' hsound.distinct (path_ids hrest hid) (path_ids hrest' hid')
      exact ih hrest' (hfirst.sound hsound)

/-! ## References -/

/-- What a phrase mentions itself is not mentioned by its parts. -/
theorem Place.Mentions.notMem {ref : Ref} (h : P.Mentions ref) (hdistinct : P.phrase.ids.Nodup)
    (hQ : Visits P Q) : ref.id ∉ Q.phrase.ids := by
  cases h <;> cases hQ <;> simp_all

/-- What a place and a place inside it both mention is mentioned at the same place. -/
theorem Place.Mentions.eq_of_path {ref ref' : Ref} (h : P.Mentions ref) (h' : Q.Mentions ref')
    (hdistinct : P.phrase.ids.Nodup) (hid : ref'.id = ref.id) (hpath : ReflTransGen Visits P Q) :
    Q = P := by
  rcases hpath.cases_head with rfl | ⟨P₁, hfirst, hrest⟩
  · rfl
  · have hmem := Visits.path_ids hrest h'.mem_ids
    rw [hid] at hmem
    exact absurd hmem (h.notMem hdistinct hfirst)

/-- A reference is mentioned at one place only. -/
theorem Place.Mentions.eq {ref ref' : Ref} (hQ : Q.Mentions ref) (hQ' : Q'.Mentions ref')
    (hid : ref'.id = ref.id) (h : ReflTransGen Visits P Q) (h' : ReflTransGen Visits P Q')
    (hsound : P.Sound table) : Q' = Q := by
  have hmem : ref.id ∈ Q'.phrase.ids := hid ▸ hQ'.mem_ids
  rcases Visits.comparable h h' hsound hQ.mem_ids hmem with hpath | hpath
  · exact hQ.eq_of_path hQ' (Visits.path_sound h hsound).distinct hid hpath
  · exact (hQ'.eq_of_path hQ (Visits.path_sound h' hsound).distinct hid.symm hpath).symm

/-! ## Scopes -/

/-- The walk over the phrase at a place begins with the scope of a site. -/
inductive Place.Opens : Place → Site → Prop
  | block {a S r body} : Opens ⟨a, .statement (.block body), S, r⟩ (.block body)
  | routine {a S r routine} : Opens ⟨a, .routine routine, S, r⟩ (.routine routine)

theorem Place.Opens.ids {site : Site} (h : P.Opens site) : P.phrase.ids = site.ids := by
  cases h <;> rfl

theorem Place.Opens.phrase_eq {site : Site} (h : P.Opens site) (h' : Q.Opens site) :
    Q.phrase = P.phrase := by
  cases h <;> cases h' <;> rfl

theorem Visits.sizeOf_lt (h : Visits P Q) : sizeOf Q.phrase < sizeOf P.phrase := by
  cases h with
  | @body _ _ _ routine =>
    cases routine
    simp only [Phrase.statements.sizeOf_spec, Phrase.routine.sizeOf_spec, Routine.mk.sizeOf_spec]
    omega
  | _ => simp <;> omega

theorem Visits.eq_of_path (h : ReflTransGen Visits P Q) (hphrase : Q.phrase = P.phrase) :
    Q = P := by
  have hle {P Q : Place} (hpath : ReflTransGen Visits P Q) :
      sizeOf Q.phrase ≤ sizeOf P.phrase := by
    induction hpath with
    | refl => exact Nat.le_refl _
    | tail _ hlast ih => exact Nat.le_trans (Nat.le_of_lt hlast.sizeOf_lt) ih
  rcases h.cases_head with rfl | ⟨P₁, hfirst, hrest⟩
  · rfl
  · have hlt := Nat.lt_of_le_of_lt (hle hrest) hfirst.sizeOf_lt
    rw [hphrase] at hlt
    exact absurd hlt (Nat.lt_irrefl _)

/-- A scope with references in it is opened at one place only. -/
theorem Place.Opens.eq {site : Site} (hQ : Q.Opens site) (hQ' : Q'.Opens site) (hids : site.ids ≠ [])
    (h : ReflTransGen Visits P Q) (h' : ReflTransGen Visits P Q') (hsound : P.Sound table) :
    Q' = Q := by
  obtain ⟨id, hid⟩ := List.exists_mem_of_ne_nil _ hids
  have hphrase := hQ.phrase_eq hQ'
  rcases Visits.comparable h h' hsound (hQ.ids ▸ hid) (hQ'.ids ▸ hid) with hpath | hpath
  · exact Visits.eq_of_path hpath hphrase
  · exact (Visits.eq_of_path hpath hphrase.symm).symm

end ScriptLang.Scoping
