import ScriptLang.Proofs.Relabelling.Places
import ScriptLang.Proofs.Scoping.Locals
import ScriptLang.Proofs.Sessions.History

/-!
# Other names for local variables

A local variable or parameter is known by the scope that it is in and by its name
(`Launch.Declares`), and its references are those that are bound to this scope and have this name
(`Launch.Binds`). The labels of `Launch.relabelling` give both of them another name, and change nothing
else.

If the other name is no keyword and does not occur in the program, these labels fit together
everywhere in the program (`Launch.Renames.fits`): the name cannot clash with anything in the scope,
and on the way from a reference to its scope nothing is called so. Hence the program is accepted under
the other name, and has the same bindings (`Launch.Renames.resolve`).
-/

namespace ScriptLang

open Scoping (Place Site Visits Phrase)
open Relation (ReflTransGen)

/-- A function or class that is declared at a place is one of its phrase. -/
theorem Scoping.Place.Names.mem_itemNames {P : Place} {x : String} (h : P.Names x) :
    x ∈ P.phrase.itemNames := by
  cases h <;> exact List.mem_singleton_self _

namespace Launch

variable {l : Launch} {s : Session} {P P' : Place} {site : Site} {ref : Ref} {x y : String}

/-! ## One place for each reference -/

/-- A reference is in the statements of a program or in the trailing expression, and not in
both. -/
theorem Root.eq (hl : l.Follows s) (h : l.Root P) (h' : l.Root P') {id : Nat}
    (hid : id ∈ P.phrase.ids) (hid' : id ∈ P'.phrase.ids) : P' = P := by
  have hdistinct := (List.nodup_append'.mp hl.proper.distinct).2.2
  have htrailing {e : Expr} (he : l.program.trailing = some e)
      (hmem : id ∈ (Phrase.expression e).ids) :
      id ∈ (Phrase.expressions l.program.trailing.toList).ids := by
    rw [he]
    simpa using hmem
  cases h with
  | statements =>
    cases h' with
    | statements => rfl
    | trailing he => exact absurd (htrailing he hid') (hdistinct hid)
  | trailing he =>
    cases h' with
    | statements => exact absurd (htrailing he hid) (hdistinct hid')
    | trailing he' =>
      cases he.symm.trans he'
      rfl

theorem Places.mem_ids (h : l.Places P) {id : Nat} (hid : id ∈ P.phrase.ids) :
    id ∈ l.program.ids := by
  obtain ⟨Q, hQ, hpath⟩ := h
  exact hQ.mem_ids (Visits.path_ids hpath hid)

theorem Places.sound_of_follows (hl : l.Follows s) (h : l.Places P) : P.Sound l.bindings :=
  h.sound fun _ hQ => hQ.sound hl.proper hl.accepted

theorem Places.mentions_eq (hl : l.Follows s) (h : l.Places P) (h' : l.Places P') {ref' : Ref}
    (hP : P.Mentions ref) (hP' : P'.Mentions ref') (hid : ref'.id = ref.id) : P' = P := by
  obtain ⟨Q, hQ, hpath⟩ := h
  obtain ⟨Q', hQ', hpath'⟩ := h'
  have hmem : ref.id ∈ P'.phrase.ids := hid ▸ hP'.mem_ids
  cases hQ.eq hl hQ' (Visits.path_ids hpath hP.mem_ids) (Visits.path_ids hpath' hmem)
  exact hP.eq hP' hid hpath hpath' (hQ.sound hl.proper hl.accepted)

/-- A scope with references in it is opened at one place only. -/
theorem Places.opens_eq (hl : l.Follows s) (h : l.Places P) (h' : l.Places P')
    (hP : P.Opens site) (hP' : P'.Opens site) (hids : site.ids ≠ []) : P' = P := by
  obtain ⟨Q, hQ, hpath⟩ := h
  obtain ⟨Q', hQ', hpath'⟩ := h'
  obtain ⟨id, hid⟩ := List.exists_mem_of_ne_nil _ hids
  cases hQ.eq hl hQ' (Visits.path_ids hpath (hP.ids ▸ hid)) (Visits.path_ids hpath' (hP'.ids ▸ hid))
  exact hP.eq hP' hids hpath hpath' (hQ.sound hl.proper hl.accepted)

theorem Places.tidy (hl : l.Follows s) (h : l.Places P) : P.Tidy := by
  obtain ⟨Q, hQ, hpath⟩ := h
  induction hpath with
  | refl =>
    refine Place.tidy_of_top ?_
    cases hQ <;> rfl
  | @tail P P' hpath hlast ih =>
    have hP : l.Places P := ⟨Q, hQ, hpath⟩
    exact hlast.tidy (hP.sound_of_follows hl) ih

/-- What is spelled at a place is among the words of the program. -/
theorem Places.spells (h : l.Places P) (hx : P.phrase.Spells x) : .identifier x ∈ l.program.words := by
  obtain ⟨Q, hQ, hpath⟩ := h
  have hspells := Visits.path_spells hpath hx
  unfold Program.words
  cases hQ with
  | statements => exact List.mem_append_left _ hspells
  | trailing he =>
    rw [he]
    exact List.mem_append_right _ hspells

/-! ## Local variables -/

/-- The program has a scope with a variable or parameter of the name. -/
structure Declares (l : Launch) (site : Site) (x : String) : Prop where
  opened : ∃ P, l.Places P ∧ P.Opens site
  declared : x ∈ site.varNames

/-- At a place, the variable or parameter `x` is declared in the scope of a site. -/
inductive DeclaredAt : Place → Site → String → Prop
  | declarator {a site S r d rest} :
    DeclaredAt ⟨a, .declarators (d :: rest), site :: S, r⟩ site d.name.text
  | param {a S r routine word} (h : word ∈ routine.params) :
    DeclaredAt ⟨a, .routine routine, S, r⟩ (.routine routine) word.text

/-- The variables that are declared at a place are those of the scope around it. -/
theorem Places.declares (h : l.Places P) {S : List Site} (hsites : P.sites = site :: S)
    (hx : x ∈ P.phrase.varNames) : l.Declares site x := by
  obtain ⟨Q, hQ, hpath⟩ := h
  induction hpath generalizing S with
  | refl => cases hQ <;> cases hsites
  | @tail P P' hpath hlast ih =>
    have hP : l.Places P := ⟨Q, hQ, hpath⟩
    have hsame (hsites' : P'.sites = P.sites) (hx' : x ∈ P.phrase.varNames) : l.Declares site x :=
      ih (hsites' ▸ hsites) hx'
    cases hlast with
    | block =>
      cases hsites
      exact ⟨⟨_, hP, .block⟩, hx⟩
    | body =>
      cases hsites
      exact ⟨⟨_, hP, .routine⟩, List.mem_append_right _ hx⟩
    | declared => exact hsame rfl hx
    | @chosen a S r condition whenTrue whenFalse =>
      refine hsame rfl ?_
      cases whenFalse with
      | none => exact hx
      | some whenFalse => exact List.mem_append_left _ hx
    | alternative => exact hsame rfl (List.mem_append_right _ hx)
    | roundBody => exact hsame rfl hx
    | head => exact hsame rfl (List.mem_append_left _ hx)
    | tail => exact hsame rfl (List.mem_append_right _ hx)
    | afterInitializer => exact hsame rfl (List.mem_cons_of_mem _ hx)
    | afterName => exact hsame rfl (List.mem_cons_of_mem _ hx)
    | _ => cases hx

theorem DeclaredAt.declares (h : DeclaredAt P site x) (hP : l.Places P) : l.Declares site x := by
  cases h with
  | declarator => exact hP.declares rfl List.mem_cons_self
  | param hword => exact ⟨⟨_, hP, .routine⟩, List.mem_append_left _ (List.mem_map_of_mem hword)⟩

/-- The program mentions the reference, and it is bound to the scope. -/
def Binds (l : Launch) (site : Site) (ref : Ref) : Prop :=
  ∃ P hops, l.Places P ∧ P.Mentions ref ∧ l.bindings.hops? ref.id = some hops ∧
    P.sites[hops]? = some site

theorem Binds.mem_ids (h : l.Binds site ref) : ref.id ∈ l.program.ids := by
  obtain ⟨P, -, hP, hmentions, -⟩ := h
  exact hP.mem_ids hmentions.mem_ids

/-- The one place of a reference decides to which scope it is bound. -/
theorem binds_iff (hl : l.Follows s) (hP : l.Places P) (hmentions : P.Mentions ref) :
    l.Binds site ref ↔ ∃ hops, l.bindings.hops? ref.id = some hops ∧ P.sites[hops]? = some site := by
  refine ⟨fun h => ?_, fun h => ?_⟩
  · obtain ⟨P', hops, hP', hmentions', hbound, hsite⟩ := h
    cases hP.mentions_eq hl hP' hmentions hmentions' rfl
    exact ⟨hops, hbound, hsite⟩
  · obtain ⟨hops, hbound, hsite⟩ := h
    exact ⟨P, hops, hP, hmentions, hbound, hsite⟩

namespace Declares

variable (h : l.Declares site x) (hl : l.Follows s)

include h

theorem mem_ids {id : Nat} (hid : id ∈ site.ids) : id ∈ l.program.ids := by
  obtain ⟨P, hP, hopens⟩ := h.opened
  exact hP.mem_ids (hopens.ids ▸ hid)

include hl

theorem proper : site.Proper := by
  obtain ⟨P, hP, hopens⟩ := h.opened
  exact (hP.sound_of_follows hl).proper_of_opens hopens

/-- A local that is declared is used, so there are references in its scope. -/
theorem ids_ne_nil : site.ids ≠ [] := (h.proper hl).referred (List.ne_nil_of_mem h.declared)

/-- There is a reference of the program in the scope. -/
theorem exists_id : ∃ id ∈ site.ids, id ∈ l.program.ids := by
  obtain ⟨id, hid⟩ := List.exists_mem_of_ne_nil _ (h.ids_ne_nil hl)
  exact ⟨id, hid, h.mem_ids hid⟩

theorem free : IsFree x := by
  obtain ⟨P, hP, hopens⟩ := h.opened
  exact (hP.sound_of_follows hl).free_of_opens hopens h.declared

end Declares

/-! ## Another name -/

open Classical in
/-- The labels under which the variable `x` in the scope of a site is called `y`, where it is declared
and where the program refers to it. -/
noncomputable def relabelling (l : Launch) (site : Site) (x y : String) : Relabelling where
  id := id
  word ref := if l.Binds site ref ∧ ref.word.text = x then y else ref.word.text
  names other := if other = site then Equiv.swap x y else Equiv.refl String

/-- The variable `x` in the scope of a site may be called `y`. -/
structure Renames (l : Launch) (site : Site) (x y : String) : Prop where
  declares : l.Declares site x
  free : IsFree y
  new : .identifier y ∉ l.program.words

theorem names_relabelling_self : (l.relabelling site x y).names site = Equiv.swap x y := if_pos rfl

theorem names_relabelling_of_ne {other : Site} (h : other ≠ site) :
    (l.relabelling site x y).names other = Equiv.refl String := if_neg h

/-- Names that are neither the old one nor the new one stay in every scope. -/
theorem names_relabelling_of_other {z : String} (hx : z ≠ x) (hy : z ≠ y) (other : Site) :
    (l.relabelling site x y).names other z = z := by
  by_cases hother : other = site
  · rw [hother, names_relabelling_self, Equiv.swap_apply_of_ne_of_ne hx hy]
  · rw [names_relabelling_of_ne hother]
    rfl

theorem word_relabelling_of_binds (h : l.Binds site ref) (hx : ref.word.text = x) :
    (l.relabelling site x y).word ref = y := if_pos ⟨h, hx⟩

theorem word_relabelling_of_ne (h : ref.word.text ≠ x) :
    (l.relabelling site x y).word ref = ref.word.text := if_neg fun hx => h hx.2

theorem word_relabelling_of_not_binds (h : ¬ l.Binds site ref) :
    (l.relabelling site x y).word ref = ref.word.text := if_neg fun hx => h hx.1

namespace Renames

variable (h : l.Renames site x y) (hl : l.Follows s)

include h

theorem ne_of_declares (hP : l.Places P) {z : String} (hz : P.Declares z) : z ≠ y := by
  rintro rfl
  exact h.new (hP.spells hz.spells)

include hl

/-- Nothing that the program refers to is called by the new name. -/
theorem ne_of_mentions (hP : l.Places P) (hmentions : P.Mentions ref) : ref.word.text ≠ y := by
  rintro rfl
  exact h.new (hP.spells (hmentions.spells (hP.sound_of_follows hl) h.free))

omit hl in
theorem lawful : (l.relabelling site x y).Lawful (· = y) where
  injective := Function.injective_id
  self members := by
    obtain ⟨P, -, hopens⟩ := h.declares.opened
    refine names_relabelling_of_ne ?_
    rintro rfl
    cases hopens
  super members := by
    obtain ⟨P, -, hopens⟩ := h.declares.opened
    refine names_relabelling_of_ne ?_
    rintro rfl
    cases hopens
  this_used heq := this_not_free (heq ▸ h.free)
  super_used heq := super_not_free (heq ▸ h.free)

/-- The name by which a reference asks is what the variable is called in its scope. -/
theorem names_of_bound (hP : l.Places P) (hmentions : P.Mentions ref) {hops : Nat} {other : Site}
    (hbound : l.bindings.hops? ref.id = some hops) (hother : P.sites[hops]? = some other) :
    (l.relabelling site x y).names other ref.word.text = (l.relabelling site x y).word ref := by
  have hy := h.ne_of_mentions hl hP hmentions
  by_cases hx : ref.word.text = x
  · by_cases heq : other = site
    · subst heq
      have hbinds : l.Binds other ref := ⟨P, hops, hP, hmentions, hbound, hother⟩
      rw [names_relabelling_self, word_relabelling_of_binds hbinds hx, hx, Equiv.swap_apply_left]
    · have hbinds : ¬ l.Binds site ref := fun hbinds => by
        obtain ⟨hops', hbound', hsite⟩ := (binds_iff hl hP hmentions).mp hbinds
        cases hbound.symm.trans hbound'
        exact heq (Option.some.inj (hother.symm.trans hsite))
      rw [names_relabelling_of_ne heq, word_relabelling_of_not_binds hbinds]
      rfl
  · rw [names_relabelling_of_other hx hy, word_relabelling_of_ne hx]

theorem suits (hP : l.Places P) {hops : Option Nat} (hseeks : P.Seeks ref hops) :
    (l.relabelling site x y).Suits (· = y) P.sites ref hops := by
  have hmentions := hseeks.mentions
  have hbound : l.bindings.hops? ref.id = hops := (hP.sound_of_follows hl).seeks hseeks
  refine ⟨fun k other hk hother => ?_, fun i other _ _ => ?_, fun hnone => ?_⟩
  · exact h.names_of_bound hl hP hmentions (hbound.trans hk) hother
  · by_cases hx : ref.word.text = x
    · by_cases hword : (l.relabelling site x y).names other ref.word.text =
          (l.relabelling site x y).word ref
      · exact .inl hword
      · -- Of `x` and `y` the reference has one, and the scope gives that name to the other.
        refine .inr ?_
        by_cases hbinds : l.Binds site ref
        · rw [word_relabelling_of_binds hbinds hx] at hword ⊢
          have heq : other ≠ site := by
            rintro rfl
            exact hword (by rw [names_relabelling_self, hx, Equiv.swap_apply_left])
          rw [names_relabelling_of_ne heq]
          rfl
        · rw [word_relabelling_of_not_binds hbinds, hx] at hword ⊢
          have heq : other = site := by
            by_contra heq
            exact hword (by rw [names_relabelling_of_ne heq]; rfl)
          rw [heq, names_relabelling_self, Equiv.symm_swap, Equiv.swap_apply_left]
    · rw [names_relabelling_of_other hx (h.ne_of_mentions hl hP hmentions), word_relabelling_of_ne hx]
      exact .inl rfl
  · refine word_relabelling_of_not_binds fun hbinds => ?_
    obtain ⟨k, hk, -⟩ := (binds_iff hl hP hmentions).mp hbinds
    cases (hbound.trans hnone).symm.trans hk

/-- Functions and classes keep their names. -/
theorem keeps (hP : l.Places P) {z : String} (hz : P.Names z) :
    (l.relabelling site x y).innermost P.sites z = z := by
  have hy : z ≠ y := h.ne_of_declares hP (.names hz)
  have htidy := hP.tidy hl
  cases hsites : P.sites with
  | nil => rfl
  | cons other S =>
    by_cases heq : other = site
    · subst heq
      have hitem : z ∈ other.itemNames := htidy.items other S hsites z hz.mem_itemNames
      have hx := ((h.declares.proper hl).ne h.declares.declared hitem).symm
      exact names_relabelling_of_other hx hy other
    · exact congrFun (congrArg DFunLike.coe (names_relabelling_of_ne heq)) z

/-- **The labels fit together in the whole program.** -/
theorem fits (hP : l.Places P) : P.Fits (l.relabelling site x y) (· = y) := by
  refine ⟨h.lawful, fun Q hQ => ?_⟩
  have hplaces : l.Places Q := by
    obtain ⟨Q₀, hQ₀, hpath⟩ := hP
    exact ⟨Q₀, hQ₀, hpath.trans hQ⟩
  exact ⟨fun ref hops hseeks => h.suits hl hplaces hseeks, fun z hz => h.keeps hl hplaces hz,
    fun z hz => h.ne_of_declares hplaces hz⟩

/-- **The program is accepted under the other name, with the same bindings.** -/
theorem resolve :
    (l.program.relabel (l.relabelling site x y)).resolve l.machine.globalNames = .ok l.bindings := by
  obtain ⟨b, hb, hrenumbered⟩ := Program.resolve_relabel (h.fits hl Root.statements.places)
    (fun e he => h.fits hl (Root.trailing he).places) hl.accepted
  rw [hb, hrenumbered.eq_of_id]

end Renames

end Launch

end ScriptLang
