import ScriptLang.Proofs.Scoping.References

/-!
# Methods around a place

`this` and `super` mean something only inside a method. The sites around a place say which method
that is: the innermost routine that stands right inside a scope with `this`
(`Place.InMethod`). Only methods stand there (`Place.Nested`), so the scope with `this` is the one
right outside the innermost method, however many functions and blocks there are inside of it, and
the scope with `super` is the next one, if the class of the method has a superclass.

At a place of an accepted program, `this` and `super` are bound to just these scopes
(`Place.Sound.this_inMethod`, `Place.Sound.super_inMethod`).
-/

namespace ScriptLang.Scoping

/-! ## Classes around -/

/-- Whether the innermost class among the sites has a superclass, if there is a class. -/
def descentOf : List Site → Option Descent
  | [] => none
  | .self _ :: .super _ :: _ => some .derived
  | .self _ :: _ => some .base
  | _ :: S => descentOf S

/-- The sites around a place are nested as they can be in a program. -/
structure Place.Nested (P : Place) : Prop where
  /-- The walk knows what the innermost class is. -/
  descent : P.around.descent = descentOf P.sites
  /-- Right inside a scope with `this` there are only the methods of the class. -/
  inner : ∀ members, P.sites[0]? = some (.self members) →
    (∃ rest, P.phrase = .methods rest ∧ rest ⊆ members) ∨
      ∃ method ∈ members, P.phrase = .routine method.routine
  routines : ∀ k members, P.sites[k + 1]? = some (.self members) →
    ∃ method ∈ members, P.sites[k]? = some (.routine method.routine)
  /-- Right inside a scope with `super` there is the one with `this`. -/
  outer : ∀ members, P.sites[0]? ≠ some (.super members)

namespace Place.Nested

variable {P P' : Place}

/-- Outside all scopes. -/
theorem top {a : Surroundings} {t : Phrase} {r : Resolution} (h : a.descent = none) :
    Place.Nested ⟨a, t, [], r⟩ := ⟨h, by simp, by simp, by simp⟩

/-- Another phrase in the same scopes, which are not those around methods. -/
theorem same (h : P.Nested) (hsites : P'.sites = P.sites)
    (haround : P'.around.descent = P.around.descent)
    (hmethods : ∀ rest, P.phrase ≠ .methods rest) (hroutine : ∀ r, P.phrase ≠ .routine r) :
    P'.Nested where
  descent := by rw [haround, hsites, h.descent]
  inner members hS := by
    rw [hsites] at hS
    rcases h.inner members hS with ⟨rest, hphrase, -⟩ | ⟨method, -, hphrase⟩
    · exact absurd hphrase (hmethods rest)
    · exact absurd hphrase (hroutine method.routine)
  routines := hsites ▸ h.routines
  outer := hsites ▸ h.outer

/-- Another phrase in the scopes around methods. -/
theorem sameClass (h : P.Nested) (hsites : P'.sites = P.sites)
    (haround : P'.around.descent = P.around.descent)
    (hinner : ∀ members, P.sites[0]? = some (Site.self members) →
      (∃ rest, P'.phrase = .methods rest ∧ rest ⊆ members) ∨
        ∃ method ∈ members, P'.phrase = .routine method.routine) :
    P'.Nested where
  descent := by rw [haround, hsites, h.descent]
  inner := hsites ▸ hinner
  routines := hsites ▸ h.routines
  outer := hsites ▸ h.outer

/-- The methods of a class. -/
theorem inClass {a : Surroundings} {t : Phrase} {S : List Site} {r r' : Resolution}
    (h : Place.Nested ⟨a, t, S, r⟩) (hmethods : ∀ rest, t ≠ .methods rest)
    (hroutine : ∀ r, t ≠ .routine r) (superclass : Option Ref) (members : List Method) :
    Place.Nested ⟨a.inClass superclass, .methods members, classSites superclass members S, r'⟩ := by
  -- nothing but methods is right inside a scope with `this`
  have hnone (members' : List Method) : S[0]? ≠ some (Site.self members') := fun hS => by
    rcases h.inner members' hS with ⟨rest, hphrase, -⟩ | ⟨method, -, hphrase⟩
    · exact hmethods rest hphrase
    · exact hroutine method.routine hphrase
  cases superclass with
  | none =>
    refine ⟨?_, fun members' hS => ?_, fun k members' hk => ?_, by simp [classSites]⟩
    · cases S with
      | nil => rfl
      | cons site S =>
        cases site with
        | super members' => exact absurd rfl (h.outer members')
        | _ => rfl
    · cases hS
      exact .inl ⟨members, rfl, List.Subset.refl _⟩
    · cases k with
      | zero => exact absurd hk (hnone members')
      | succ k => exact h.routines k members' hk
  | some ref =>
    refine ⟨rfl, fun members' hS => ?_, fun k members' hk => ?_, by simp [classSites]⟩
    · cases hS
      exact .inl ⟨members, rfl, List.Subset.refl _⟩
    · match k with
      | 0 => cases hk
      | 1 => exact absurd hk (hnone members')
      | k + 2 => exact h.routines k members' hk

end Place.Nested

/-- What is visited is nested as it can be in a program, too. -/
theorem Visits.nested {P P' : Place} (h : Visits P P') (hP : P.Nested) : P'.Nested := by
  cases h with
  | block =>
    refine ⟨hP.descent, by simp, fun k members hk => ?_, by simp⟩
    cases k with
    | zero => rcases hP.inner members hk with ⟨rest, hphrase, -⟩ | ⟨method, -, hphrase⟩ <;> cases hphrase
    | succ k => exact hP.routines k members hk
  | body =>
    refine ⟨hP.descent, by simp, fun k members hk => ?_, by simp⟩
    cases k with
    | zero =>
      rcases hP.inner members hk with ⟨rest, hphrase, -⟩ | ⟨method, hmethod, hphrase⟩
      · cases hphrase
      · cases hphrase
        exact ⟨method, hmethod, rfl⟩
    | succ k => exact hP.routines k members hk
  | @members a S r name superclass members =>
    exact hP.inClass (by simp) (by simp) superclass members
  | method =>
    refine hP.sameClass rfl rfl fun members hS => .inr ?_
    rcases hP.inner members hS with ⟨rest, hphrase, hsubset⟩ | ⟨method, -, hphrase⟩
    · cases hphrase
      exact ⟨_, hsubset List.mem_cons_self, rfl⟩
    · cases hphrase
  | otherMethods =>
    refine hP.sameClass rfl rfl fun members hS => .inl ?_
    rcases hP.inner members hS with ⟨rest, hphrase, hsubset⟩ | ⟨method, -, hphrase⟩
    · cases hphrase
      exact ⟨_, rfl, fun _ hmethod => hsubset (List.mem_cons_of_mem _ hmethod)⟩
    · cases hphrase
  | _ => exact hP.same rfl rfl (by simp) (by simp)

theorem Visits.path_nested {P Q : Place} (h : Relation.ReflTransGen Visits P Q) (hP : P.Nested) :
    Q.Nested := by
  induction h with
  | refl => exact hP
  | tail _ hlast ih => exact hlast.nested ih

/-! ## The innermost method -/

/-- The innermost method around a place: the routine so many scopes out is that of a method of the
class, and the next scope is the innermost one with `this`. -/
structure Place.InMethod (P : Place) (depth : Nat) (members : List Method) (method : Method) :
    Prop where
  member : method ∈ members
  routine : P.sites[depth]? = some (.routine method.routine)
  self : P.sites[depth + 1]? = some (.self members)
  innermost : ∀ k ≤ depth, ∀ members', P.sites[k]? ≠ some (.self members')

/-- Only a scope around methods has the name `this`. -/
theorem Shaped.this_at {S : List Site} {scopes : List Scope} (h : Shaped S scopes) {k : Nat}
    {scope : Scope} (hk : scopes[k]? = some scope) :
    scope.contains "this" ↔ ∃ members, S[k]? = some (Site.self members) := by
  induction h generalizing k with
  | top => simp at hk
  | block hscope _ ih =>
    cases k with
    | zero =>
      cases hk
      exact ⟨fun hx => absurd (hscope _ hx) this_not_free, by simp⟩
    | succ k => exact ih hk
  | routine hscope _ ih =>
    cases k with
    | zero =>
      cases hk
      exact ⟨fun hx => absurd (hscope _ hx) this_not_free, by simp⟩
    | succ k => exact ih hk
  | @base members _ _ _ hthis _ ih =>
    cases k with
    | zero =>
      cases hk
      exact ⟨fun _ => ⟨members, rfl⟩, fun _ => hthis.1⟩
    | succ k => exact ih hk
  | @derived members _ _ _ _ hthis hsuper _ ih =>
    match k with
    | 0 =>
      cases hk
      exact ⟨fun _ => ⟨members, rfl⟩, fun _ => hthis.1⟩
    | 1 =>
      cases hk
      refine ⟨fun hx => ?_, by simp⟩
      rcases hsuper.2 _ hx with heq | hfree
      · exact absurd heq (by decide)
      · exact absurd hfree this_not_free
    | k + 2 => exact ih hk

/-- A scope right outside one with `this` is that of a superclass, or it is not in a class. -/
theorem Shaped.super_after {S : List Site} {scopes : List Scope} (h : Shaped S scopes) {k : Nat}
    {members members' : List Method} (hself : S[k]? = some (Site.self members))
    (hsuper : S[k + 1]? = some (Site.super members')) :
    members' = members ∧ ∃ scope, scopes[k + 1]? = some scope ∧ scope.contains "super" := by
  induction h generalizing k with
  | top => simp at hself
  | block _ _ ih =>
    cases k with
    | zero => cases hself
    | succ k => exact ih hself hsuper
  | routine _ _ ih =>
    cases k with
    | zero => cases hself
    | succ k => exact ih hself hsuper
  | base _ h ih =>
    cases k with
    | zero =>
      rw [List.getElem?_cons_succ] at hsuper
      cases h <;> cases hsuper
    | succ k => exact ih hself hsuper
  | derived _ hholds _ ih =>
    match k with
    | 0 =>
      cases hself
      cases hsuper
      exact ⟨rfl, _, rfl, hholds.1⟩
    | 1 => cases hself
    | k + 2 => exact ih hself hsuper

/-- The innermost class among some sites. -/
theorem exists_of_descentOf {S : List Site} {d : Descent} (h : descentOf S = some d) :
    ∃ k members, S[k]? = some (Site.self members) ∧
      (∀ j < k, ∀ members', S[j]? ≠ some (Site.self members')) ∧
      (d = .derived → ∃ members', S[k + 1]? = some (Site.super members')) := by
  induction S with
  | nil => cases h
  | cons site S ih =>
    have houtside (hsite : ∀ members, site ≠ .self members) (hS : descentOf S = some d) :
        ∃ k members, (site :: S)[k]? = some (Site.self members) ∧
          (∀ j < k, ∀ members', (site :: S)[j]? ≠ some (Site.self members')) ∧
          (d = .derived → ∃ members', (site :: S)[k + 1]? = some (Site.super members')) := by
      obtain ⟨k, members, hself, hinner, hsuper⟩ := ih hS
      refine ⟨k + 1, members, hself, fun j hj members' => ?_, hsuper⟩
      cases j with
      | zero => simpa using hsite members'
      | succ j => exact hinner j (Nat.lt_of_succ_lt_succ hj) members'
    cases site with
    | block body => exact houtside (by simp) h
    | routine r => exact houtside (by simp) h
    | super members => exact houtside (by simp) h
    | self members =>
      refine ⟨0, members, rfl, by simp, ?_⟩
      rintro rfl
      cases S with
      | nil => cases h
      | cons site S =>
        cases site with
        | super members' => exact ⟨members', rfl⟩
        | _ => cases h

/-- A place in a class is in one of its methods, unless it is one of them or all of them. -/
theorem Place.Nested.exists_method {P : Place} (h : P.Nested) {d : Descent}
    (hdescent : P.around.descent = some d) (hmethods : ∀ rest, P.phrase ≠ .methods rest)
    (hroutine : ∀ r, P.phrase ≠ .routine r) :
    ∃ depth members method, P.InMethod depth members method ∧
      (d = .derived → ∃ members', P.sites[depth + 2]? = some (Site.super members')) := by
  rw [h.descent] at hdescent
  obtain ⟨k, members, hself, hinner, hsuper⟩ := exists_of_descentOf hdescent
  cases k with
  | zero =>
    rcases h.inner members hself with ⟨rest, hphrase, -⟩ | ⟨method, -, hphrase⟩
    · exact absurd hphrase (hmethods rest)
    · exact absurd hphrase (hroutine method.routine)
  | succ depth =>
    obtain ⟨method, hmethod, hsite⟩ := h.routines depth members hself
    exact ⟨depth, members, method,
      ⟨hmethod, hsite, hself, fun k hk => hinner k (Nat.lt_succ_of_le hk)⟩, hsuper⟩

/-! ## Where `this` and `super` are bound -/

/-- A reference is bound to the innermost scope with its name. -/
theorem Resolution.hops?_refer_innermost {r : Resolution} {ref : Ref} {k : Nat} {scope : Scope}
    (hk : r.scopes[k]? = some scope) (hscope : scope.contains ref.word.text)
    (hinner : ∀ j < k, ∀ scope', r.scopes[j]? = some scope' → ¬ scope'.contains ref.word.text) :
    (r.refer ref).bindings.hops? ref.id = some k := by
  have hfind : (r.scopes.drop 0).findIdx? (·.contains ref.word.text) = some k := by
    obtain ⟨hlt, rfl⟩ := List.getElem?_eq_some_iff.mp hk
    rw [List.drop_zero, List.findIdx?_eq_some_iff_getElem]
    exact ⟨hlt, hscope, fun j hj => hinner j hj _ (List.getElem?_eq_getElem _)⟩
  unfold refer bind?
  rw [hfind]
  dsimp only [Option.getD_some]
  rw [Bindings.hops?_bind, if_pos rfl, Nat.zero_add]

theorem Shaped.length_eq {S : List Site} {scopes : List Scope} (h : Shaped S scopes) :
    scopes.length = S.length := by
  induction h with
  | top => rfl
  | block _ _ ih => rw [List.length_cons, ih, List.length_cons]
  | routine _ _ ih => rw [List.length_cons, ih, List.length_cons]
  | base _ _ ih => rw [List.length_cons, ih, List.length_cons]
  | derived _ _ _ ih => simp only [List.length_cons, ih]

section Sound

variable {table : Bindings} {a : Surroundings} {S : List Site} {r : Resolution} {ref : Ref}

/-- `this` is in a method, and it is bound to the scope right outside. -/
theorem Place.Sound.this_inMethod
    (hP : Place.Sound table ⟨a, .expression (.this ref), S, r⟩)
    (hnested : Place.Nested ⟨a, .expression (.this ref), S, r⟩) :
    ∃ depth members method, Place.InMethod ⟨a, .expression (.this ref), S, r⟩ depth members method ∧
      table.hops? ref.id = some (depth + 1) := by
  have hword : ref.word.text = "this" := hP.wellFormed
  have hquiet : (r.referThis a ref).found = [] := hP.quiet
  have hagrees : table.hops? ref.id = (r.referThis a ref).bindings.hops? ref.id :=
    hP.agrees ref.id (by simp)
  unfold Resolution.referThis at hquiet hagrees
  cases hdescent : a.descent with
  | none =>
    rw [hdescent] at hquiet
    simp [Resolution.report] at hquiet
  | some d =>
    rw [hdescent] at hagrees
    obtain ⟨depth, members, method, hmethod, -⟩ :=
      hnested.exists_method hdescent (by simp) (by simp)
    refine ⟨depth, members, method, hmethod, hagrees.trans ?_⟩
    have hshaped : Shaped S r.scopes := hP.shaped
    have hlt : depth + 1 < r.scopes.length := by
      rw [hshaped.length_eq]
      exact (List.getElem?_eq_some_iff.mp hmethod.self).1
    have hscope := List.getElem?_eq_getElem hlt
    refine Resolution.hops?_refer_innermost hscope ?_ fun j hj scope hj' => ?_
    · rw [hword, hshaped.this_at hscope]
      exact ⟨members, hmethod.self⟩
    · rw [hword, hshaped.this_at hj']
      rintro ⟨members', hself⟩
      exact hmethod.innermost j (Nat.le_of_lt_succ hj) members' hself

/-- `super` is in a method of a class with a superclass, and it is bound to the scope right outside
the one with `this`. -/
theorem Place.Sound.super_inMethod {name : Lexeme}
    (hP : Place.Sound table ⟨a, .expression (.super ref name), S, r⟩)
    (hnested : Place.Nested ⟨a, .expression (.super ref name), S, r⟩) :
    ∃ depth members method,
      Place.InMethod ⟨a, .expression (.super ref name), S, r⟩ depth members method ∧
      S[depth + 2]? = some (Site.super members) ∧ table.hops? ref.id = some (depth + 2) := by
  have hword : ref.word.text = "super" := hP.wellFormed
  have hquiet : (r.referSuper a ref).found = [] := hP.quiet
  have hagrees : table.hops? ref.id = (r.referSuper a ref).bindings.hops? ref.id :=
    hP.agrees ref.id (by simp)
  -- a fault would still be there after the reference was bound
  have hreport (fault : ScopeFault) : ((r.report ref.word fault).refer ref).found ≠ [] := by
    have hgrows : Resolution.Grows [ref.id] [] (r.report ref.word fault) _ :=
      Resolution.grows_refer (List.mem_singleton_self ref.id)
    intro hnil
    have hprefix := hgrows.found
    rw [hnil, List.prefix_nil] at hprefix
    simp [Resolution.report] at hprefix
  unfold Resolution.referSuper at hquiet hagrees
  cases hdescent : a.descent with
  | none =>
    rw [hdescent] at hquiet
    exact absurd hquiet (hreport _)
  | some d =>
    cases d with
    | base =>
      rw [hdescent] at hquiet
      exact absurd hquiet (hreport _)
    | derived =>
      rw [hdescent] at hagrees
      obtain ⟨depth, members, method, hmethod, hsuper⟩ :=
        hnested.exists_method hdescent (by simp) (by simp)
      obtain ⟨members', hsite⟩ := hsuper rfl
      have hshaped : Shaped S r.scopes := hP.shaped
      obtain ⟨rfl, scope, hscope, hcontains⟩ := hshaped.super_after hmethod.self hsite
      refine ⟨depth, members', method, hmethod, hsite, hagrees.trans ?_⟩
      refine Resolution.hops?_refer_innermost hscope (hword ▸ hcontains) fun j hj scope' hj' hx => ?_
      rw [hword] at hx
      obtain ⟨i, members'', -, rfl, -, hself, -, -⟩ := hshaped.super_at hj' hx
      exact hmethod.innermost i (by omega) members'' hself

end Sound

end ScriptLang.Scoping
