import ScriptLang.Proofs.Scoping.Places

/-!
# Where references are bound

A reference is bound to a scope that has its name: if the table of an accepted program says
that a reference is so many scopes in, then at the place of the reference the scope there
contains the name (`Place.Sound.binds`). For `super` it is a scope around the methods of a
class with a superclass, and the scope just inside it is the one with `this`
(`Shaped.super_at`).
-/

namespace ScriptLang.Scoping

/-! ## Scopes by number -/

theorem contains_of_sameNames {ss ss' : List Scope} (h : List.Forall₂ SameNames ss ss')
    {k : Nat} {s' : Scope} {x : String} (hs' : ss'[k]? = some s') (hx : s'.contains x) :
    ∃ s, ss[k]? = some s ∧ s.contains x := by
  induction h generalizing k with
  | nil => simp at hs'
  | @cons s t ss ss' hst _ ih =>
    cases k with
    | zero =>
      simp only [List.getElem?_cons_zero, Option.some.injEq] at hs'
      subst hs'
      exact ⟨s, rfl, by rwa [hst] at hx⟩
    | succ k => exact ih hs'

theorem Widened.contains_of {names : List String} {ss ss' : List Scope}
    (h : Widened names ss ss') {k : Nat} {s' : Scope} {x : String} (hs' : ss'[k]? = some s')
    (hx : s'.contains x) (hnew : x ∉ names) : ∃ s, ss[k]? = some s ∧ s.contains x := by
  cases ss with
  | nil =>
    cases ss' with
    | nil => simp at hs'
    | cons t ss' => exact h.elim
  | cons s ss =>
    cases ss' with
    | nil => exact h.elim
    | cons t ss' =>
      cases k with
      | zero =>
        simp only [List.getElem?_cons_zero, Option.some.injEq] at hs'
        subst hs'
        exact ⟨s, rfl, ((h.1 x).mp hx).resolve_right hnew⟩
      | succ k => exact contains_of_sameNames h.2 hs' hx

/-! ## Bindings -/

namespace Resolution

variable {r r' : Resolution} {ref : Ref} {k : Nat}

theorem found_report_ne_nil (r : Resolution) (word : Lexeme) (fault : ScopeFault) :
    (r.report word fault).found ≠ [] := by
  unfold report
  simp

theorem scope_of_bind? {skipped : Nat} (h : r.bind? ref skipped = some r')
    (hk : r'.bindings.hops? ref.id = some k) :
    ∃ scope, r.scopes[k]? = some scope ∧ scope.contains ref.word.text := by
  unfold bind? at h
  split at h
  · cases h
  · rename_i i hi
    cases h
    rw [Bindings.hops?_bind, if_pos rfl] at hk
    cases hk
    obtain ⟨hlt, hcontains, -⟩ := List.findIdx?_eq_some_iff_getElem.mp hi
    rw [List.getElem_drop] at hcontains
    rw [List.length_drop] at hlt
    exact ⟨_, List.getElem?_eq_getElem (by omega), hcontains⟩

theorem scope_of_refer (hnone : r.bindings.hops? ref.id = none)
    (hk : (r.refer ref).bindings.hops? ref.id = some k) :
    ∃ scope, r.scopes[k]? = some scope ∧ scope.contains ref.word.text := by
  unfold refer at hk
  cases h : r.bind? ref with
  | none =>
    rw [h, Option.getD_none, hnone] at hk
    cases hk
  | some r' =>
    rw [h] at hk
    exact scope_of_bind? h hk

theorem scope_of_read (hnone : r.bindings.hops? ref.id = none)
    (hk : (r.read ref).bindings.hops? ref.id = some k) :
    ∃ scope, r.scopes[k]? = some scope ∧ scope.contains ref.word.text := by
  unfold read at hk
  split at hk
  · split at hk
    · rename_i r' h
      exact scope_of_bind? h hk
    · have hsame : r.bindings.hops? ref.id = some k := by
        split at hk <;> exact hk
      rw [hnone] at hsame
      cases hsame
  · exact scope_of_refer hnone hk

end Resolution

/-! ## References at a place -/

/-- The phrase at a place is one that refers to something itself. -/
inductive Place.Mentions : Place → Ref → Prop
  | variable {a S r ref} : Mentions ⟨a, .expression (.variable ref), S, r⟩ ref
  | assign {a S r ref value} : Mentions ⟨a, .expression (.assign ref value), S, r⟩ ref
  | this {a S r ref} : Mentions ⟨a, .expression (.this ref), S, r⟩ ref
  | super {a S r ref method} : Mentions ⟨a, .expression (.super ref method), S, r⟩ ref
  | superclass {a S r name ref members} :
    Mentions ⟨a, .statement (.class name (some ref) members), S, r⟩ ref

theorem Place.Mentions.mem_ids {P : Place} {ref : Ref} (h : P.Mentions ref) :
    ref.id ∈ P.phrase.ids := by
  cases h <;> simp

/-- A class of an accepted program does not inherit from itself, and its superclass is looked up once
its name is declared. -/
theorem Place.Sound.superclass {table : Bindings} {a : Surroundings} {name : Lexeme} {ref : Ref}
    {members : List Method} {S : List Site} {r : Resolution}
    (hP : Place.Sound table ⟨a, .statement (.class name (some ref) members), S, r⟩) :
    ref.word.text ≠ name.text ∧ ((r.declare name).define name).bindings.hops? ref.id = none ∧
      table.hops? ref.id = (((r.declare name).define name).read ref).bindings.hops? ref.id := by
  have hdistinct := hP.distinct
  have hnew : ref.id ∉ (Phrase.methods members).ids := by
    rw [Phrase.ids_subclass, List.nodup_cons] at hdistinct
    exact hdistinct.1
  have hdeclared : Resolution.Grows [] [name.text] r ((r.declare name).define name) :=
    Resolution.grows_declareDefine name
  have hafter : Resolution.Later ((Phrase.methods members).ids ++ [])
      (((r.declare name).define name).enterClass name (some ref))
      (Place.after ⟨a, .statement (.class name (some ref) members), S, r⟩) :=
    (Resolution.Later.of_walk (a.inClass (some ref)) (.methods members) _).trans
      (.of_leaveClass _ (some ref))
  have hne : ref.word.text ≠ name.text := by
    intro hself
    have hfound := hafter.found
    rw [hP.quiet, List.prefix_nil] at hfound
    have hread : Resolution.Grows [ref.id] [] (((r.declare name).define name).report ref.word
        .inheritsFromItself) _ := Resolution.grows_read (List.mem_singleton_self ref.id)
    simp only [Resolution.enterClass, if_pos hself] at hfound
    exact absurd (hread.quiet hfound) (Resolution.found_report_ne_nil _ _ _)
  refine ⟨hne, ?_, ?_⟩
  · rw [hdeclared.bindings _ List.not_mem_nil]
    exact hP.unbound ref.id (by simp)
  · rw [hP.agrees ref.id (by simp), hafter.bindings ref.id (by simpa using hnew)]
    simp only [Resolution.enterClass, if_neg hne]
    rfl

/-- A reference is bound to a scope that has its name. -/
theorem Place.Sound.binds {table : Bindings} {P : Place} (hP : P.Sound table) {ref : Ref}
    (hmentions : P.Mentions ref) {k : Nat} (hk : table.hops? ref.id = some k) :
    ∃ scope, P.state.scopes[k]? = some scope ∧ scope.contains ref.word.text := by
  have hquiet := hP.quiet
  have hdistinct := hP.distinct
  have hagrees (id : Nat) (hid : id ∈ P.phrase.ids) := hP.agrees id hid
  have hunbound (id : Nat) (hid : id ∈ P.phrase.ids) := hP.unbound id hid
  cases hmentions with
  | @«variable» a S r =>
    rw [hagrees ref.id (by simp)] at hk
    exact Resolution.scope_of_read (hunbound ref.id (by simp)) hk
  | @assign a S r _ value =>
    rw [hagrees ref.id (by simp)] at hk
    have hvalue := expression_grows a value r
    have hnew : ref.id ∉ (Phrase.expression value).ids := by
      simp only [Phrase.ids_assign, List.nodup_cons] at hdistinct
      exact hdistinct.1
    have hnone : (expression a value r).bindings.hops? ref.id = none := by
      rw [hvalue.bindings _ hnew]
      exact hunbound ref.id (by simp)
    obtain ⟨scope, hscope, hx⟩ := Resolution.scope_of_refer hnone hk
    exact hvalue.scopes.contains_of hscope hx (by simp)
  | @this a S r =>
    rw [hagrees ref.id (by simp)] at hk
    have hk' : (r.referThis a ref).bindings.hops? ref.id = some k := hk
    have hnone := hunbound ref.id (by simp)
    unfold Resolution.referThis at hk'
    split at hk'
    · have hsame : r.bindings.hops? ref.id = some k := hk'
      rw [hnone] at hsame
      cases hsame
    · exact Resolution.scope_of_refer hnone hk'
  | @super a S r =>
    rw [hagrees ref.id (by simp)] at hk
    have hk' : (r.referSuper a ref).bindings.hops? ref.id = some k := hk
    have hnone : r.bindings.hops? ref.id = none := hunbound ref.id (by simp)
    have hreport (fault : ScopeFault) :
        (r.report ref.word fault).bindings.hops? ref.id = none := hnone
    unfold Resolution.referSuper at hk'
    dsimp only at hk'
    split at hk'
    · have hscope := Resolution.scope_of_refer (hreport _) hk'
      exact hscope
    · have hscope := Resolution.scope_of_refer (hreport _) hk'
      exact hscope
    · exact Resolution.scope_of_refer hnone hk'
  | @superclass a S r name _ members =>
    obtain ⟨hne, hnone, hread⟩ := hP.superclass
    rw [hread] at hk
    have hdeclared : Resolution.Grows [] [name.text] r ((r.declare name).define name) :=
      Resolution.grows_declareDefine name
    obtain ⟨scope, hscope, hx⟩ := Resolution.scope_of_read hnone hk
    exact hdeclared.scopes.contains_of hscope hx (by simpa using hne)

/-! ## Scopes for `this` and `super` -/

/-- Only a scope for `super` has that name, and the scope just inside it is for `this`. -/
theorem Shaped.super_at {S : List Site} {scopes : List Scope} (h : Shaped S scopes) {k : Nat}
    {scope : Scope} (hk : scopes[k]? = some scope) (hx : scope.contains "super") :
    ∃ j members inner, k = j + 1 ∧ S[k]? = some (.super members) ∧
      S[j]? = some (.self members) ∧ scopes[j]? = some inner ∧ inner.contains "this" := by
  induction h generalizing k with
  | top => simp at hk
  | block hscope _ ih =>
    cases k with
    | zero =>
      cases hk
      exact absurd (hscope _ hx) super_not_free
    | succ k =>
      obtain ⟨j, members, inner, rfl, hS, hself, hinner, hthis⟩ := ih hk
      exact ⟨j + 1, members, inner, rfl, hS, hself, hinner, hthis⟩
  | routine hscope _ ih =>
    cases k with
    | zero =>
      cases hk
      exact absurd (hscope _ hx) super_not_free
    | succ k =>
      obtain ⟨j, members, inner, rfl, hS, hself, hinner, hthis⟩ := ih hk
      exact ⟨j + 1, members, inner, rfl, hS, hself, hinner, hthis⟩
  | base hthis _ ih =>
    cases k with
    | zero =>
      cases hk
      rcases hthis.2 _ hx with heq | hfree
      · exact absurd heq (by decide)
      · exact absurd hfree super_not_free
    | succ k =>
      obtain ⟨j, members, inner, rfl, hS, hself, hinner, hthis⟩ := ih hk
      exact ⟨j + 1, members, inner, rfl, hS, hself, hinner, hthis⟩
  | @derived members S this super scopes hthis hsuper _ ih =>
    match k with
    | 0 =>
      cases hk
      rcases hthis.2 _ hx with heq | hfree
      · exact absurd heq (by decide)
      · exact absurd hfree super_not_free
    | 1 => exact ⟨0, members, this, rfl, rfl, rfl, rfl, hthis.1⟩
    | k + 2 =>
      obtain ⟨j, members, inner, rfl, hS, hself, hinner, hthis⟩ := ih hk
      exact ⟨j + 2, members, inner, rfl, hS, hself, hinner, hthis⟩

/-! ## Places of methods -/

/-- The walk over methods visits each of them in the same scopes. -/
theorem exists_method_place {P : Place} {members : List Method}
    (hP : P.phrase = .methods members) {m : Method} (hm : m ∈ members) :
    ∃ Q, Relation.ReflTransGen Visits P Q ∧ Q.phrase = .routine m.routine ∧
      Q.sites = P.sites ∧ Q.around = P.around.within (.ofMethod m.name.text) ∧
      List.Forall₂ SameNames P.state.scopes Q.state.scopes := by
  induction members generalizing P with
  | nil => simp at hm
  | cons first rest ih =>
    obtain ⟨a, t, S, r⟩ := P
    obtain ⟨name, routine⟩ := first
    cases hP
    rcases List.mem_cons.mp hm with rfl | hm
    · exact ⟨_, .single .method, rfl, rfl, rfl, forall₂_sameNames_refl _⟩
    · obtain ⟨Q, hpath, hphrase, hsites, haround, hnames⟩ :=
        ih (P := ⟨a, .methods rest, S, routineBody (a.within (.ofMethod name.text)) routine r⟩)
          rfl hm
      refine ⟨Q, .head .otherMethods hpath, hphrase, hsites, haround, ?_⟩
      have hfirst := routineBody_grows (a.within (.ofMethod name.text)) routine r
      exact forall₂_sameNames_trans (widened_nil_iff.mp hfirst.scopes) hnames

end ScriptLang.Scoping
