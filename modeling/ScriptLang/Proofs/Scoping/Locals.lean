import Mathlib.Data.List.Perm.Basic
import ScriptLang.Proofs.Scoping.Uniqueness

/-!
# The names of a site

The text of a site says which variables and parameters its scope has (`Site.varNames`), and which
functions and classes (`Site.itemNames`). In an accepted program they all have different names, and a
scope that has variables has references inside it, since no local is left unused (`Site.Proper`).
This holds of all the scopes around a place (`Visits.tidy`).
-/

namespace ScriptLang

/-- The variables that a statement declares in the scope around it. -/
def Stmt.varNames : Stmt → List String
  | .vars declarators => declarators.map (·.name.text)
  | .ifElse _ whenTrue none => whenTrue.varNames
  | .ifElse _ whenTrue (some whenFalse) => whenTrue.varNames ++ whenFalse.varNames
  | .whileLoop _ body => body.varNames
  | _ => []

/-- The functions and classes that a statement declares in the scope around it. -/
def Stmt.itemNames : Stmt → List String
  | .ifElse _ whenTrue none => whenTrue.itemNames
  | .ifElse _ whenTrue (some whenFalse) => whenTrue.itemNames ++ whenFalse.itemNames
  | .whileLoop _ body => body.itemNames
  | .function name _ => [name.text]
  | .class name _ _ => [name.text]
  | _ => []

/-- A statement declares variables, functions and classes. -/
theorem Stmt.declares_perm : (s : Stmt) → s.declares.Perm (s.varNames ++ s.itemNames)
  | .vars ds => by simp [declares, varNames, itemNames]
  | .ifElse _ whenTrue none => declares_perm whenTrue
  | .ifElse _ whenTrue (some whenFalse) => by
    have hboth := (declares_perm whenTrue).append (declares_perm whenFalse)
    rw [declares, varNames, itemNames]
    refine hboth.trans ?_
    rw [List.append_assoc, List.append_assoc]
    refine List.Perm.append_left _ ?_
    rw [← List.append_assoc, ← List.append_assoc]
    exact List.perm_append_comm.append_right _
  | .whileLoop _ body => declares_perm body
  | .function _ _ | .class _ _ _ => .refl _
  | .expression _ | .print _ | .block _ | .breakLoop _ | .returnFrom _ _ => .refl _

theorem Stmt.flatMap_declares_perm (body : List Stmt) :
    (body.flatMap declares).Perm (body.flatMap varNames ++ body.flatMap itemNames) := by
  have hall : (body.flatMap declares).Perm (body.flatMap fun s => s.varNames ++ s.itemNames) :=
    List.Perm.flatMap_left body fun s _ => s.declares_perm
  exact hall.trans (List.flatMap_append_perm body varNames itemNames).symm

namespace Scoping

open Relation (ReflTransGen)

/-! ## Names -/

/-- The variables that a phrase declares in the scope around it. -/
def Phrase.varNames : Phrase → List String
  | statement s => s.varNames
  | statements body => body.flatMap Stmt.varNames
  | declarators ds => ds.map (·.name.text)
  | _ => []

/-- The functions and classes that a phrase declares in the scope around it. -/
def Phrase.itemNames : Phrase → List String
  | statement s => s.itemNames
  | statements body => body.flatMap Stmt.itemNames
  | _ => []

/-- The variables of a scope, its parameters included. -/
def Site.varNames : Site → List String
  | block body => body.flatMap Stmt.varNames
  | routine r => r.params.map (·.text) ++ r.body.flatMap Stmt.varNames
  | self _ | super _ => []

/-- The functions and classes of a scope. -/
def Site.itemNames : Site → List String
  | block body => body.flatMap Stmt.itemNames
  | routine r => r.body.flatMap Stmt.itemNames
  | self _ | super _ => []

/-- The scope has no name twice, and if it has variables, there are references inside it. -/
structure Site.Proper (site : Site) : Prop where
  distinct : (site.varNames ++ site.itemNames).Nodup
  referred : site.varNames ≠ [] → site.ids ≠ []

theorem Site.Proper.ne {site : Site} (h : site.Proper) {x y : String} (hx : x ∈ site.varNames)
    (hy : y ∈ site.itemNames) : x ≠ y := by
  rintro rfl
  exact (List.nodup_append'.mp h.distinct).2.2 hx hy

/-! ## Names that are new -/

/-- The names are different, and the scope does not have them. -/
def NewTo (scope : Scope) (names : List String) : Prop :=
  names.Nodup ∧ ∀ x ∈ names, scope.contains x = false

theorem NewTo.append {scope scope' : Scope} {xs ys : List String} (hxs : NewTo scope xs)
    (hscope : ∀ x, scope'.contains x ↔ scope.contains x ∨ x ∈ xs) (hys : NewTo scope' ys) :
    NewTo scope (xs ++ ys) := by
  have hlater (x : String) (hx : x ∈ ys) : ¬ (scope.contains x = true ∨ x ∈ xs) := by
    rw [← hscope, hys.2 x hx]
    exact Bool.false_ne_true
  refine ⟨List.nodup_append'.mpr ⟨hxs.1, hys.1, fun x hx hx' => hlater x hx' (.inr hx)⟩,
    fun x hx => ?_⟩
  rcases List.mem_append.mp hx with hx | hx
  · exact hxs.2 x hx
  · exact Bool.eq_false_iff.mpr fun hold => hlater x hx (.inl hold)

section Quiet

open Resolution

variable {r r' : Resolution} {scope : Scope} {scopes : List Scope} {ids : List Nat}
  {names : List String}

theorem newTo_declare {word : Lexeme} (h : (r.declare word).found = [])
    (hscopes : r.scopes = scope :: scopes) : NewTo scope [word.text] := by
  refine ⟨List.nodup_singleton _, fun x hx => ?_⟩
  rw [List.mem_singleton.mp hx]
  refine Bool.eq_false_iff.mpr fun hcontains => ?_
  unfold declare at h
  rw [hscopes] at h
  simp [hcontains, report] at h

/-- Where a walk declares names in the innermost scope and then goes on, all those that it declares
are new to the scope. -/
theorem NewTo.then {r₁ : Resolution} {xs ys : List String} (hxs : NewTo scope xs)
    (h : r.Grows ids xs r₁) (hscopes : r.scopes = scope :: scopes)
    (hys : ∀ scope' scopes', r₁.scopes = scope' :: scopes' → NewTo scope' ys) :
    NewTo scope (xs ++ ys) := by
  obtain ⟨scope', tail, hr₁, hcontains, -⟩ := h.scopes.of_cons hscopes
  exact hxs.append hcontains (hys scope' tail hr₁)

theorem newTo_declareAll {words : List Lexeme} (h : (r.declareAll words).found = [])
    (hscopes : r.scopes = scope :: scopes) : NewTo scope (words.map (·.text)) := by
  induction words generalizing r scope scopes with
  | nil => exact ⟨.nil, by simp⟩
  | cons word words ih =>
    have hfirst : Grows [] [word.text] r ((r.declare word).define word) := grows_declareDefine word
    have hrest : Grows [] (words.map (·.text)) ((r.declare word).define word)
        (((r.declare word).define word).declareAll words) := grows_declareAll words
    have hdefine : Grows [] [] (r.declare word) ((r.declare word).define word) := grows_define word
    have hquiet := hdefine.quiet (hrest.quiet h)
    exact (newTo_declare hquiet hscopes).then hfirst hscopes fun _ _ hr₁ => ih h hr₁

theorem newTo_declarators (a : Surroundings) {ds : List Declarator}
    (h : (declarators a ds r).found = []) (hscopes : r.scopes = scope :: scopes) :
    NewTo scope (ds.map (·.name.text)) := by
  induction ds generalizing r scope scopes with
  | nil => exact ⟨.nil, by simp⟩
  | cons d ds ih =>
    obtain ⟨name, initializer⟩ := d
    cases initializer with
    | none =>
      have hname : Grows [] [name.text] r ((r.declare name).define name) :=
        grows_declareDefine name
      have hdefine : Grows [] [] (r.declare name) ((r.declare name).define name) :=
        grows_define name
      have hquiet := hdefine.quiet ((declarators_grows a ds _).quiet h)
      exact (newTo_declare hquiet hscopes).then hname hscopes fun _ _ hr₁ => ih h hr₁
    | some e =>
      have hname := ((grows_declare name).andThen (expression_grows a e (r.declare name))).andThen
        (grows_define name)
      have hdefine : Grows [] [] (expression a e (r.declare name))
          ((expression a e (r.declare name)).define name) := grows_define name
      have hquiet := (expression_grows a e (r.declare name)).quiet
        (hdefine.quiet ((declarators_grows a ds _).quiet h))
      exact (newTo_declare hquiet hscopes).then hname hscopes fun _ _ hr₁ => ih h hr₁

theorem newTo_statement (a : Surroundings) {s : Stmt} (hs : s.WellFormed)
    (h : (statement a s r).found = []) (hscopes : r.scopes = scope :: scopes) :
    NewTo scope s.declares := by
  have hnone : NewTo scope [] := ⟨.nil, by simp⟩
  have hnamed (name : Lexeme) {r₁ : Resolution} {ids : List Nat}
      (hrest : Grows ids [] ((r.declare name).define name) r₁) (hquiet : r₁.found = []) :
      NewTo scope [name.text] := by
    have hdefine : Grows [] [] (r.declare name) ((r.declare name).define name) := grows_define name
    exact newTo_declare (hdefine.quiet (hrest.quiet hquiet)) hscopes
  cases s with
  | vars ds => exact newTo_declarators a h hscopes
  | ifElse condition whenTrue whenFalse =>
    cases whenFalse with
    | none =>
      rw [Stmt.declares, hs.2.2]
      exact hnone
    | some whenFalse =>
      rw [Stmt.declares, hs.2.1.2, hs.2.2.2]
      exact hnone
  | whileLoop condition body =>
    rw [Stmt.declares, hs.2.2]
    exact hnone
  | function name routine => exact hnamed name (routineBody_grows _ routine _) h
  | «class» name superclass members =>
    have hwalk : Later _ (((r.declare name).define name).enterClass name superclass) _ :=
      .of_walk (a.inClass superclass) (.methods members) _
    have hclass := ((Later.of_enterClass _ name superclass).trans hwalk).trans
      (.of_leaveClass _ superclass)
    have hprefix := hclass.found
    have hdefine : Grows [] [] (r.declare name) ((r.declare name).define name) := grows_define name
    refine newTo_declare (hdefine.quiet ?_) hscopes
    exact List.prefix_nil.mp (h ▸ hprefix)
  | _ => exact hnone

theorem newTo_statements (a : Surroundings) {body : List Stmt} (hbody : Stmt.AllWellFormed body)
    (h : (statements a body r).found = []) (hscopes : r.scopes = scope :: scopes) :
    NewTo scope (body.flatMap Stmt.declares) := by
  induction body generalizing r scope scopes with
  | nil => exact ⟨.nil, by simp⟩
  | cons s body ih =>
    have hquiet := (statements_grows a body _).quiet h
    exact (newTo_statement a hbody.1 hquiet hscopes).then (statement_grows a s r) hscopes
      fun _ _ hr₁ => ih hbody.2 h hr₁

/-- A scope that has got names and is left without a fault has references inside it. -/
theorem referred_of_leave (h : (r.enter .empty).Grows ids names r') (hquiet : r'.leave.found = [])
    (hnames : names ≠ []) : ids ≠ [] := by
  intro hnone
  obtain ⟨scope', tail, hr', hcontains, -⟩ := h.scopes.of_cons rfl
  obtain ⟨x, hx⟩ := List.exists_mem_of_ne_nil names hnames
  obtain ⟨l, hl⟩ := Option.isSome_iff_exists.mp ((hcontains x).mpr (.inr hx))
  have hused := h.used hnone
  rw [hr'] at hused
  cases hused with
  | cons hsame _ =>
    obtain ⟨l₀, hl₀, -⟩ := hsame x l hl (used_of_leave hquiet hr' hl)
    cases hl₀

end Quiet

/-! ## Proper scopes -/

theorem Site.nodup_of_perm {site : Site} {names : List String} (hnew : NewTo .empty names)
    (hperm : names.Perm (site.varNames ++ site.itemNames)) :
    (site.varNames ++ site.itemNames).Nodup := hperm.nodup_iff.mp hnew.1

theorem Place.Sound.proper_block {table : Bindings} {a : Surroundings} {body : List Stmt}
    {S : List Site} {r : Resolution} (h : Place.Sound table ⟨a, .statement (.block body), S, r⟩) :
    (Site.block body).Proper := by
  have hgrows := statements_grows a body r.enter
  have hquiet : (statements a body r.enter).leave.found = [] := h.quiet
  have hleave : Resolution.Later [] (statements a body r.enter) _ := .of_leave _
  have hprefix := hleave.found
  rw [hquiet, List.prefix_nil] at hprefix
  refine ⟨?_, fun hvars => ?_⟩
  · exact Site.nodup_of_perm (newTo_statements a h.wellFormed hprefix rfl)
      (Stmt.flatMap_declares_perm body)
  · refine referred_of_leave hgrows hquiet fun hnone => hvars ?_
    have hperm := Stmt.flatMap_declares_perm body
    rw [hnone] at hperm
    exact (List.append_eq_nil_iff.mp hperm.nil_eq.symm).1

theorem Place.Sound.proper_routine {table : Bindings} {a : Surroundings} {routine : Routine}
    {S : List Site} {r : Resolution} (h : Place.Sound table ⟨a, .routine routine, S, r⟩) :
    (Site.routine routine).Proper := by
  obtain ⟨params, body⟩ := routine
  have hparams : Resolution.Grows [] (params.map (·.text)) r.enter (r.enter.declareAll params) :=
    Resolution.grows_declareAll params
  have hbody := statements_grows a body (r.enter.declareAll params)
  have hgrows := hparams.trans hbody
  have hquiet : (statements a body (r.enter.declareAll params)).leave.found = [] := h.quiet
  have hleave : Resolution.Later [] (statements a body (r.enter.declareAll params)) _ :=
    .of_leave _
  have hprefix := hleave.found
  rw [hquiet, List.prefix_nil] at hprefix
  have hperm : (params.map (·.text) ++ body.flatMap Stmt.declares).Perm
      ((Site.routine ⟨params, body⟩).varNames ++ (Site.routine ⟨params, body⟩).itemNames) := by
    unfold Site.varNames Site.itemNames
    rw [List.append_assoc]
    exact (Stmt.flatMap_declares_perm body).append_left _
  refine ⟨?_, fun hvars => ?_⟩
  · refine Site.nodup_of_perm ?_ hperm
    exact (newTo_declareAll (hbody.quiet hprefix) rfl).then hparams rfl fun _ _ hr₁ =>
      newTo_statements a h.wellFormed.2 hprefix hr₁
  · refine referred_of_leave hgrows hquiet fun hnone => hvars ?_
    rw [hnone] at hperm
    exact (List.append_eq_nil_iff.mp hperm.nil_eq.symm).1

theorem Place.Sound.proper_of_opens {table : Bindings} {P : Place} {site : Site} (h : P.Sound table)
    (hopens : P.Opens site) : site.Proper := by
  cases hopens with
  | block => exact h.proper_block
  | routine => exact h.proper_routine

/-- No variable is named by a keyword. -/
theorem Place.Sound.free_of_opens {table : Bindings} {P : Place} {site : Site} (h : P.Sound table)
    (hopens : P.Opens site) {x : String} (hx : x ∈ site.varNames) : IsFree x := by
  have hbody {body : List Stmt} (hwf : Stmt.AllWellFormed body)
      (hx : x ∈ body.flatMap Stmt.varNames) : IsFree x := by
    have hdeclares : x ∈ body.flatMap Stmt.declares :=
      (Stmt.flatMap_declares_perm body).mem_iff.mpr (List.mem_append_left _ hx)
    exact Phrase.free_of_wellFormed (t := .statements body) hwf x hdeclares
  cases hopens with
  | block => exact hbody h.wellFormed hx
  | @routine a S r routine =>
    obtain ⟨hparams, hwf⟩ := h.wellFormed
    rcases List.mem_append.mp hx with hx | hx
    · obtain ⟨p, hp, rfl⟩ := List.mem_map.mp hx
      exact hparams p hp
    · exact hbody hwf hx

theorem Site.proper_self (members : List Method) : (Site.self members).Proper :=
  ⟨.nil, fun h => absurd rfl h⟩

theorem Site.proper_super (members : List Method) : (Site.super members).Proper :=
  ⟨.nil, fun h => absurd rfl h⟩

/-- What holds of the scopes around a place of an accepted program. -/
structure Place.Tidy (P : Place) : Prop where
  proper : ∀ site ∈ P.sites, site.Proper
  items : ∀ site S, P.sites = site :: S → ∀ x ∈ P.phrase.itemNames, x ∈ site.itemNames

theorem Place.tidy_of_top {P : Place} (h : P.sites = []) : P.Tidy :=
  ⟨fun site hsite => by simp [h] at hsite, fun site S hS => by simp [h] at hS⟩

/-- A place in the same scopes, where no other functions or classes are declared. -/
theorem Place.Tidy.same {P P' : Place} (h : P.Tidy) (hsites : P'.sites = P.sites)
    (hnamed : ∀ x ∈ P'.phrase.itemNames, x ∈ P.phrase.itemNames) : P'.Tidy :=
  ⟨fun site hsite => h.proper site (hsites ▸ hsite),
    fun site S hS x hx => h.items site S (hsites ▸ hS) x (hnamed x hx)⟩

/-- A place in one more scope, where the functions and classes declared are among those of the
scope. -/
theorem Place.Tidy.inner {P' : Place} {site : Site} {S : List Site}
    (h : ∀ site ∈ S, site.Proper) (hsites : P'.sites = site :: S) (hsite : site.Proper)
    (hnamed : ∀ x ∈ P'.phrase.itemNames, x ∈ site.itemNames) : P'.Tidy := by
  refine ⟨fun site' hsite' => ?_, fun site' S' hS' x hx => ?_⟩
  · rw [hsites] at hsite'
    rcases List.mem_cons.mp hsite' with rfl | hsite'
    · exact hsite
    · exact h site' hsite'
  · rw [hsites] at hS'
    cases hS'
    exact hnamed x hx

theorem Visits.tidy {table : Bindings} {P P' : Place} (h : Visits P P') (hsound : P.Sound table)
    (hP : P.Tidy) : P'.Tidy := by
  have hnone {xs : List String} : ∀ x ∈ ([] : List String), x ∈ xs := fun x hx => by cases hx
  cases h with
  | block => exact .inner hP.proper rfl hsound.proper_block fun _ hx => hx
  | body => exact .inner hP.proper rfl hsound.proper_routine fun _ hx => hx
  | @members a S r name superclass members =>
    cases superclass with
    | none => exact .inner hP.proper rfl (Site.proper_self members) hnone
    | some ref =>
      refine .inner (fun site hsite => ?_) rfl (Site.proper_self members) hnone
      rcases List.mem_cons.mp hsite with rfl | hsite
      · exact Site.proper_super members
      · exact hP.proper site hsite
  | @chosen a S r condition whenTrue whenFalse =>
    refine hP.same rfl fun x hx => ?_
    cases whenFalse with
    | none => exact hx
    | some whenFalse => exact List.mem_append_left _ hx
  | alternative => exact hP.same rfl fun _ hx => List.mem_append_right _ hx
  | roundBody => exact hP.same rfl fun _ hx => hx
  | head => exact hP.same rfl fun _ hx => List.mem_append_left _ hx
  | tail => exact hP.same rfl fun _ hx => List.mem_append_right _ hx
  | _ => exact hP.same rfl hnone

end Scoping

end ScriptLang
