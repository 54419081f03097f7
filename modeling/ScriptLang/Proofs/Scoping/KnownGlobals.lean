import ScriptLang.Proofs.Scoping.References

/-!
# Globals that are known at a place

The walk over a program keeps the names that are global so far. A name that is known at a place
inside a phrase was known before the phrase, or the phrase declares it outside all scopes
(`Visits.path_knows`).

With the names it knows, the walk decides on variables that are read in the initializer of a local
of their name. Where the name is in none of the scopes further out, the read is let through as one
of a global if there is a global of the name (`Place.LetsThrough`).
-/

namespace ScriptLang.Scoping

open Relation (ReflTransGen)
open Resolution (Grows)

variable {P Q : Place} {x : String}

/-! ## Known names -/

/-- The name is global before the phrase at the place, or made global by it. -/
def Place.Knows (P : Place) (x : String) : Prop :=
  x ∈ P.state.globals ∨ (P.state.scopes = [] ∧ x ∈ P.phrase.declares)

section Parts

variable {ids : List Nat} {names : List String}

/-- A part in the same scopes, before which some names of the phrase are declared. -/
theorem Place.Knows.part (h : Q.Knows x) (hgrows : Grows ids names P.state Q.state)
    (hbefore : ∀ y ∈ names, y ∈ P.phrase.declares)
    (hpart : ∀ y ∈ Q.phrase.declares, y ∈ P.phrase.declares) : P.Knows x := by
  rcases h with hx | ⟨hscopes, hx⟩
  · exact ((hgrows.globals x).mp hx).imp_right fun h => ⟨h.1, hbefore x h.2⟩
  · exact .inr ⟨hgrows.scopes.nil_iff.mp hscopes, hpart x hx⟩

/-- A part that is visited first. -/
theorem Place.Knows.first (h : Q.Knows x) (hstate : Q.state = P.state)
    (hpart : ∀ y ∈ Q.phrase.declares, y ∈ P.phrase.declares) : P.Knows x := by
  have hgrows : Grows [] [] P.state Q.state := hstate ▸ .refl _
  exact h.part hgrows (by simp) hpart

/-- A part that declares nothing, before which nothing is declared. -/
theorem Place.Knows.quiet (h : Q.Knows x) (hgrows : Grows ids [] P.state Q.state)
    (hpart : Q.phrase.declares = []) : P.Knows x :=
  h.part hgrows (by simp) fun y hy => by simp [hpart] at hy

/-- A part inside a scope. -/
theorem Place.Knows.inside (h : Q.Knows x) (hscopes : Q.state.scopes ≠ [])
    (hglobals : x ∈ Q.state.globals → P.Knows x) : P.Knows x := by
  rcases h with hx | ⟨hnil, -⟩
  · exact hglobals hx
  · exact absurd hnil hscopes

end Parts

theorem Resolution.globals_enterClass (r : Resolution) (name : Lexeme) (superclass : Option Ref) :
    ∀ x ∈ (r.enterClass name superclass).globals, x ∈ r.globals := by
  cases superclass with
  | none => exact fun _ hx => hx
  | some ref =>
    intro x hx
    simpa using ((r.grows_superclass name ref).globals x).mp hx

theorem Resolution.scopes_enterClass_ne_nil (r : Resolution) (name : Lexeme)
    (superclass : Option Ref) : (r.enterClass name superclass).scopes ≠ [] := by
  cases superclass <;> exact List.cons_ne_nil _ _

theorem Visits.knows (h : Visits P Q) (hx : Q.Knows x) : P.Knows x := by
  have hnone {xs : List String} : ∀ y ∈ ([] : List String), y ∈ xs := by simp
  have hname {name : Lexeme} {xs : List String} : ∀ y ∈ [name.text], y ∈ name.text :: xs :=
    fun _ hy => List.mem_cons.mpr (.inl (List.mem_singleton.mp hy))
  have hdeclare {r : Resolution} (name : Lexeme) : Grows [] [name.text] r (r.declare name) :=
    Resolution.grows_declare name
  have hdefine {r : Resolution} (name : Lexeme) :
      Grows [] [name.text] r ((r.declare name).define name) := Resolution.grows_declareDefine name
  cases h with
  | binaryRight | logicalRight | commaRight | whenTrue | arguments | setObject | others =>
    exact hx.quiet (expression_grows _ _ _) rfl
  | whenFalse => exact hx.quiet ((expression_grows _ _ _).trans (expression_grows _ _ _)) rfl
  | declared => exact hx.first rfl fun _ hy => hy
  | block => exact hx.inside (List.cons_ne_nil _ _) .inl
  | @chosen _ _ _ _ _ whenFalse =>
    refine hx.part (expression_grows _ _ _) hnone fun y hy => ?_
    cases whenFalse with
    | none => exact hy
    | some whenFalse => exact List.mem_append_left _ hy
  | alternative =>
    exact hx.part ((expression_grows _ _ _).trans (statement_grows _ _ _))
      (fun _ hy => List.mem_append_left _ hy) fun _ hy => List.mem_append_right _ hy
  | roundBody => exact hx.part (expression_grows _ _ _) hnone fun _ hy => hy
  | @returned a S r keyword e =>
    have hcheck : Grows [] [] r (r.checkReturn a keyword true) := Resolution.grows_checkReturn
    exact hx.quiet hcheck rfl
  | declaredFunction => exact hx.part (hdefine _) (fun _ hy => hy) hnone
  | @members a S r name superclass members =>
    refine hx.inside (Resolution.scopes_enterClass_ne_nil _ _ _) fun hx => ?_
    exact ((hdefine name).globals x).mp (Resolution.globals_enterClass _ _ _ x hx)
  | head => exact hx.first rfl fun _ hy => List.mem_append_left _ hy
  | tail =>
    exact hx.part (statement_grows _ _ _) (fun _ hy => List.mem_append_left _ hy)
      fun _ hy => List.mem_append_right _ hy
  | initializer => exact hx.part (hdeclare _) hname hnone
  | afterInitializer =>
    exact hx.part (((Resolution.grows_declare _).andThen (expression_grows _ _ _)).andThen
      (Resolution.grows_define _)) hname fun _ hy => List.mem_cons_of_mem _ hy
  | afterName => exact hx.part (hdefine _) hname fun _ hy => List.mem_cons_of_mem _ hy
  | otherMethods => exact hx.quiet (routineBody_grows _ _ _) rfl
  | @body a S r routine =>
    have hparams : Grows [] (routine.params.map (·.text)) r.enter (r.enter.declareAll routine.params) :=
      Resolution.grows_declareAll routine.params
    refine hx.inside (fun hnil => ?_) fun hx => ?_
    · exact absurd (hparams.scopes.nil_iff.mp hnil) (List.cons_ne_nil _ _)
    · refine .inl (((hparams.globals x).mp hx).resolve_right fun h => ?_)
      exact List.cons_ne_nil _ _ h.1
  | _ => exact hx.first rfl hnone

theorem Visits.path_knows (h : ReflTransGen Visits P Q) (hx : Q.Knows x) : P.Knows x := by
  induction h with
  | refl => exact hx
  | tail _ hlast ih => exact ih (hlast.knows hx)

/-! ## Reads of globals in initializers -/

/-- In the initializer of a local of its name, a variable is read that no scope further out has, and
the read is let through because there is a global of that name. -/
structure Place.LetsThrough (P : Place) (ref : Ref) : Prop where
  phrase : P.phrase = .expression (.variable ref)
  initializing : P.state.initializing ref.word.text = true
  nowhere : P.state.bind? ref 1 = none
  known : ref.word.text ∈ P.state.globals

theorem Place.LetsThrough.mem_ids {ref : Ref} (h : P.LetsThrough ref) : ref.id ∈ P.phrase.ids := by
  rw [h.phrase]
  exact List.mem_singleton_self _

/-- There is nothing inside a variable. -/
theorem Place.LetsThrough.eq_of_path {ref : Ref} (h : P.LetsThrough ref)
    (hpath : ReflTransGen Visits P Q) : Q = P := by
  rcases hpath.cases_head with rfl | ⟨P', hfirst, -⟩
  · rfl
  · have hphrase := h.phrase
    cases hfirst <;> cases hphrase

end ScriptLang.Scoping
