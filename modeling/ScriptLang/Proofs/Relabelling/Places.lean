import ScriptLang.Proofs.Grammar.Words
import ScriptLang.Proofs.Relabelling.Scopes
import ScriptLang.Proofs.Scoping.References

/-!
# What places seek and say

At a place of an accepted program, the table of bindings has for a reference what the walk finds there
(`Place.Sound.seeks`).

An identifier that is not among the words of a phrase is not among the words of its parts either
(`Visits.spells`). So a program in which an identifier does not occur neither declares it nor refers to
it at any of its places (`Place.Declares.spells`, `Place.Mentions.spells`).
-/

namespace ScriptLang

/-! ## Identifiers in lists -/

@[simp]
theorem identifier_mem_commaSeparated_cons {x : String} {phrase : List Word}
    {phrases : List (List Word)} : .identifier x ∈ commaSeparated (phrase :: phrases) ↔
      .identifier x ∈ phrase ∨ .identifier x ∈ commaSeparated phrases := by
  cases phrases with
  | nil => simp [commaSeparated]
  | cons second phrases => simp [commaSeparated_cons_cons, Symbol.word]

theorem identifier_mem_nameWords {names : List Lexeme} {name : Lexeme} (h : name ∈ names) :
    .identifier name.text ∈ nameWords names := by
  unfold nameWords
  induction names with
  | nil => cases h
  | cons first names ih =>
    rw [List.map_cons, identifier_mem_commaSeparated_cons]
    rcases List.mem_cons.mp h with rfl | h
    · exact .inl List.mem_cons_self
    · exact .inr (ih h)

namespace Scoping

open Relation (ReflTransGen)

/-! ## Tables and walks -/

namespace Resolution

variable {r : Resolution} {ref : Ref}

theorem hops?_refer (hnone : r.bindings.hops? ref.id = none) :
    (r.refer ref).bindings.hops? ref.id = r.refers? ref := by
  rw [refer_eq]
  cases r.refers? ref with
  | none => exact hnone
  | some hops => exact (Bindings.hops?_bind ..).trans (if_pos rfl)

theorem hops?_read (hnone : r.bindings.hops? ref.id = none) :
    (r.read ref).bindings.hops? ref.id = r.reads? ref := by
  rw [read_eq]
  cases r.reads? ref with
  | none =>
    dsimp only
    split <;> exact hnone
  | some hops => exact (Bindings.hops?_bind ..).trans (if_pos rfl)

end Resolution

theorem Place.Seeks.mentions {P : Place} {ref : Ref} {hops : Option Nat} (h : P.Seeks ref hops) :
    P.Mentions ref := by
  cases h with
  | «variable» => exact .variable
  | assign => exact .assign
  | this => exact .this
  | super => exact .super
  | superclass => exact .superclass

/-- The table of an accepted program has what is found at a place. -/
theorem Place.Sound.seeks {table : Bindings} {P : Place} (hP : P.Sound table) {ref : Ref}
    {hops : Option Nat} (h : P.Seeks ref hops) : table.hops? ref.id = hops := by
  have hmem := h.mentions.mem_ids
  have hunbound := hP.unbound ref.id hmem
  have hquiet := hP.quiet
  have hdistinct := hP.distinct
  rw [hP.agrees ref.id hmem]
  cases h with
  | «variable» => exact Resolution.hops?_read hunbound
  | @assign a S r _ value =>
    have hnew : ref.id ∉ (Phrase.expression value).ids := by
      rw [Phrase.ids_assign, List.nodup_cons] at hdistinct
      exact hdistinct.1
    refine Resolution.hops?_refer ?_
    rw [(expression_grows a value r).bindings _ hnew]
    exact hunbound
  | @this a S r =>
    change (r.referThis a ref).bindings.hops? ref.id = _
    change (r.referThis a ref).found = [] at hquiet
    unfold Resolution.referThis at hquiet ⊢
    split at hquiet
    · exact absurd hquiet (r.found_report_ne_nil _ _)
    · exact Resolution.hops?_refer hunbound
  | @super a S r =>
    change (r.referSuper a ref).bindings.hops? ref.id = _
    change (r.referSuper a ref).found = [] at hquiet
    have hrefer (r' : Resolution) : Resolution.Grows [ref.id] [] r' (r'.refer ref) :=
      Resolution.grows_refer (List.mem_singleton_self ref.id)
    unfold Resolution.referSuper at hquiet ⊢
    dsimp only at hquiet ⊢
    split at hquiet
    · exact absurd ((hrefer _).quiet hquiet) (r.found_report_ne_nil _ _)
    · exact absurd ((hrefer _).quiet hquiet) (r.found_report_ne_nil _ _)
    · exact Resolution.hops?_refer hunbound
  | superclass =>
    obtain ⟨-, hnone, hread⟩ := hP.superclass
    rw [← hP.agrees ref.id hmem, hread]
    exact Resolution.hops?_read hnone

/-- The words of a phrase. -/
def Phrase.words : Phrase → List Word
  | expression e => e.words
  | expressions es => commaSeparated (Expr.phrases es)
  | statement s => s.words
  | statements body => Stmt.listWords body
  | declarators ds => commaSeparated (Declarator.phrases ds)
  | methods members => Method.listWords members
  | routine r => r.words

/-- The identifier is one of the words of the phrase. -/
def Phrase.Spells (t : Phrase) (x : String) : Prop := .identifier x ∈ t.words

/-- What a part spells the whole spells, too. -/
theorem Visits.spells {P Q : Place} (h : Visits P Q) {x : String} (hx : Q.phrase.Spells x) :
    P.phrase.Spells x := by
  unfold Phrase.Spells at hx ⊢
  cases h with
  | @function _ _ _ routine => cases routine; simp_all [Phrase.words, Routine.words]
  | @declaredFunction _ _ _ _ routine => cases routine; simp_all [Phrase.words, Routine.words]
  | @method _ _ _ _ routine =>
    cases routine
    simp_all [Phrase.words, Routine.words]
    tauto
  | @otherMethods _ _ _ _ routine => cases routine; simp_all [Phrase.words]
  | @body _ _ _ routine => simp_all [Phrase.words, Routine.words]
  | @choice _ _ _ _ _ whenFalse => cases whenFalse <;> simp_all [Phrase.words]
  | @chosen _ _ _ _ _ whenFalse => cases whenFalse <;> simp_all [Phrase.words]
  | @members _ _ _ _ superclass => cases superclass <;> simp_all [Phrase.words]
  | _ => simp_all [Phrase.words]

theorem Visits.path_spells {P Q : Place} (h : ReflTransGen Visits P Q) {x : String}
    (hx : Q.phrase.Spells x) : P.phrase.Spells x := by
  induction h with
  | refl => exact hx
  | tail _ hlast ih => exact ih (hlast.spells hx)

/-- A place spells the names that it declares. -/
theorem Place.Declares.spells {P : Place} {x : String} (h : P.Declares x) : P.phrase.Spells x := by
  unfold Phrase.Spells
  cases h with
  | names h =>
    cases h with
    | @function _ _ _ name routine => cases routine; simp [Phrase.words]
    | @«class» _ _ _ name superclass => cases superclass <;> simp [Phrase.words]
  | @declarator _ _ _ d rest =>
    obtain ⟨name, initializer⟩ := d
    cases initializer <;> simp [Phrase.words]
  | param hword => simp [Phrase.words, Routine.words, identifier_mem_nameWords hword]

/-- A place spells the words to which its phrase refers, unless they are keywords. -/
theorem Place.Mentions.spells {table : Bindings} {P : Place} {ref : Ref} (h : P.Mentions ref)
    (hsound : P.Sound table) (hfree : IsFree ref.word.text) : P.phrase.Spells ref.word.text := by
  unfold Phrase.Spells
  have hwf := hsound.wellFormed
  cases h with
  | this =>
    have hword : ref.word.text = "this" := hwf
    exact absurd (hword ▸ hfree) this_not_free
  | super =>
    have hword : ref.word.text = "super" := hwf
    exact absurd (hword ▸ hfree) super_not_free
  | _ => simp [Phrase.words]

end Scoping

end ScriptLang
