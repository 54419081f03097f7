import ScriptLang.Proofs.Relabelling.Places

/-!
# Initializers of locals

While the initializer of a local is walked over, the scope around it has the local as one that is
declared and not defined (`Resolution.Declaring`). Expressions change nothing about the locals of the
scopes around them but their use, since what the functions in them declare is in scopes of their own
(`Phrase.walk_spares`). So this holds at every place of the initializer that is not inside such a
function (`Place.InExpression`).

At these places a variable of the same name is looked for in the scopes further out
(`Place.Sound.read_outside`), but an assigned one is found in the very scope that declares the
local (`Place.Sound.assign_innermost`).
-/

namespace ScriptLang.Scoping

open Relation (ReflTransGen)

/-! ## Locals that stay -/

/-- The second scope has the same locals as the first one, but for their use. -/
def SameLocals (s s' : Scope) : Prop :=
  ∀ x, (s'.get? x).map (fun l => (l.word, l.defined)) = (s.get? x).map fun l => (l.word, l.defined)

theorem SameLocals.refl (s : Scope) : SameLocals s s := fun _ => rfl

theorem SameLocals.trans {s s₁ s₂ : Scope} (h₁ : SameLocals s s₁) (h₂ : SameLocals s₁ s₂) :
    SameLocals s s₂ := fun x => (h₂ x).trans (h₁ x)

theorem SameLocals.contains {s s' : Scope} (h : SameLocals s s') (x : String) :
    s'.contains x = s.contains x := by
  have hx := congrArg Option.isSome (h x)
  rwa [Option.isSome_map, Option.isSome_map] at hx

theorem sameLocals_use (s : Scope) (name : String) :
    SameLocals s (s.modify name ({ · with used := true })) := by
  intro x
  rw [Slots.get?_modify]
  split
  · rw [Option.map_map]
    rfl
  · rfl

theorem forall₂_sameLocals_refl (ss : List Scope) : List.Forall₂ SameLocals ss ss := by
  induction ss with
  | nil => exact .nil
  | cons s ss ih => exact .cons (.refl s) ih

theorem forall₂_sameLocals_trans {ss ss₁ ss₂ : List Scope} (h₁ : List.Forall₂ SameLocals ss ss₁)
    (h₂ : List.Forall₂ SameLocals ss₁ ss₂) : List.Forall₂ SameLocals ss ss₂ := by
  induction h₁ generalizing ss₂ with
  | nil => exact h₂
  | cons h _ ih =>
    cases h₂ with
    | cons h' htail => exact .cons (h.trans h') (ih htail)

theorem forall₂_sameLocals_modify (ss : List Scope) (i : Nat) (name : String) :
    List.Forall₂ SameLocals ss (ss.modify i (·.modify name ({ · with used := true }))) := by
  induction ss generalizing i with
  | nil => simp
  | cons s ss ih =>
    cases i with
    | zero => exact .cons (sameLocals_use s name) (forall₂_sameLocals_refl ss)
    | succ i => exact .cons (.refl s) (ih i)

namespace Resolution

/-- The scopes of the second resolution have the same locals as those of the first one, but for the
innermost ones. -/
def Spares (inner : Nat) (r r' : Resolution) : Prop :=
  List.Forall₂ SameLocals (r.scopes.drop inner) (r'.scopes.drop inner)

section Spares

variable {k : Nat} {r r₁ r₂ : Resolution}

theorem Spares.refl (r : Resolution) : Spares k r r := forall₂_sameLocals_refl _

theorem Spares.trans (h₁ : Spares k r r₁) (h₂ : Spares k r₁ r₂) : Spares k r r₂ :=
  forall₂_sameLocals_trans h₁ h₂

/-- What spares all scopes spares those further out. -/
theorem Spares.outer (h : Spares 0 r r₁) : Spares k r r₁ := List.forall₂_drop k h

theorem spares_report (word : Lexeme) (fault : ScopeFault) : Spares k r (r.report word fault) :=
  .refl r

theorem spares_declare (word : Lexeme) : Spares 1 r (r.declare word) := by
  obtain ⟨scopes, globals, bindings, found⟩ := r
  cases scopes with
  | nil => exact .nil
  | cons scope scopes =>
    unfold declare
    by_cases h : scope.contains word.text <;> simp only [h] <;> exact forall₂_sameLocals_refl _

theorem spares_define (word : Lexeme) : Spares 1 r (r.define word) := by
  obtain ⟨scopes, globals, bindings, found⟩ := r
  cases scopes with
  | nil => exact .nil
  | cons scope scopes => exact forall₂_sameLocals_refl _

theorem spares_declareDefine (word : Lexeme) : Spares 1 r ((r.declare word).define word) :=
  (spares_declare word).trans (spares_define word)

theorem spares_declareAll (words : List Lexeme) : Spares 1 r (r.declareAll words) := by
  induction words generalizing r with
  | nil => exact .refl r
  | cons word words ih => exact (spares_declareDefine word).trans ih

theorem spares_bind? {ref : Ref} {skipped : Nat} (h : r.bind? ref skipped = some r₁) :
    Spares 0 r r₁ := by
  unfold bind? at h
  split at h
  · cases h
  · cases h
    exact forall₂_sameLocals_modify _ _ _

theorem spares_refer (ref : Ref) : Spares 0 r (r.refer ref) := by
  unfold refer
  cases h : r.bind? ref with
  | none => exact .refl r
  | some r' => exact spares_bind? h

theorem spares_read (ref : Ref) : Spares 0 r (r.read ref) := by
  unfold read
  split
  · split
    · rename_i r' h
      exact spares_bind? h
    · split
      · exact .refl r
      · exact spares_report ..
  · exact spares_refer ref

theorem spares_referThis (around : Surroundings) (ref : Ref) :
    Spares 0 r (r.referThis around ref) := by
  unfold referThis
  split
  · exact spares_report ..
  · exact spares_refer ref

theorem spares_referSuper (around : Surroundings) (ref : Ref) :
    Spares 0 r (r.referSuper around ref) := by
  unfold referSuper
  refine Spares.trans ?_ (spares_refer ref)
  split
  · exact spares_report ..
  · exact spares_report ..
  · exact .refl r

theorem spares_checkBreak (around : Surroundings) (keyword : Lexeme) :
    Spares 0 r (r.checkBreak around keyword) := by
  unfold checkBreak
  split
  · exact .refl r
  · exact spares_report ..

theorem spares_checkReturn (around : Surroundings) (keyword : Lexeme) (hasValue : Bool) :
    Spares 0 r (r.checkReturn around keyword hasValue) := by
  unfold checkReturn
  split
  · exact spares_report ..
  · split
    · exact spares_report ..
    · exact .refl r
  · exact .refl r

/-- A scope that is entered is left again, and may change in between. -/
theorem Spares.leave {scope : Scope} (h : Spares 1 (r.enter scope) r₁) : Spares 0 r r₁.leave := by
  have htail : List.Forall₂ SameLocals r.scopes (r₁.scopes.drop 1) := h
  have hleave : r₁.leave.scopes = r₁.scopes.drop 1 := by
    cases hscopes : r₁.scopes with
    | nil =>
      unfold Resolution.leave
      rw [hscopes]
      exact hscopes
    | cons scope' scopes =>
      obtain ⟨more, hmore⟩ := leave_eq hscopes
      rw [hmore]
      rfl
  unfold Spares
  rw [hleave]
  exact htail

end Spares

end Resolution

/-! ## The walk -/

open Resolution

mutual

theorem expression_spares (around : Surroundings) : ∀ e r, Spares 0 r (expression around e r)
  | .literal _, r => .refl r
  | .variable ref, _ => spares_read ref
  | .assign ref value, r => (expression_spares around value r).trans (spares_refer ref)
  | .unary _ _ operand, r => expression_spares around operand r
  | .binary _ _ left right, r =>
    (expression_spares around left r).trans (expression_spares around right _)
  | .logical _ _ left right, r =>
    (expression_spares around left r).trans (expression_spares around right _)
  | .comma left right, r =>
    (expression_spares around left r).trans (expression_spares around right _)
  | .conditional condition whenTrue whenFalse, r =>
    ((expression_spares around condition r).trans (expression_spares around whenTrue _)).trans
      (expression_spares around whenFalse _)
  | .grouping inner, r => expression_spares around inner r
  | .call callee arguments _, r =>
    (expression_spares around callee r).trans (expressions_spares around arguments _)
  | .get object _, r => expression_spares around object r
  | .set object _ value, r =>
    (expression_spares around value r).trans (expression_spares around object _)
  | .this ref, _ => spares_referThis around ref
  | .super ref _, _ => spares_referSuper around ref
  | .function ⟨params, body⟩, r => routineBody_spares (around.within .function) ⟨params, body⟩ r

theorem expressions_spares (around : Surroundings) : ∀ es r, Spares 0 r (expressions around es r)
  | [], r => .refl r
  | e :: es, r => (expression_spares around e r).trans (expressions_spares around es _)

theorem statement_spares (around : Surroundings) : ∀ s r, Spares 1 r (statement around s r)
  | .expression e, r => (expression_spares around e r).outer
  | .print e, r => (expression_spares around e r).outer
  | .vars ds, r => declarators_spares around ds r
  | .block body, r => (statements_spares around body r.enter).leave.outer
  | .ifElse condition whenTrue none, r =>
    (expression_spares around condition r).outer.trans (statement_spares around whenTrue _)
  | .ifElse condition whenTrue (some whenFalse), r =>
    ((expression_spares around condition r).outer.trans (statement_spares around whenTrue _)).trans
      (statement_spares around whenFalse _)
  | .whileLoop condition body, r =>
    (expression_spares around condition r).outer.trans
      (statement_spares { around with inLoop := true } body _)
  | .breakLoop keyword, _ => (spares_checkBreak around keyword).outer
  | .returnFrom keyword none, _ => (spares_checkReturn around keyword false).outer
  | .returnFrom keyword (some e), _ =>
    ((spares_checkReturn around keyword true).trans (expression_spares around e _)).outer
  | .function name ⟨params, body⟩, _ =>
    (spares_declareDefine name).trans
      (routineBody_spares (around.within .function) ⟨params, body⟩ _).outer
  | .class name none members, _ =>
    (spares_declareDefine name).trans (methods_spares _ members _).outer.leave.outer
  | .class name (some ref) members, r => by
    have hmethods (r : Resolution) :
        Spares 0 r (methods { around with descent := some .derived } members r) :=
      methods_spares _ members r
    refine (spares_declareDefine name).trans (Spares.trans ?_
      ((spares_read ref).trans (hmethods _).outer.leave.outer.leave)).outer
    split
    · exact spares_report ..
    · exact .refl _

theorem statements_spares (around : Surroundings) : ∀ body r, Spares 1 r (statements around body r)
  | [], r => .refl r
  | s :: rest, r => (statement_spares around s r).trans (statements_spares around rest _)

theorem declarators_spares (around : Surroundings) : ∀ ds r, Spares 1 r (declarators around ds r)
  | [], r => .refl r
  | ⟨name, none⟩ :: rest, _ => (spares_declareDefine name).trans (declarators_spares around rest _)
  | ⟨name, some e⟩ :: rest, _ =>
    (((spares_declare name).trans (expression_spares around e _).outer).trans
      (spares_define name)).trans (declarators_spares around rest _)

theorem methods_spares (around : Surroundings) : ∀ members r, Spares 0 r (methods around members r)
  | [], r => .refl r
  | ⟨name, ⟨params, body⟩⟩ :: rest, r =>
    (routineBody_spares (around.within (.ofMethod name.text)) ⟨params, body⟩ r).trans
      (methods_spares around rest _)

theorem routineBody_spares (around : Surroundings) :
    ∀ routine r, Spares 0 r (routineBody around routine r)
  | ⟨params, body⟩, _ => ((spares_declareAll params).trans (statements_spares around body _)).leave

end

/-! ## Places in an expression -/

/-- The walk at the first place goes over the phrase at the second one, which is no routine. -/
def VisitsPlainly (P Q : Place) : Prop := Visits P Q ∧ ∀ routine, Q.phrase ≠ .routine routine

/-- The second place is in the expression at the first one, and not inside a function of it. -/
structure Place.InExpression (P Q : Place) : Prop where
  sort : (∃ e, Q.phrase = .expression e) ∨ ∃ es, Q.phrase = .expressions es
  spares : P.state.Spares 0 Q.state

variable {P Q : Place}

theorem Place.InExpression.visit {Q' : Place} (h : P.InExpression Q) (hQ' : VisitsPlainly Q Q') :
    P.InExpression Q' := by
  obtain ⟨hvisits, hplain⟩ := hQ'
  rcases h.sort with ⟨e, he⟩ | ⟨es, hes⟩
  · obtain ⟨a, t, S, r⟩ := Q
    cases he
    cases hvisits with
    | function => exact absurd rfl (hplain _)
    | arguments => exact ⟨.inr ⟨_, rfl⟩, h.spares.trans (expression_spares _ _ _)⟩
    | binaryRight | logicalRight | commaRight | whenTrue | setObject =>
      exact ⟨.inl ⟨_, rfl⟩, h.spares.trans (expression_spares _ _ _)⟩
    | whenFalse =>
      exact ⟨.inl ⟨_, rfl⟩,
        h.spares.trans ((expression_spares _ _ _).trans (expression_spares _ _ _))⟩
    | _ => exact ⟨.inl ⟨_, rfl⟩, h.spares⟩
  · obtain ⟨a, t, S, r⟩ := Q
    cases hes
    cases hvisits with
    | first => exact ⟨.inl ⟨_, rfl⟩, h.spares⟩
    | others => exact ⟨.inr ⟨_, rfl⟩, h.spares.trans (expression_spares _ _ _)⟩

theorem Place.inExpression {e : Expr} (hP : P.phrase = .expression e)
    (h : ReflTransGen VisitsPlainly P Q) : P.InExpression Q := by
  induction h with
  | refl => exact ⟨.inl ⟨e, hP⟩, .refl _⟩
  | tail _ hlast ih => exact ih.visit hlast

/-! ## A local that is being declared -/

namespace Resolution

variable {r r' : Resolution} {word : Lexeme} {x : String}

/-- The innermost scope has a local that was declared with the word and is not defined. -/
def Declaring (r : Resolution) (word : Lexeme) : Prop :=
  ∃ scope scopes l, r.scopes = scope :: scopes ∧ scope.get? word.text = some l ∧ l.word = word ∧
    l.defined = false

theorem declaring_declare (h : r.scopes ≠ []) : (r.declare word).Declaring word := by
  obtain ⟨scopes, globals, bindings, found⟩ := r
  cases scopes with
  | nil => exact absurd rfl h
  | cons scope scopes =>
    have hself := scope.get?_set_self word.text (⟨word, false, false, scope.size⟩ : Local)
    unfold declare
    by_cases hcontains : scope.contains word.text <;> simp only [hcontains] <;>
      exact ⟨_, _, _, rfl, hself, rfl, rfl⟩

theorem Declaring.spared (h : r.Declaring word) (hr : Spares 0 r r') : r'.Declaring word := by
  obtain ⟨scope, scopes, l, hscopes, hl, hword, hdefined⟩ := h
  unfold Spares at hr
  rw [List.drop_zero, List.drop_zero, hscopes] at hr
  cases hr' : r'.scopes with
  | nil =>
    rw [hr'] at hr
    cases hr
  | cons scope' scopes' =>
    rw [hr'] at hr
    cases hr with
    | cons hsame _ =>
      have hx := hsame word.text
      rw [hl] at hx
      obtain ⟨l', hl', heq⟩ := Option.map_eq_some_iff.mp hx
      obtain ⟨hword', hdefined'⟩ := Prod.mk.inj heq
      exact ⟨scope', scopes', l', hr', hl', hword'.trans hword, hdefined'.trans hdefined⟩

theorem Declaring.initializing (h : r.Declaring word) : r.initializing word.text = true := by
  obtain ⟨scope, scopes, l, hscopes, hl, -, hdefined⟩ := h
  unfold Resolution.initializing
  rw [hscopes]
  dsimp only
  rw [hl]
  dsimp only
  rw [hdefined]
  rfl

/-- So many scopes out is the first scope that has the name, of those around the innermost one. -/
structure Outside (r : Resolution) (x : String) (hops : Nat) : Prop where
  pos : 0 < hops
  has : ∃ scope, r.scopes[hops]? = some scope ∧ scope.contains x
  first : ∀ k scope, 0 < k → k < hops → r.scopes[k]? = some scope → ¬ scope.contains x

/-- Where a name is found does not depend on the scopes that do not count. -/
theorem index?_spared {ref : Ref} {skipped : Nat} (h : Spares skipped r r') :
    r'.index? ref skipped = r.index? ref skipped := by
  unfold index?
  refine congrArg _ (findIdx?_congr (List.Forall₂.length_eq h).symm fun i scope scope' hi hi' _ => ?_)
  obtain ⟨hlt, rfl⟩ := List.getElem?_eq_some_iff.mp hi
  obtain ⟨hlt', rfl⟩ := List.getElem?_eq_some_iff.mp hi'
  exact SameLocals.contains (List.Forall₂.get h hlt hlt') ref.word.text

theorem index?_one_eq_some {ref : Ref} {hops : Nat} :
    r.index? ref 1 = some hops ↔ r.Outside ref.word.text hops := by
  rw [index?_eq_some]
  exact ⟨fun ⟨hpos, hhas, hfirst⟩ => ⟨hpos, hhas, fun k scope => hfirst k scope⟩,
    fun h => ⟨h.pos, h.has, fun k scope => h.first k scope⟩⟩

end Resolution

/-! ## Bindings -/

section Sound

variable {table : Bindings} {a : Surroundings} {S : List Site} {r : Resolution} {ref : Ref}

/-- In the initializer of a local of its name, a variable that is read is bound further out if it is
bound. -/
theorem Place.Sound.read_outside (hP : Place.Sound table ⟨a, .expression (.variable ref), S, r⟩)
    (hinit : r.initializing ref.word.text = true) {hops : Nat} :
    table.hops? ref.id = some hops ↔ r.Outside ref.word.text hops := by
  rw [hP.seeks .variable, Resolution.reads?, if_pos hinit]
  exact index?_one_eq_some

/-- In the initializer of a local of its name, a variable that is assigned is bound to the local. -/
theorem Place.Sound.assign_innermost {value : Expr} {word : Lexeme}
    (hP : Place.Sound table ⟨a, .expression (.assign ref value), S, r⟩) (hdeclaring : r.Declaring word)
    (hname : ref.word.text = word.text) : table.hops? ref.id = some 0 := by
  obtain ⟨scope, scopes, l, hscopes, hl, -⟩ := hdeclaring.spared (expression_spares a value r)
  have hcontains : scope.contains ref.word.text = true := by
    rw [hname, Slots.contains, hl]
    rfl
  rw [hP.seeks .assign, Resolution.refers?, Resolution.index?, hscopes, List.drop_zero,
    List.findIdx?_cons, hcontains]
  rfl

end Sound

end ScriptLang.Scoping
