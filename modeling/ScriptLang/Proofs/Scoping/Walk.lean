import Mathlib.Data.List.Forall2
import Mathlib.Tactic.Tauto
import ScriptLang.Program.References
import ScriptLang.Proofs.Frames.Store
import ScriptLang.Scoping.Resolve

/-!
# What the walk over a program changes

The walk that binds references goes over phrases of different kinds (`Phrase`). Over each it
changes the resolution in five ways, and `Resolution.Grows` says how far each of them goes:

* faults are only added,
* only the references of the phrase get bindings,
* the innermost scope gets the names that the phrase declares, and no other scope gets any,
* outside all scopes these names become global instead,
* locals become used only if there are references in the phrase.

Scopes that are entered are left again, so no trace of them remains (`Grows.of_inner`).
-/

namespace ScriptLang

theorem sortByNumber_ne_nil {α : Type} (number : α → Nat) {xs : List α} (h : xs ≠ []) :
    sortByNumber number xs ≠ [] := by
  have hinsert (before : α → α → Bool) (x : α) (ys : List α) : insertBy before x ys ≠ [] := by
    cases ys with
    | nil => exact List.cons_ne_nil _ _
    | cons y ys =>
      unfold insertBy
      split <;> exact List.cons_ne_nil _ _
  cases xs with
  | nil => exact absurd rfl h
  | cons x xs => exact hinsert _ x _

/-! ## Declared names -/

/-- The names that a statement declares in the scope around it. -/
def Stmt.declares : Stmt → List String
  | .vars declarators => declarators.map (·.name.text)
  | .ifElse _ whenTrue none => whenTrue.declares
  | .ifElse _ whenTrue (some whenFalse) => whenTrue.declares ++ whenFalse.declares
  | .whileLoop _ body => body.declares
  | .function name _ => [name.text]
  | .class name _ _ => [name.text]
  | _ => []

namespace Scoping

/-! ## Phrases -/

/-- What the walk goes over. -/
inductive Phrase
  | expression (e : Expr)
  | expressions (es : List Expr)
  | statement (s : Stmt)
  | statements (body : List Stmt)
  | declarators (ds : List Declarator)
  | methods (members : List Method)
  | routine (r : Routine)

namespace Phrase

/-- The references of a phrase. -/
def references : Phrase → List (RefKind × Ref)
  | expression e => e.references
  | expressions es => Expr.listReferences es
  | statement s => s.references
  | statements body => Stmt.listReferences body
  | declarators ds => Declarator.listReferences ds
  | methods members => Method.listReferences members
  | routine r => Stmt.listReferences r.body

/-- The numbers of the references of a phrase. -/
def ids (t : Phrase) : List Nat := t.references.map (·.2.id)

/-- The names that a phrase declares in the scope around it. -/
def declares : Phrase → List String
  | statement s => s.declares
  | statements body => body.flatMap Stmt.declares
  | declarators ds => ds.map (·.name.text)
  | _ => []

/-- The walk over a phrase. -/
def walk (around : Surroundings) : Phrase → Resolution → Resolution
  | expression e => Scoping.expression around e
  | expressions es => Scoping.expressions around es
  | statement s => Scoping.statement around s
  | statements body => Scoping.statements around body
  | declarators ds => Scoping.declarators around ds
  | methods members => Scoping.methods around members
  | routine r => Scoping.routineBody around r

section Ids

variable {op : UnaryOp} {bop : BinaryOp} {lop : LogicalOp} {ref : Ref} {sign name : Lexeme}
variable {e left right condition whenTrue whenFalse : Expr} {es : List Expr} {s t : Stmt}
variable {body : List Stmt} {ds : List Declarator} {members : List Method} {r : Routine}

@[simp] theorem ids_literal {value : Literal} : (expression (.literal value)).ids = [] := rfl

@[simp] theorem ids_variable : (expression (.variable ref)).ids = [ref.id] := rfl

@[simp] theorem ids_assign : (expression (.assign ref e)).ids = ref.id :: (expression e).ids := rfl

@[simp] theorem ids_unary : (expression (.unary op sign e)).ids = (expression e).ids := rfl

@[simp] theorem ids_binary : (expression (.binary bop sign left right)).ids =
    (expression left).ids ++ (expression right).ids := List.map_append

@[simp] theorem ids_logical : (expression (.logical lop sign left right)).ids =
    (expression left).ids ++ (expression right).ids := List.map_append

@[simp] theorem ids_comma : (expression (.comma left right)).ids =
    (expression left).ids ++ (expression right).ids := List.map_append

@[simp] theorem ids_conditional : (expression (.conditional condition whenTrue whenFalse)).ids =
    (expression condition).ids ++ (expression whenTrue).ids ++ (expression whenFalse).ids := by
  simp [ids, references, Expr.references]

@[simp] theorem ids_grouping : (expression (.grouping e)).ids = (expression e).ids := rfl

@[simp] theorem ids_call : (expression (.call e es sign)).ids =
    (expression e).ids ++ (expressions es).ids := List.map_append

@[simp] theorem ids_get : (expression (.get e name)).ids = (expression e).ids := rfl

@[simp] theorem ids_set : (expression (.set left name right)).ids =
    (expression left).ids ++ (expression right).ids := List.map_append

@[simp] theorem ids_this : (expression (.this ref)).ids = [ref.id] := rfl

@[simp] theorem ids_super : (expression (.super ref name)).ids = [ref.id] := rfl

@[simp] theorem ids_function : (expression (.function r)).ids = (routine r).ids := by
  cases r; rfl

@[simp] theorem ids_noExpressions : (expressions []).ids = [] := rfl

@[simp] theorem ids_expressions : (expressions (e :: es)).ids =
    (expression e).ids ++ (expressions es).ids := List.map_append

@[simp] theorem ids_evaluated : (statement (.expression e)).ids = (expression e).ids := rfl

@[simp] theorem ids_print : (statement (.print e)).ids = (expression e).ids := rfl

@[simp] theorem ids_vars : (statement (.vars ds)).ids = (declarators ds).ids := rfl

@[simp] theorem ids_block : (statement (.block body)).ids = (statements body).ids := rfl

@[simp] theorem ids_if : (statement (.ifElse e s none)).ids =
    (expression e).ids ++ (statement s).ids := List.map_append

@[simp] theorem ids_ifElse : (statement (.ifElse e s (some t))).ids =
    (expression e).ids ++ (statement s).ids ++ (statement t).ids := by
  simp [ids, references, Stmt.references]

@[simp] theorem ids_while : (statement (.whileLoop e s)).ids =
    (expression e).ids ++ (statement s).ids := List.map_append

@[simp] theorem ids_break : (statement (.breakLoop sign)).ids = [] := rfl

@[simp] theorem ids_return : (statement (.returnFrom sign none)).ids = [] := rfl

@[simp] theorem ids_returnValue : (statement (.returnFrom sign (some e))).ids =
    (expression e).ids := rfl

@[simp] theorem ids_declaredFunction : (statement (.function name r)).ids = (routine r).ids := by
  cases r; rfl

@[simp] theorem ids_class : (statement (.class name none members)).ids = (methods members).ids :=
  rfl

@[simp] theorem ids_subclass : (statement (.class name (some ref) members)).ids =
    ref.id :: (methods members).ids := rfl

@[simp] theorem ids_noStatements : (statements []).ids = [] := rfl

@[simp] theorem ids_statements : (statements (s :: body)).ids =
    (statement s).ids ++ (statements body).ids := List.map_append

@[simp] theorem ids_noDeclarators : (declarators []).ids = [] := rfl

@[simp] theorem ids_declarator : (declarators (⟨name, none⟩ :: ds)).ids = (declarators ds).ids :=
  rfl

@[simp] theorem ids_initialized : (declarators (⟨name, some e⟩ :: ds)).ids =
    (expression e).ids ++ (declarators ds).ids := List.map_append

@[simp] theorem ids_noMethods : (methods []).ids = [] := rfl

@[simp] theorem ids_methods : (methods (⟨name, r⟩ :: members)).ids =
    (routine r).ids ++ (methods members).ids := by
  cases r; exact List.map_append

@[simp] theorem ids_routine : (routine r).ids = (statements r.body).ids := rfl

end Ids

end Phrase

/-! ## Names of scopes -/

/-- Two scopes have the same names. -/
def SameNames (s s' : Scope) : Prop := ∀ x, s'.contains x = s.contains x

/-- The same scopes, but for new names in the innermost. -/
def Widened (names : List String) : List Scope → List Scope → Prop
  | [], [] => True
  | s :: ss, s' :: ss' =>
    (∀ x, s'.contains x ↔ s.contains x ∨ x ∈ names) ∧ List.Forall₂ SameNames ss ss'
  | _, _ => False

theorem forall₂_sameNames_refl (ss : List Scope) : List.Forall₂ SameNames ss ss := by
  induction ss with
  | nil => exact .nil
  | cons s ss ih => exact .cons (fun _ => rfl) ih

theorem forall₂_sameNames_trans {ss ss₁ ss₂ : List Scope} (h₁ : List.Forall₂ SameNames ss ss₁)
    (h₂ : List.Forall₂ SameNames ss₁ ss₂) : List.Forall₂ SameNames ss ss₂ := by
  induction h₁ generalizing ss₂ with
  | nil => exact h₂
  | cons h _ ih =>
    cases h₂ with
    | cons h' htail => exact .cons (fun x => (h' x).trans (h x)) (ih htail)

theorem widened_nil_iff {ss ss' : List Scope} :
    Widened [] ss ss' ↔ List.Forall₂ SameNames ss ss' := by
  cases ss with
  | nil =>
    cases ss' with
    | nil => exact ⟨fun _ => .nil, fun _ => trivial⟩
    | cons s' ss' => exact ⟨fun h => h.elim, fun h => by cases h⟩
  | cons s ss =>
    cases ss' with
    | nil => exact ⟨fun h => h.elim, fun h => by cases h⟩
    | cons s' ss' =>
      constructor
      · rintro ⟨hs, hss⟩
        refine .cons (fun x => Bool.eq_iff_iff.mpr ?_) hss
        simpa using hs x
      · rintro (_ | ⟨hs, hss⟩)
        exact ⟨fun x => by rw [hs x]; simp, hss⟩

theorem Widened.trans {xs ys : List String} {ss ss₁ ss₂ : List Scope} (h₁ : Widened xs ss ss₁)
    (h₂ : Widened ys ss₁ ss₂) : Widened (xs ++ ys) ss ss₂ := by
  cases ss with
  | nil =>
    cases ss₁ with
    | nil =>
      cases ss₂ with
      | nil => exact trivial
      | cons s₂ ss₂ => exact h₂.elim
    | cons s₁ ss₁ => exact h₁.elim
  | cons s ss =>
    cases ss₁ with
    | nil => exact h₁.elim
    | cons s₁ ss₁ =>
      cases ss₂ with
      | nil => exact h₂.elim
      | cons s₂ ss₂ =>
        refine ⟨fun x => ?_, forall₂_sameNames_trans h₁.2 h₂.2⟩
        rw [h₂.1 x, h₁.1 x, List.mem_append, or_assoc]

theorem Widened.congr {xs ys : List String} (h : ∀ x, x ∈ xs ↔ x ∈ ys) {ss ss' : List Scope}
    (hw : Widened xs ss ss') : Widened ys ss ss' := by
  cases ss with
  | nil => cases ss' <;> exact hw
  | cons s ss =>
    cases ss' with
    | nil => exact hw
    | cons s' ss' => exact ⟨fun x => (hw.1 x).trans (or_congr_right (h x)), hw.2⟩

theorem Widened.nil_iff {xs : List String} {ss ss' : List Scope} (h : Widened xs ss ss') :
    ss' = [] ↔ ss = [] := by
  cases ss <;> cases ss' <;> first | exact h.elim | simp

theorem Widened.of_cons {xs : List String} {s : Scope} {ss ss₀ ss' : List Scope}
    (h : Widened xs ss₀ ss') (hss : ss₀ = s :: ss) :
    ∃ s' tail, ss' = s' :: tail ∧ (∀ x, s'.contains x ↔ s.contains x ∨ x ∈ xs) ∧
      List.Forall₂ SameNames ss tail := by
  subst hss
  cases ss' with
  | nil => exact h.elim
  | cons s' tail => exact ⟨s', tail, rfl, h.1, h.2⟩

theorem forall₂_sameNames_modify (ss : List Scope) (i : Nat) {f : Scope → Scope}
    (hf : ∀ s, SameNames s (f s)) : List.Forall₂ SameNames ss (ss.modify i f) := by
  induction ss generalizing i with
  | nil => simp
  | cons s ss ih =>
    cases i with
    | zero => exact .cons (hf s) (forall₂_sameNames_refl ss)
    | succ i => exact .cons (fun _ => rfl) (ih i)

theorem sameNames_modify (s : Scope) (name : String) (f : Local → Local) :
    SameNames s (s.modify name f) := by
  intro x
  refine Bool.eq_iff_iff.mpr ?_
  rw [← Slots.mem_names_iff_contains, ← Slots.mem_names_iff_contains, Slots.names_modify]

/-! ## Use of locals -/

/-- A local that is used in the second scope was used in the first one. -/
def SameUse (s s' : Scope) : Prop :=
  ∀ x l', s'.get? x = some l' → l'.used = true → ∃ l, s.get? x = some l ∧ l.used = true

theorem SameUse.refl (s : Scope) : SameUse s s := fun _ l hl hused => ⟨l, hl, hused⟩

theorem forall₂_sameUse_refl (ss : List Scope) : List.Forall₂ SameUse ss ss := by
  induction ss with
  | nil => exact .nil
  | cons s ss ih => exact .cons (.refl s) ih

theorem forall₂_sameUse_trans {ss ss₁ ss₂ : List Scope} (h₁ : List.Forall₂ SameUse ss ss₁)
    (h₂ : List.Forall₂ SameUse ss₁ ss₂) : List.Forall₂ SameUse ss ss₂ := by
  induction h₁ generalizing ss₂ with
  | nil => exact h₂
  | cons h _ ih =>
    cases h₂ with
    | cons h' htail =>
      refine .cons (fun x l' hl' hused => ?_) (ih htail)
      obtain ⟨l, hl, hused⟩ := h' x l' hl' hused
      exact h x l hl hused

/-- A new local is not used. -/
theorem sameUse_declare (s : Scope) (word : Lexeme) (order : Nat) :
    SameUse s (s.set word.text ⟨word, false, false, order⟩) := by
  intro x l' hl' hused
  rw [Slots.get?_set] at hl'
  split at hl'
  · cases hl'
    cases hused
  · exact ⟨l', hl', hused⟩

theorem sameUse_define (s : Scope) (name : String) :
    SameUse s (s.modify name ({ · with defined := true })) := by
  intro x l' hl' hused
  rw [Slots.get?_modify] at hl'
  split at hl'
  · obtain ⟨l, hl, rfl⟩ := Option.map_eq_some_iff.mp hl'
    exact ⟨l, hl, hused⟩
  · exact ⟨l', hl', hused⟩

/-! ## Growth of a resolution -/

namespace Resolution

/-- What the second resolution has beyond the first one: bindings for references among `ids`,
names among `names`, and faults. -/
structure Grows (ids : List Nat) (names : List String) (r r' : Resolution) : Prop where
  found : r.found <+: r'.found
  bindings : ∀ id, id ∉ ids → r'.bindings.hops? id = r.bindings.hops? id
  scopes : Widened names r.scopes r'.scopes
  globals : ∀ x, x ∈ r'.globals ↔ x ∈ r.globals ∨ (r.scopes = [] ∧ x ∈ names)
  used : ids = [] → List.Forall₂ SameUse r.scopes r'.scopes

namespace Grows

variable {ids ids' : List Nat} {names names' : List String} {r r₁ r₂ : Resolution}

theorem refl (r : Resolution) : Grows ids [] r r :=
  ⟨List.prefix_rfl, fun _ _ => rfl, widened_nil_iff.mpr (forall₂_sameNames_refl _), by simp,
    fun _ => forall₂_sameUse_refl _⟩

/-- What comes before a walk without faults has none. -/
theorem quiet (h : Grows ids names r r₁) (hquiet : r₁.found = []) : r.found = [] := by
  have hprefix := h.found
  rwa [hquiet, List.prefix_nil] at hprefix

theorem trans (h₁ : Grows ids names r r₁) (h₂ : Grows ids' names' r₁ r₂) :
    Grows (ids ++ ids') (names ++ names') r r₂ where
  found := h₁.found.trans h₂.found
  bindings id hid := by
    rw [List.mem_append, not_or] at hid
    rw [h₂.bindings id hid.2, h₁.bindings id hid.1]
  scopes := h₁.scopes.trans h₂.scopes
  globals x := by
    rw [h₂.globals x, h₁.globals x, h₁.scopes.nil_iff, List.mem_append]
    tauto
  used hids := by
    obtain ⟨hids₁, hids₂⟩ := List.append_eq_nil_iff.mp hids
    exact forall₂_sameUse_trans (h₁.used hids₁) (h₂.used hids₂)

theorem congr (h : Grows ids names r r₁) (hids : ∀ id ∈ ids, id ∈ ids')
    (hnames : ∀ x, x ∈ names ↔ x ∈ names') : Grows ids' names' r r₁ where
  found := h.found
  bindings id hid := h.bindings id fun hmem => hid (hids id hmem)
  scopes := h.scopes.congr hnames
  globals x := by rw [h.globals x, hnames x]
  used hnone := by
    subst hnone
    exact h.used (List.eq_nil_iff_forall_not_mem.mpr fun id hid => by simpa using hids id hid)

/-- More references may get bindings. -/
theorem more (h : Grows ids names r r₁) (hids : ∀ id ∈ ids, id ∈ ids') :
    Grows ids' names r r₁ := h.congr hids fun _ => Iff.rfl

/-- One after the other, over references that are known. -/
theorem andThen (h₁ : Grows ids names r r₁) (h₂ : Grows ids [] r₁ r₂) :
    Grows ids names r r₂ :=
  (h₁.trans h₂).congr (fun id hid => by simpa using hid) fun x => by simp

theorem prepend (h₁ : Grows ids [] r r₁) (h₂ : Grows ids names r₁ r₂) :
    Grows ids names r r₂ :=
  (h₁.trans h₂).congr (fun id hid => by simpa using hid) fun x => by simp

end Grows

variable {ids : List Nat} {names : List String} {r r' : Resolution}

theorem grows_report (word : Lexeme) (fault : ScopeFault) : Grows ids [] r (r.report word fault) :=
  { Grows.refl r with found := List.prefix_append .. }

theorem grows_declare (word : Lexeme) : Grows ids [word.text] r (r.declare word) := by
  obtain ⟨scopes, globals, bindings, found⟩ := r
  cases scopes with
  | nil =>
    refine ⟨List.prefix_rfl, fun _ _ => rfl, trivial, fun x => ?_, fun _ => .nil⟩
    simp [declare, or_comm]
  | cons scope scopes =>
    have hscope : ∀ x, (scope.set word.text ⟨word, false, false, scope.size⟩).contains x ↔
        scope.contains x ∨ x ∈ [word.text] := by
      intro x
      rw [Slots.contains_set]
      simp [or_comm]
    have huse := sameUse_declare scope word scope.size
    unfold declare
    by_cases h : scope.contains word.text
    · simp only [h, if_true]
      exact ⟨List.prefix_append .., fun _ _ => rfl, ⟨hscope, forall₂_sameNames_refl _⟩,
        fun x => by simp [report], fun _ => .cons huse (forall₂_sameUse_refl _)⟩
    · simp only [h]
      exact ⟨List.prefix_rfl, fun _ _ => rfl, ⟨hscope, forall₂_sameNames_refl _⟩,
        fun x => by simp, fun _ => .cons huse (forall₂_sameUse_refl _)⟩

theorem grows_define (word : Lexeme) : Grows ids [] r (r.define word) := by
  obtain ⟨scopes, globals, bindings, found⟩ := r
  cases scopes with
  | nil => exact .refl _
  | cons scope scopes =>
    refine { Grows.refl (⟨scope :: scopes, globals, bindings, found⟩ : Resolution) with
      scopes := widened_nil_iff.mpr ?_
      used := fun _ => .cons (sameUse_define scope word.text) (forall₂_sameUse_refl _) }
    exact .cons (sameNames_modify _ _ _) (forall₂_sameNames_refl _)

theorem grows_declareDefine (word : Lexeme) :
    Grows ids [word.text] r ((r.declare word).define word) :=
  (grows_declare word).andThen (grows_define word)

theorem grows_declareAll (words : List Lexeme) :
    Grows ids (words.map (·.text)) r (r.declareAll words) := by
  induction words generalizing r with
  | nil => exact .refl r
  | cons word words ih =>
    have hfirst : Grows ids [word.text] r ((r.declare word).define word) :=
      grows_declareDefine word
    exact (hfirst.trans ih).congr (by simp) fun x => by simp

theorem grows_bind? {ref : Ref} {skipped : Nat} (hid : ref.id ∈ ids)
    (h : r.bind? ref skipped = some r') : Grows ids [] r r' := by
  unfold bind? at h
  split at h
  · cases h
  · cases h
    refine ⟨List.prefix_rfl, fun id hne => ?_, widened_nil_iff.mpr ?_, by simp, fun hnone => ?_⟩
    · rw [Bindings.hops?_bind, if_neg]
      rintro rfl
      exact hne hid
    · exact forall₂_sameNames_modify _ _ fun s => sameNames_modify s _ _
    · rw [hnone] at hid
      cases hid

theorem grows_refer {ref : Ref} (hid : ref.id ∈ ids) : Grows ids [] r (r.refer ref) := by
  unfold refer
  cases h : r.bind? ref with
  | none => exact .refl r
  | some r' => exact grows_bind? hid h

theorem grows_read {ref : Ref} (hid : ref.id ∈ ids) : Grows ids [] r (r.read ref) := by
  unfold read
  split
  · split
    · rename_i r' h
      exact grows_bind? hid h
    · split
      · exact .refl r
      · exact grows_report ..
  · exact grows_refer hid

theorem grows_referThis {around : Surroundings} {ref : Ref} (hid : ref.id ∈ ids) :
    Grows ids [] r (r.referThis around ref) := by
  unfold referThis
  split
  · exact grows_report ..
  · exact grows_refer hid

theorem grows_referSuper {around : Surroundings} {ref : Ref} (hid : ref.id ∈ ids) :
    Grows ids [] r (r.referSuper around ref) := by
  unfold referSuper
  refine Grows.andThen ?_ (grows_refer hid)
  split
  · exact grows_report ..
  · exact grows_report ..
  · exact .refl r

theorem grows_checkBreak {around : Surroundings} {keyword : Lexeme} :
    Grows ids [] r (r.checkBreak around keyword) := by
  unfold checkBreak
  split
  · exact .refl r
  · exact grows_report ..

theorem grows_checkReturn {around : Surroundings} {keyword : Lexeme} {hasValue : Bool} :
    Grows ids [] r (r.checkReturn around keyword hasValue) := by
  unfold checkReturn
  split
  · exact grows_report ..
  · split
    · exact grows_report ..
    · exact .refl r
  · exact .refl r

/-! ## Leaving scopes -/

theorem foldl_report (ls : List Local) (r : Resolution) :
    ∃ more, ls.foldl (fun r l => r.report l.word (.unusedLocal l.word.text)) r =
      { r with found := r.found ++ more } := by
  induction ls generalizing r with
  | nil => exact ⟨[], by simp⟩
  | cons l ls ih =>
    obtain ⟨more, hmore⟩ := ih (r.report l.word (.unusedLocal l.word.text))
    refine ⟨.scope l.word (.unusedLocal l.word.text) :: more, ?_⟩
    rw [List.foldl_cons, hmore]
    simp [report]

/-- Leaving a scope takes it away and may add faults. -/
theorem leave_eq {scope : Scope} {scopes : List Scope} (h : r.scopes = scope :: scopes) :
    ∃ more, r.leave = { r with scopes, found := r.found ++ more } := by
  obtain ⟨more, hmore⟩ :=
    foldl_report (unused scope) { r with scopes }
  refine ⟨more, ?_⟩
  unfold leave
  rw [h]
  exact hmore

/-- Where a scope is left without a fault, all its locals are used. -/
theorem used_of_leave {scope : Scope} {scopes : List Scope} {name : String} {l : Local}
    (h : r.leave.found = []) (hscopes : r.scopes = scope :: scopes)
    (hl : scope.get? name = some l) : l.used = true := by
  have hunused : unused scope = [] := by
    unfold leave at h
    rw [hscopes] at h
    dsimp only at h
    cases hlocals : unused scope with
    | nil => rfl
    | cons first others =>
      rw [hlocals, List.foldl_cons] at h
      obtain ⟨more, hmore⟩ := foldl_report others
        (({ r with scopes } : Resolution).report first.word (.unusedLocal first.word.text))
      rw [hmore] at h
      simp [report] at h
  have hnone : (scope.entries.map (·.2)).filter (!·.used) = [] := by
    by_contra hne
    exact sortByNumber_ne_nil Local.order hne hunused
  have hmem : l ∈ scope.entries.map (·.2) := List.mem_map_of_mem (Slots.mem_of_get? hl)
  simpa using List.filter_eq_nil_iff.mp hnone l hmem

theorem grows_enter {scope : Scope} (h : (r.enter scope).Grows ids names r') :
    Grows ids [] r r'.leave := by
  have hscopes := h.scopes
  cases hr' : r'.scopes with
  | nil =>
    rw [hr'] at hscopes
    exact hscopes.elim
  | cons scope' scopes' =>
    rw [hr'] at hscopes
    obtain ⟨more, hleave⟩ := leave_eq hr'
    rw [hleave]
    refine ⟨h.found.trans (List.prefix_append ..), h.bindings, widened_nil_iff.mpr hscopes.2,
      fun x => ?_, fun hids => ?_⟩
    · have hglobals := h.globals x
      simp only [enter, reduceCtorEq, false_and, or_false] at hglobals
      simp [hglobals]
    · have hused := h.used hids
      rw [hr'] at hused
      cases hused with
      | cons _ htail => exact htail

end Resolution

/-! ## Growth by the walk -/

open Resolution

variable {r r₁ r₂ : Resolution} {ids ids₁ ids₂ : List Nat} {names₁ names₂ : List String}

theorem Resolution.Grows.seq (h₁ : Grows ids₁ names₁ r r₁) (h₂ : Grows ids₂ names₂ r₁ r₂)
    (h : ids = ids₁ ++ ids₂) : Grows ids (names₁ ++ names₂) r r₂ := h ▸ h₁.trans h₂

mutual

theorem expression_grows (around : Surroundings) :
    ∀ e r, Grows (Phrase.expression e).ids [] r (expression around e r)
  | .literal _, r => .refl r
  | .variable ref, r => grows_read (by simp)
  | .assign ref value, r =>
    ((expression_grows around value r).more (by simp +contextual)).andThen (grows_refer (by simp))
  | .unary _ _ operand, r => expression_grows around operand r
  | .binary _ _ left right, r =>
    (expression_grows around left r).seq (expression_grows around right _) (by simp)
  | .logical _ _ left right, r =>
    (expression_grows around left r).seq (expression_grows around right _) (by simp)
  | .comma left right, r =>
    (expression_grows around left r).seq (expression_grows around right _) (by simp)
  | .conditional condition whenTrue whenFalse, r =>
    ((expression_grows around condition r).trans (expression_grows around whenTrue _)).seq
      (expression_grows around whenFalse _) (by simp)
  | .grouping inner, r => expression_grows around inner r
  | .call callee arguments _, r =>
    (expression_grows around callee r).seq (expressions_grows around arguments _) (by simp)
  | .get object _, r => expression_grows around object r
  | .set object _ value, r =>
    Grows.more ((expression_grows around value r).trans (expression_grows around object _))
      (by simp +contextual [or_imp])
  | .this ref, r => grows_referThis (by simp)
  | .super ref _, r => grows_referSuper (by simp)
  | .function ⟨params, body⟩, r => routineBody_grows (around.within .function) ⟨params, body⟩ r

theorem expressions_grows (around : Surroundings) :
    ∀ es r, Grows (Phrase.expressions es).ids [] r (expressions around es r)
  | [], r => .refl r
  | e :: es, r => (expression_grows around e r).seq (expressions_grows around es _) (by simp)

theorem statement_grows (around : Surroundings) :
    ∀ s r, Grows (Phrase.statement s).ids s.declares r (statement around s r)
  | .expression e, r => expression_grows around e r
  | .print e, r => expression_grows around e r
  | .vars ds, r => declarators_grows around ds r
  | .block body, r => grows_enter (statements_grows around body r.enter)
  | .ifElse condition whenTrue none, r =>
    (expression_grows around condition r).seq (statement_grows around whenTrue _) (by simp)
  | .ifElse condition whenTrue (some whenFalse), r =>
    ((expression_grows around condition r).trans (statement_grows around whenTrue _)).seq
      (statement_grows around whenFalse _) (by simp)
  | .whileLoop condition body, r =>
    (expression_grows around condition r).seq
      (statement_grows { around with inLoop := true } body _) (by simp)
  | .breakLoop _, r => grows_checkBreak
  | .returnFrom _ none, r => grows_checkReturn
  | .returnFrom _ (some e), r => Grows.prepend grows_checkReturn (expression_grows around e _)
  | .function name ⟨params, body⟩, r =>
    (grows_declareDefine name).andThen
      (routineBody_grows (around.within .function) ⟨params, body⟩ _)
  | .class name none members, r =>
    (grows_declareDefine name).andThen (grows_enter (methods_grows _ members _))
  | .class name (some ref) members, r => by
    have hid : ref.id ∈ (Phrase.statement (.class name (some ref) members)).ids := by simp
    have hmethods (r : Resolution) :
        Grows (Phrase.statement (.class name (some ref) members)).ids [] r
          (methods { around with descent := some .derived } members r) :=
      (methods_grows _ members r).more (by simp +contextual)
    refine (grows_declareDefine name).andThen (Grows.prepend ?_ (Grows.prepend (grows_read hid)
      (grows_enter (grows_enter (hmethods _)))))
    split
    · exact grows_report ..
    · exact .refl _

theorem statements_grows (around : Surroundings) :
    ∀ body r, Grows (Phrase.statements body).ids (body.flatMap Stmt.declares) r
      (statements around body r)
  | [], r => .refl r
  | s :: rest, r => (statement_grows around s r).seq (statements_grows around rest _) (by simp)

theorem declarators_grows (around : Surroundings) :
    ∀ ds r, Grows (Phrase.declarators ds).ids (ds.map (·.name.text)) r (declarators around ds r)
  | [], r => .refl r
  | ⟨name, none⟩ :: rest, r => by
    have hname : Grows [] [name.text] r ((r.declare name).define name) := grows_declareDefine name
    exact hname.seq (declarators_grows around rest _) rfl
  | ⟨name, some e⟩ :: rest, r =>
    (((grows_declare name).andThen (expression_grows around e _)).andThen
      (grows_define name)).seq (declarators_grows around rest _) (by simp)

theorem methods_grows (around : Surroundings) :
    ∀ members r, Grows (Phrase.methods members).ids [] r (methods around members r)
  | [], r => .refl r
  | ⟨name, ⟨params, body⟩⟩ :: rest, r =>
    (routineBody_grows (around.within (.ofMethod name.text)) ⟨params, body⟩ r).seq
      (methods_grows around rest _) (by simp)

theorem routineBody_grows (around : Surroundings) :
    ∀ routine r, Grows (Phrase.routine routine).ids [] r (routineBody around routine r)
  | ⟨params, body⟩, r => by
    have hparams : Grows [] (params.map (·.text)) r.enter (r.enter.declareAll params) :=
      grows_declareAll params
    exact grows_enter (hparams.trans (statements_grows around body _))

end

/-- The walk over a phrase changes no more than it may. -/
theorem Phrase.walk_grows (around : Surroundings) (t : Phrase) (r : Resolution) :
    Grows t.ids t.declares r (t.walk around r) := by
  cases t with
  | expression e => exact expression_grows around e r
  | expressions es => exact expressions_grows around es r
  | statement s => exact statement_grows around s r
  | statements body => exact statements_grows around body r
  | declarators ds => exact declarators_grows around ds r
  | methods members => exact methods_grows around members r
  | routine routine => exact routineBody_grows around routine r

end Scoping

/-- A program is accepted if the walk over it finds no fault, and then its bindings are those of
the walk. -/
theorem Program.resolve_eq_ok {p : Program} {globals : List String} {bindings : Bindings} :
    p.resolve globals = .ok bindings ↔
      (Scoping.program p (.start globals)).found = [] ∧
        (Scoping.program p (.start globals)).bindings = bindings := by
  unfold Program.resolve
  dsimp only
  split
  · rename_i h
    simp [h]
  · rename_i h
    simp [h]

end ScriptLang
