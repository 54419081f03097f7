import ScriptLang.Proofs.Scoping.Walk

/-!
# Walks on top of earlier bindings

The walk over a phrase writes bindings and never reads them, and of the globals it only asks whether
a name is among them. So a walk that starts with the bindings of an earlier program finds the same
as one that starts with none: the same scopes and the same faults, and its bindings on top of
the earlier ones. `Resolution.Over` relates the two, and every step of the walk keeps it
(`Phrase.walk_over`).

`Program.resolve_append` is what follows for programs: statements can be added to an accepted
program, and then what is found is what the added ones give by themselves, if the names are known
that the program declares.
-/

namespace ScriptLang

/-! ## Tables on top of each other -/

namespace Bindings

variable {b b' : Bindings}

theorem ext_hops (h : ∀ id, b.hops? id = b'.hops? id) : b = b' :=
  Std.ExtTreeMap.ext_getElem? fun {id} => h id

theorem hops?_empty (id : Nat) : hops? ∅ id = none := by simp [hops?]

theorem merge_empty (b : Bindings) : b.merge ∅ = b := by
  refine ext_hops fun id => ?_
  have hmerge := hops?_merge b ∅ id
  rwa [hops?_empty, Option.none_or] at hmerge

theorem merge_assoc (b c d : Bindings) : (b.merge c).merge d = b.merge (c.merge d) := by
  refine ext_hops fun id => ?_
  have hleft := hops?_merge (b.merge c) d id
  have hright := hops?_merge b (c.merge d) id
  rw [hops?_merge b c id] at hleft
  rw [hops?_merge c d id, Option.or_assoc] at hright
  exact hleft.trans hright.symm

theorem bind_merge (b c : Bindings) (id hops : Nat) :
    (b.merge c).bind id hops = b.merge (c.bind id hops) := by
  refine ext_hops fun other => ?_
  have hmerge := hops?_merge b (c.bind id hops) other
  rw [hops?_bind] at hmerge
  rw [hops?_bind, hmerge, hops?_merge]
  split <;> rfl

end Bindings

namespace Scoping

namespace Resolution

/-- The second resolution is like the first one, with its bindings on top of earlier ones. -/
structure Over (earlier : Bindings) (r r' : Resolution) : Prop where
  scopes : r'.scopes = r.scopes
  globals : ∀ x, x ∈ r'.globals ↔ x ∈ r.globals
  bindings : r'.bindings = earlier.merge r.bindings
  found : r'.found = r.found

variable {earlier : Bindings} {r r' : Resolution}

/-! ## The steps of the walk -/

namespace Over

theorem report (h : Over earlier r r') (word : Lexeme) (fault : ScopeFault) :
    Over earlier (r.report word fault) (r'.report word fault) :=
  { h with found := by simp only [Resolution.report, h.found] }

theorem enter (h : Over earlier r r') (scope : Scope) :
    Over earlier (r.enter scope) (r'.enter scope) :=
  { h with scopes := by simp only [Resolution.enter, h.scopes] }

theorem reports (h : Over earlier r r') (ls : List Local) :
    Over earlier (ls.foldl (fun r l => r.report l.word (.unusedLocal l.word.text)) r)
      (ls.foldl (fun r l => r.report l.word (.unusedLocal l.word.text)) r') := by
  induction ls generalizing r r' with
  | nil => exact h
  | cons l ls ih => exact ih (h.report l.word (.unusedLocal l.word.text))

theorem leave (h : Over earlier r r') : Over earlier r.leave r'.leave := by
  unfold Resolution.leave
  rw [h.scopes]
  cases r.scopes with
  | nil => exact h
  | cons scope scopes =>
    have hinner : Over earlier { r with scopes } { r' with scopes } := { h with scopes := rfl }
    exact hinner.reports (unused scope)

theorem declare (h : Over earlier r r') (word : Lexeme) :
    Over earlier (r.declare word) (r'.declare word) := by
  unfold Resolution.declare
  rw [h.scopes]
  cases r.scopes with
  | nil => exact ⟨rfl, fun x => by simp [h.globals x], h.bindings, h.found⟩
  | cons scope scopes =>
    dsimp only
    split
    · exact { h.report word (.alreadyDeclared word.text) with scopes := rfl }
    · exact { h with scopes := rfl }

theorem define (h : Over earlier r r') (word : Lexeme) :
    Over earlier (r.define word) (r'.define word) := by
  unfold Resolution.define
  rw [h.scopes]
  cases r.scopes with
  | nil => exact h
  | cons scope scopes => exact { h with scopes := rfl }

theorem declareDefine (h : Over earlier r r') (word : Lexeme) :
    Over earlier ((r.declare word).define word) ((r'.declare word).define word) :=
  (h.declare word).define word

theorem declareAll (h : Over earlier r r') (words : List Lexeme) :
    Over earlier (r.declareAll words) (r'.declareAll words) := by
  induction words generalizing r r' with
  | nil => exact h
  | cons word words ih => exact ih (h.declareDefine word)

/-- Both bind the reference, or neither does. -/
theorem bind? (h : Over earlier r r') (ref : Ref) (skipped : Nat) :
    (r.bind? ref skipped = none ∧ r'.bind? ref skipped = none) ∨
      ∃ r₁ r₁', r.bind? ref skipped = some r₁ ∧ r'.bind? ref skipped = some r₁' ∧
        Over earlier r₁ r₁' := by
  unfold Resolution.bind?
  rw [h.scopes]
  cases (r.scopes.drop skipped).findIdx? (·.contains ref.word.text) with
  | none => exact .inl ⟨rfl, rfl⟩
  | some i =>
    refine .inr ⟨_, _, rfl, rfl, ?_⟩
    exact { h with
      scopes := rfl
      bindings := by rw [h.bindings]; exact Bindings.bind_merge .. }

theorem refer (h : Over earlier r r') (ref : Ref) : Over earlier (r.refer ref) (r'.refer ref) := by
  unfold Resolution.refer
  rcases h.bind? ref 0 with ⟨hnone, hnone'⟩ | ⟨r₁, r₁', hsome, hsome', hover⟩
  · rw [hnone, hnone']
    exact h
  · rw [hsome, hsome']
    exact hover

theorem read (h : Over earlier r r') (ref : Ref) : Over earlier (r.read ref) (r'.read ref) := by
  have hinitializing : r'.initializing ref.word.text = r.initializing ref.word.text := by
    unfold Resolution.initializing
    rw [h.scopes]
  unfold Resolution.read
  rw [hinitializing]
  split
  · rcases h.bind? ref 1 with ⟨hnone, hnone'⟩ | ⟨r₁, r₁', hsome, hsome', hover⟩
    · simp only [hnone, hnone', h.globals]
      split
      · exact h
      · exact h.report ..
    · rw [hsome, hsome']
      exact hover
  · exact h.refer ref

variable {around : Surroundings}

theorem checkBreak (h : Over earlier r r') (keyword : Lexeme) :
    Over earlier (r.checkBreak around keyword) (r'.checkBreak around keyword) := by
  unfold Resolution.checkBreak
  split
  · exact h
  · exact h.report ..

theorem checkReturn (h : Over earlier r r') (keyword : Lexeme) (hasValue : Bool) :
    Over earlier (r.checkReturn around keyword hasValue)
      (r'.checkReturn around keyword hasValue) := by
  unfold Resolution.checkReturn
  split
  · exact h.report ..
  · split
    · exact h.report ..
    · exact h
  · exact h

theorem referThis (h : Over earlier r r') (ref : Ref) :
    Over earlier (r.referThis around ref) (r'.referThis around ref) := by
  unfold Resolution.referThis
  split
  · exact h.report ..
  · exact h.refer ref

theorem referSuper (h : Over earlier r r') (ref : Ref) :
    Over earlier (r.referSuper around ref) (r'.referSuper around ref) := by
  unfold Resolution.referSuper
  split
  · exact (h.report ..).refer ref
  · exact (h.report ..).refer ref
  · exact h.refer ref

theorem enterClass (h : Over earlier r r') (name : Lexeme) (superclass : Option Ref) :
    Over earlier (r.enterClass name superclass) (r'.enterClass name superclass) := by
  cases superclass with
  | none => exact h.enter _
  | some ref =>
    have hreport : Over earlier
        (if ref.word.text = name.text then r.report ref.word .inheritsFromItself else r)
        (if ref.word.text = name.text then r'.report ref.word .inheritsFromItself else r') := by
      split
      · exact h.report ..
      · exact h
    exact ((hreport.read ref).enter _).enter _

theorem leaveClass (h : Over earlier r r') (superclass : Option Ref) :
    Over earlier (r.leaveClass superclass) (r'.leaveClass superclass) := by
  unfold Resolution.leaveClass
  split
  · exact h.leave.leave
  · exact h.leave

end Over

end Resolution

/-! ## The walk -/

open Resolution (Over)

variable {earlier : Bindings}

mutual

theorem expression_over (around : Surroundings) :
    ∀ e {r r'}, Over earlier r r' → Over earlier (expression around e r) (expression around e r')
  | .literal _, _, _, h => h
  | .variable ref, _, _, h => h.read ref
  | .assign ref value, _, _, h => (expression_over around value h).refer ref
  | .unary _ _ operand, _, _, h => expression_over around operand h
  | .binary _ _ left right, _, _, h =>
    expression_over around right (expression_over around left h)
  | .logical _ _ left right, _, _, h =>
    expression_over around right (expression_over around left h)
  | .comma left right, _, _, h => expression_over around right (expression_over around left h)
  | .conditional condition whenTrue whenFalse, _, _, h =>
    expression_over around whenFalse
      (expression_over around whenTrue (expression_over around condition h))
  | .grouping inner, _, _, h => expression_over around inner h
  | .call callee arguments _, _, _, h =>
    expressions_over around arguments (expression_over around callee h)
  | .get object _, _, _, h => expression_over around object h
  | .set object _ value, _, _, h =>
    expression_over around object (expression_over around value h)
  | .this ref, _, _, h => h.referThis ref
  | .super ref _, _, _, h => h.referSuper ref
  | .function ⟨params, body⟩, _, _, h =>
    routineBody_over (around.within .function) ⟨params, body⟩ h

theorem expressions_over (around : Surroundings) :
    ∀ es {r r'}, Over earlier r r' →
      Over earlier (expressions around es r) (expressions around es r')
  | [], _, _, h => h
  | e :: es, _, _, h => expressions_over around es (expression_over around e h)

theorem statement_over (around : Surroundings) :
    ∀ s {r r'}, Over earlier r r' → Over earlier (statement around s r) (statement around s r')
  | .expression e, _, _, h => expression_over around e h
  | .print e, _, _, h => expression_over around e h
  | .vars ds, _, _, h => declarators_over around ds h
  | .block body, _, _, h => (statements_over around body (h.enter _)).leave
  | .ifElse condition whenTrue none, _, _, h =>
    statement_over around whenTrue (expression_over around condition h)
  | .ifElse condition whenTrue (some whenFalse), _, _, h =>
    statement_over around whenFalse
      (statement_over around whenTrue (expression_over around condition h))
  | .whileLoop condition body, _, _, h =>
    statement_over { around with inLoop := true } body (expression_over around condition h)
  | .breakLoop keyword, _, _, h => h.checkBreak keyword
  | .returnFrom keyword none, _, _, h => h.checkReturn keyword false
  | .returnFrom keyword (some e), _, _, h =>
    expression_over around e (h.checkReturn keyword true)
  | .function name ⟨params, body⟩, _, _, h =>
    routineBody_over (around.within .function) ⟨params, body⟩ (h.declareDefine name)
  | .class name superclass members, _, _, h =>
    (methods_over _ members ((h.declareDefine name).enterClass name superclass)).leaveClass
      superclass

theorem statements_over (around : Surroundings) :
    ∀ body {r r'}, Over earlier r r' →
      Over earlier (statements around body r) (statements around body r')
  | [], _, _, h => h
  | s :: rest, _, _, h => statements_over around rest (statement_over around s h)

theorem declarators_over (around : Surroundings) :
    ∀ ds {r r'}, Over earlier r r' →
      Over earlier (declarators around ds r) (declarators around ds r')
  | [], _, _, h => h
  | ⟨name, none⟩ :: rest, _, _, h => declarators_over around rest (h.declareDefine name)
  | ⟨name, some e⟩ :: rest, _, _, h =>
    declarators_over around rest ((expression_over around e (h.declare name)).define name)

theorem methods_over (around : Surroundings) :
    ∀ members {r r'}, Over earlier r r' →
      Over earlier (methods around members r) (methods around members r')
  | [], _, _, h => h
  | ⟨name, ⟨params, body⟩⟩ :: rest, _, _, h =>
    methods_over around rest
      (routineBody_over (around.within (.ofMethod name.text)) ⟨params, body⟩ h)

theorem routineBody_over (around : Surroundings) :
    ∀ routine {r r'}, Over earlier r r' →
      Over earlier (routineBody around routine r) (routineBody around routine r')
  | ⟨params, body⟩, _, _, h =>
    (statements_over around body ((h.enter _).declareAll params)).leave

end

theorem statements_append (around : Surroundings) (P Q : List Stmt) (r : Resolution) :
    statements around (P ++ Q) r = statements around Q (statements around P r) := by
  induction P generalizing r with
  | nil => rfl
  | cons s rest ih => exact ih (statement around s r)

end Scoping

/-! ## Programs -/

/-- If a program is accepted, what is found with more statements after it is what these give by
themselves, where the names are known that the program declares. The bindings are those of both. -/
theorem Program.resolve_append {P Q : List Stmt} {globals names : List String} {b : Bindings}
    (hP : Program.resolve ⟨P, none⟩ globals = .ok b)
    (hnames : ∀ x, x ∈ names ↔ x ∈ globals ∨ x ∈ P.flatMap Stmt.declares) :
    Program.resolve ⟨P ++ Q, none⟩ globals =
      (Program.resolve ⟨Q, none⟩ names).map fun c => b.merge c := by
  obtain ⟨hfound, hbindings⟩ := Program.resolve_eq_ok.mp hP
  have hgrows := Scoping.statements_grows {} P (.start globals)
  have hwalk : Scoping.Resolution.Over b (.start names) (Scoping.statements {} P (.start globals)) := by
    refine ⟨hgrows.scopes.nil_iff.mpr rfl, fun x => ?_, ?_, hfound⟩
    · have hglobals : x ∈ (Scoping.statements {} P (.start globals)).globals ↔
          x ∈ globals ∨ (([] : List Scoping.Scope) = [] ∧ x ∈ P.flatMap Stmt.declares) := hgrows.globals x
      rw [hglobals, and_iff_right rfl]
      exact (hnames x).symm
    · have hmerge : b.merge ∅ = b := Bindings.merge_empty b
      exact hbindings.trans hmerge.symm
  have hover := Scoping.statements_over {} Q hwalk
  rw [← Scoping.statements_append] at hover
  have hbindings' : (Scoping.statements {} (P ++ Q) (.start globals)).bindings =
      b.merge (Scoping.statements {} Q (.start names)).bindings := hover.bindings
  unfold Program.resolve Scoping.program
  simp only [hover.found, hbindings']
  split <;> rfl

end ScriptLang
