import ScriptLang.Proofs.Grammar.ForLoops
import ScriptLang.Proofs.Scoping.Initializers
import ScriptLang.Proofs.Scoping.Tracking

/-!
# The scopes of loops with clauses

The tree of a loop with clauses has up to two blocks of its own: one with the first clause around
all rounds, and one around each round. So the condition, the body and the increment are walked over
in the scopes around the loop and in these (`ForLoop.place`), and the walk counts them like any
other scopes.
-/

namespace ScriptLang.Scoping

open Relation (ReflTransGen)

/-! ## Phrases that declare nothing -/

open Resolution

/-- A statement that declares nothing leaves the locals of all scopes around it as they are. -/
theorem statement_spares_all (around : Surroundings) :
    ∀ s r, s.declares = [] → Spares 0 r (statement around s r)
  | .expression e, r, _ => expression_spares around e r
  | .print e, r, _ => expression_spares around e r
  | .vars [], r, _ => .refl r
  | .vars (d :: ds), _, h => by cases h
  | .block body, r, _ => (statements_spares around body r.enter).leave
  | .ifElse condition whenTrue none, r, h =>
    (expression_spares around condition r).trans (statement_spares_all around whenTrue _ h)
  | .ifElse condition whenTrue (some whenFalse), r, h =>
    ((expression_spares around condition r).trans
      (statement_spares_all around whenTrue _ (List.append_eq_nil_iff.mp h).1)).trans
        (statement_spares_all around whenFalse _ (List.append_eq_nil_iff.mp h).2)
  | .whileLoop condition body, r, h =>
    (expression_spares around condition r).trans
      (statement_spares_all { around with inLoop := true } body _ h)
  | .breakLoop keyword, _, _ => spares_checkBreak around keyword
  | .returnFrom keyword none, _, _ => spares_checkReturn around keyword false
  | .returnFrom keyword (some e), _, _ =>
    (spares_checkReturn around keyword true).trans (expression_spares around e _)

/-! ## Places inside places -/

/-- The walk from the first place to the second one enters the scopes of the sites. Those around
have the same locals as before, but perhaps for the innermost one. -/
structure Place.Enters (P Q : Place) (inner : List Site) : Prop where
  sites : Q.sites = inner ++ P.sites
  outer : List.Forall₂ SameLocals (P.state.scopes.drop 1) (Q.state.scopes.drop (inner.length + 1))
  /-- The innermost one has, too, if the phrase declares nothing there. -/
  innermost : P.phrase.declares = [] →
    List.Forall₂ SameLocals P.state.scopes (Q.state.scopes.drop inner.length) ∧
      (inner = [] → Q.phrase.declares = [])

section Enters

variable {P Q : Place}

theorem Place.Enters.same (hsites : Q.sites = P.sites) (houter : P.state.Spares 1 Q.state)
    (hinnermost : P.phrase.declares = [] → P.state.Spares 0 Q.state ∧ Q.phrase.declares = []) :
    P.Enters Q [] :=
  ⟨hsites, houter, fun h => ⟨(hinnermost h).1, fun _ => (hinnermost h).2⟩⟩

/-- A part in the same scopes, before which only expressions were walked over. -/
theorem Place.Enters.quiet (hsites : Q.sites = P.sites) (hstate : P.state.Spares 0 Q.state)
    (hdeclares : P.phrase.declares = [] → Q.phrase.declares = []) : P.Enters Q [] :=
  .same hsites hstate.outer fun h => ⟨hstate, hdeclares h⟩

theorem spares_enterClass (r : Resolution) (name : Lexeme) (superclass : Option Ref)
    (members : List Method) (S : List Site) :
    ∃ inner, classSites superclass members S = inner ++ S ∧
      List.Forall₂ SameLocals r.scopes
        ((r.enterClass name superclass).scopes.drop inner.length) := by
  cases superclass with
  | none => exact ⟨[.self members], rfl, forall₂_sameLocals_refl _⟩
  | some ref =>
    refine ⟨[.self members, .super members], rfl, ?_⟩
    have hreport : Spares 0 r
        (if ref.word.text = name.text then r.report ref.word .inheritsFromItself else r) := by
      split
      · exact spares_report ..
      · exact .refl r
    exact hreport.trans (spares_read ref)

/-- What one step of the walk enters. -/
theorem Visits.enters (h : Visits P Q) : ∃ inner, P.Enters Q inner := by
  cases h with
  | binaryRight | logicalRight | commaRight | whenTrue | arguments | setObject | others =>
    exact ⟨[], .quiet rfl (expression_spares _ _ _) fun _ => rfl⟩
  | whenFalse =>
    exact ⟨[], .quiet rfl ((expression_spares _ _ _).trans (expression_spares _ _ _)) fun _ => rfl⟩
  | declared => exact ⟨[], .quiet rfl (.refl _) id⟩
  | block => exact ⟨[_], rfl, forall₂_sameLocals_refl _, fun _ => ⟨forall₂_sameLocals_refl _, nofun⟩⟩
  | @chosen _ _ _ _ _ whenFalse =>
    refine ⟨[], .quiet rfl (expression_spares _ _ _) fun h => ?_⟩
    cases whenFalse with
    | none => exact h
    | some whenFalse => exact (List.append_eq_nil_iff.mp h).1
  | alternative =>
    refine ⟨[], .same rfl ((expression_spares _ _ _).outer.trans (statement_spares _ _ _)) fun h => ?_⟩
    obtain ⟨hwhenTrue, hwhenFalse⟩ := List.append_eq_nil_iff.mp h
    exact ⟨(expression_spares _ _ _).trans (statement_spares_all _ _ _ hwhenTrue), hwhenFalse⟩
  | roundBody => exact ⟨[], .quiet rfl (expression_spares _ _ _) id⟩
  | returned => exact ⟨[], .quiet rfl (spares_checkReturn ..) fun _ => rfl⟩
  | declaredFunction => exact ⟨[], .same rfl (spares_declareDefine _) nofun⟩
  | @members a S r name superclass members =>
    obtain ⟨inner, hsites, hinner⟩ :=
      spares_enterClass ((r.declare name).define name) name superclass members S
    refine ⟨inner, hsites, ?_, nofun⟩
    have hdeclared : Spares 1 r ((r.declare name).define name) := spares_declareDefine name
    have hentered := List.forall₂_drop 1 hinner
    rw [List.drop_drop] at hentered
    exact forall₂_sameLocals_trans hdeclared hentered
  | head => exact ⟨[], .quiet rfl (.refl _) fun h => (List.append_eq_nil_iff.mp h).1⟩
  | tail =>
    refine ⟨[], .same rfl (statement_spares _ _ _) fun h => ?_⟩
    obtain ⟨hfirst, hrest⟩ := List.append_eq_nil_iff.mp h
    exact ⟨statement_spares_all _ _ _ hfirst, hrest⟩
  | initializer => exact ⟨[], .same rfl (spares_declare _) nofun⟩
  | afterInitializer =>
    exact ⟨[], .same rfl (((spares_declare _).trans (expression_spares _ _ _).outer).trans
      (spares_define _)) nofun⟩
  | afterName => exact ⟨[], .same rfl (spares_declareDefine _) nofun⟩
  | otherMethods => exact ⟨[], .quiet rfl (routineBody_spares _ _ _) fun _ => rfl⟩
  | @body a S r routine =>
    have hparams : List.Forall₂ SameLocals r.scopes ((r.enter.declareAll routine.params).scopes.drop 1) :=
      spares_declareAll (r := r.enter) routine.params
    refine ⟨[_], rfl, ?_, fun _ => ⟨hparams, nofun⟩⟩
    have houter := List.forall₂_drop 1 hparams
    rwa [List.drop_drop] at houter
  | _ => exact ⟨[], .quiet rfl (.refl _) fun _ => rfl⟩

/-- What the walk over a phrase that declares nothing has entered anywhere inside it. -/
theorem Visits.path_enters (hquiet : P.phrase.declares = []) (h : ReflTransGen Visits P Q) :
    ∃ inner, Q.sites = inner ++ P.sites ∧
      List.Forall₂ SameLocals P.state.scopes (Q.state.scopes.drop inner.length) ∧
      (inner = [] → Q.phrase.declares = []) := by
  induction h with
  | refl => exact ⟨[], rfl, forall₂_sameLocals_refl _, fun _ => hquiet⟩
  | @tail Q R _ hlast ih =>
    obtain ⟨inner, hsites, hlocals, hdeclares⟩ := ih
    obtain ⟨more, hmore⟩ := hlast.enters
    refine ⟨more ++ inner, by rw [hmore.sites, hsites, List.append_assoc], ?_, fun h => ?_⟩
    · cases inner with
      | nil =>
        rw [List.append_nil]
        exact forall₂_sameLocals_trans hlocals (hmore.innermost (hdeclares rfl)).1
      | cons site inner =>
        have houter := List.forall₂_drop inner.length hmore.outer
        rw [List.drop_drop, List.drop_drop, Nat.add_comm 1] at houter
        refine forall₂_sameLocals_trans hlocals ?_
        rw [List.length_append, List.length_cons, ← Nat.add_assoc, Nat.add_right_comm]
        exact houter
    · obtain ⟨rfl, rfl⟩ := List.append_eq_nil_iff.mp h
      exact (hmore.innermost (hdeclares rfl)).2 rfl

end Enters

/-! ## Names in scope -/

/-- What a name means does not depend on which of the two scopes it is looked up in. -/
def AlikeAt (x : String) (s s' : Scope) : Prop :=
  (s'.get? x).map Local.defined = (s.get? x).map Local.defined

section Alike

variable {x : String} {s s' : Scope}

theorem AlikeAt.refl (x : String) (s : Scope) : AlikeAt x s s := rfl

theorem SameLocals.alikeAt (h : SameLocals s s') (x : String) : AlikeAt x s s' := by
  have hx := congrArg (Option.map Prod.snd) (h x)
  rwa [Option.map_map, Option.map_map] at hx

theorem AlikeAt.contains (h : AlikeAt x s s') : s'.contains x = s.contains x := by
  have hx := congrArg Option.isSome h
  rwa [Option.isSome_map, Option.isSome_map] at hx

end Alike

namespace Resolution

variable {r r' : Resolution} {k : Nat} {x : String}

/-- So many scopes out is the first scope that has the name, and its initializer is done there. -/
structure Offers (r : Resolution) (k : Nat) (x : String) : Prop where
  has : ∃ scope, r.scopes[k]? = some scope ∧ (scope.get? x).map Local.defined = some true
  first : ∀ j scope, j < k → r.scopes[j]? = some scope → ¬ scope.contains x

/-- The name is still offered where more scopes were entered that do not have it. -/
theorem Offers.within (h : r.Offers k x) {inner : Nat}
    (halike : List.Forall₂ (AlikeAt x) r.scopes (r'.scopes.drop inner))
    (hinner : ∀ j scope, j < inner → r'.scopes[j]? = some scope → ¬ scope.contains x) :
    r'.Offers (inner + k) x := by
  have hat (j : Nat) := forall₂_getElem? halike j
  simp only [List.getElem?_drop] at hat
  obtain ⟨⟨scope, hscope, hdefined⟩, hfirst⟩ := h
  refine ⟨?_, fun j scope' hj hscope' => ?_⟩
  · have hk := hat k
    rw [hscope] at hk
    generalize r'.scopes[inner + k]? = o at hk ⊢
    cases hk with
    | some hsame => exact ⟨_, rfl, hsame.trans hdefined⟩
  · rcases Nat.lt_or_ge j inner with hlt | hge
    · exact hinner j scope' hlt hscope'
    · obtain ⟨i, rfl⟩ := Nat.exists_eq_add_of_le hge
      have hi := hat i
      rw [hscope'] at hi
      generalize hold : r.scopes[i]? = o at hi
      cases hi with
      | some hsame =>
        rw [hsame.contains]
        exact hfirst i _ (Nat.lt_of_add_lt_add_left hj) hold

theorem Offers.congr (h : r.Offers k x)
    (halike : List.Forall₂ (AlikeAt x) r.scopes r'.scopes) : r'.Offers k x := by
  have hwithin : r'.Offers (0 + k) x :=
    h.within halike fun j _ hj => absurd hj (Nat.not_lt_zero j)
  rwa [Nat.zero_add] at hwithin

theorem Offers.spared (h : r.Offers k x) (hr : Spares 0 r r') : r'.Offers k x :=
  h.congr (List.Forall₂.imp (fun _ _ hsame => hsame.alikeAt x) hr)

theorem Offers.enter (h : r.Offers k x) : r.enter.Offers (k + 1) x := by
  rw [Nat.add_comm]
  refine h.within (List.forall₂_same.mpr fun s _ => .refl x s) fun j scope hj hscope => ?_
  obtain rfl : j = 0 := Nat.lt_one_iff.mp hj
  cases hscope
  simp [Slots.contains, Slots.get?_empty]

/-- A name that is declared does not hide others. -/
theorem Offers.declareDefine (h : r.Offers k x) {word : Lexeme} (hne : x ≠ word.text) :
    ((r.declare word).define word).Offers k x := by
  refine h.congr ?_
  obtain ⟨scopes, globals, bindings, found⟩ := r
  cases scopes with
  | nil => exact .nil
  | cons scope scopes =>
    have hsame (l : Local) (f : Local → Local) :
        AlikeAt x scope ((scope.set word.text l).modify word.text f) := by
      unfold AlikeAt
      rw [Slots.get?_modify, if_neg hne, Slots.get?_set_of_ne _ _ hne]
    have hrest : List.Forall₂ (AlikeAt x) scopes scopes :=
      List.forall₂_same.mpr fun s _ => .refl x s
    unfold declare
    by_cases hcontains : scope.contains word.text <;> simp only [hcontains] <;>
      exact .cons (hsame _ _) hrest

theorem Offers.initializing (h : r.Offers k x) : r.initializing x = false := by
  obtain ⟨⟨scope, hscope, hdefined⟩, hfirst⟩ := h
  unfold Resolution.initializing
  cases hscopes : r.scopes with
  | nil => rfl
  | cons s ss =>
    rw [hscopes] at hscope hfirst
    dsimp only
    cases k with
    | zero =>
      cases hscope
      obtain ⟨l, hl, hdone⟩ := Option.map_eq_some_iff.mp hdefined
      rw [hl]
      dsimp only
      rw [hdone]
      rfl
    | succ k =>
      have hnone := hfirst 0 s (Nat.succ_pos k) rfl
      rw [Slots.contains, Option.not_isSome_iff_eq_none] at hnone
      rw [hnone]

theorem Offers.refers? {ref : Ref} (h : r.Offers k ref.word.text) : r.refers? ref = some k := by
  obtain ⟨scope, hscope, hdefined⟩ := h.has
  obtain ⟨l, hl, -⟩ := Option.map_eq_some_iff.mp hdefined
  refine index?_eq_some.mpr ⟨Nat.zero_le k, ⟨scope, hscope, ?_⟩, fun j scope' _ => h.first j scope'⟩
  rw [Slots.contains, hl]
  rfl

theorem Offers.reads? {ref : Ref} (h : r.Offers k ref.word.text) : r.reads? ref = some k := by
  unfold Resolution.reads?
  rw [h.initializing]
  exact h.refers?

end Resolution

/-- A reference is bound to the scope that offers its name. -/
theorem Place.Sound.hops_of_offers {table : Bindings} {P : Place} (hP : P.Sound table) {ref : Ref}
    (hmentions : P.Mentions ref) {k : Nat} (hoffers : P.state.Offers k ref.word.text) :
    table.hops? ref.id = some k := by
  cases hmentions with
  | «variable» => exact (hP.seeks .variable).trans hoffers.reads?
  | assign => exact (hP.seeks .assign).trans (hoffers.spared (expression_spares _ _ _)).refers?
  | this => exact (hP.seeks .this).trans hoffers.refers?
  | super => exact (hP.seeks .super).trans hoffers.refers?
  | superclass =>
    exact (hP.seeks .superclass).trans (hoffers.declareDefine hP.superclass.1).reads?

/-! ## Declared variables -/

namespace Resolution

/-- The initializers of the innermost locals are done. -/
def Done (r : Resolution) : Prop :=
  ∀ scope, r.scopes.head? = some scope → ∀ x l, scope.get? x = some l → l.defined = true

theorem done_enter (r : Resolution) : r.enter.Done := by
  intro scope hscope x l hl
  cases hscope
  rw [Slots.get?_empty] at hl
  cases hl

theorem head?_declare (r : Resolution) (word : Lexeme) :
    (r.declare word).scopes.head? = r.scopes.head?.map fun scope =>
      scope.set word.text ⟨word, false, false, scope.size⟩ := by
  obtain ⟨scopes, globals, bindings, found⟩ := r
  cases scopes with
  | nil => rfl
  | cons scope scopes =>
    unfold declare
    cases scope.contains word.text <;> rfl

/-- A variable is done once its initializer was walked over. -/
theorem Done.define {r r₁ : Resolution} (h : r.Done) {word : Lexeme}
    (hr : Spares 0 (r.declare word) r₁) : (r₁.define word).Done := by
  intro scope hscope x l hl
  have hsame := forall₂_getElem? hr 0
  rw [List.drop_zero, List.drop_zero, ← List.head?_eq_getElem?, ← List.head?_eq_getElem?,
    head?_declare] at hsame
  unfold Resolution.define at hscope
  cases hscopes : r₁.scopes with
  | nil => simp [hscopes] at hscope
  | cons s ss =>
    rw [hscopes] at hscope hsame
    cases hscope
    rw [Slots.get?_modify] at hl
    split at hl
    · obtain ⟨l', -, rfl⟩ := Option.map_eq_some_iff.mp hl
      rfl
    · -- another local, which the declaration left as it was
      rename_i hne
      cases hold : r.scopes.head? with
      | none =>
        rw [hold] at hsame
        cases hsame
      | some s₀ =>
        rw [hold] at hsame
        cases hsame with
        | some hsame =>
          have hx := hsame.alikeAt x
          unfold AlikeAt at hx
          rw [hl, Slots.get?_set_of_ne _ _ hne] at hx
          obtain ⟨l₀, hl₀, hdefined⟩ := Option.map_eq_some_iff.mp hx.symm
          rw [← hdefined]
          exact h s₀ hold x l₀ hl₀

end Resolution

theorem declarators_done (around : Surroundings) : ∀ ds (r : Resolution), r.Done →
    (declarators around ds r).Done
  | [], _, h => h
  | ⟨_, none⟩ :: rest, _, h => declarators_done around rest _ (h.define (.refl _))
  | ⟨_, some e⟩ :: rest, _, h =>
    declarators_done around rest _ (h.define (expression_spares around e _))

end ScriptLang.Scoping

/-! ## Places of loops -/

namespace ScriptLang.ForLoop

open Scoping
open Relation (ReflTransGen)

/-- The scope of the first clause and all rounds. -/
def ownSites (loop : ForLoop) : List Site :=
  match loop.initializer with
  | some i => [.block [i.tree, loop.whileTree]]
  | none => []

/-- The scope of one round. -/
def roundSites (loop : ForLoop) : List Site :=
  match loop.increment with
  | some e => [.block [loop.body, .expression e]]
  | none => []

/-- The scopes of a piece inside that of the first clause. -/
def sitesOf (loop : ForLoop) : Piece → List Site
  | .condition => []
  | .body | .increment => loop.roundSites

/-- The place of the loop without its first clause. -/
def whilePlace (loop : ForLoop) (P : Place) : Place where
  around := P.around
  phrase := .statement loop.whileTree
  sites := loop.ownSites ++ P.sites
  state :=
    match loop.initializer with
    | some i => Scoping.statement P.around i.tree P.state.enter
    | none => P.state

/-- The place of the body. -/
def bodyPlace (loop : ForLoop) (P : Place) : Place where
  around := { P.around with inLoop := true }
  phrase := .statement loop.body
  sites := loop.roundSites ++ (loop.whilePlace P).sites
  state :=
    let r := Scoping.expression P.around loop.conditionTree (loop.whilePlace P).state
    match loop.increment with
    | some _ => r.enter
    | none => r

/-- The place of a piece of a loop. -/
def place (loop : ForLoop) (P : Place) : Piece → Place
  | .condition => { loop.whilePlace P with phrase := .expression loop.conditionTree }
  | .body => loop.bodyPlace P
  | .increment =>
    let B := loop.bodyPlace P
    { B with
      phrase := .expression (loop.increment.getD (.literal (.bool true)))
      state := Scoping.statement B.around loop.body B.state }

variable {loop : ForLoop} {P : Place} {piece : Piece} {t : Phrase}

theorem sites_place : (loop.place P piece).sites = loop.sitesOf piece ++ (loop.ownSites ++ P.sites) := by
  cases piece <;> rfl

theorem phrase_place (ht : loop.phrase? piece = some t) : (loop.place P piece).phrase = t := by
  cases piece with
  | condition =>
    obtain ⟨e, he, rfl⟩ := Option.map_eq_some_iff.mp ht
    exact congrArg (fun c => Phrase.expression (Option.getD c _)) he
  | body => exact Option.some.inj ht
  | increment =>
    obtain ⟨e, he, rfl⟩ := Option.map_eq_some_iff.mp ht
    exact congrArg (fun c => Phrase.expression (Option.getD c _)) he

theorem path_whilePlace (hP : P.phrase = .statement loop.tree) :
    ReflTransGen Visits P (loop.whilePlace P) := by
  obtain ⟨a, t, S, r⟩ := P
  cases hP
  unfold whilePlace ownSites
  rw [loop.tree_eq]
  cases loop.initializer with
  | none => exact .refl
  | some i => exact ((ReflTransGen.single .block).tail .tail).tail .head

theorem path_bodyPlace : ReflTransGen Visits (loop.whilePlace P) (loop.bodyPlace P) := by
  have hround : Visits (loop.whilePlace P) _ := .roundBody
  refine .head hround ?_
  unfold bodyPlace roundSites roundTree
  cases loop.increment with
  | none => exact .refl
  | some e => exact (ReflTransGen.single .block).tail .head

/-- The walk over a loop goes over its pieces, in these scopes. -/
theorem path_place (hP : P.phrase = .statement loop.tree) (ht : loop.phrase? piece = some t) :
    ReflTransGen Visits P (loop.place P piece) := by
  refine (path_whilePlace hP).trans ?_
  cases piece with
  | condition => exact .single .roundCondition
  | body => exact path_bodyPlace
  | increment =>
    obtain ⟨e, he, rfl⟩ := Option.map_eq_some_iff.mp ht
    have hround : Visits (loop.whilePlace P) _ := .roundBody
    refine .head hround ?_
    unfold place bodyPlace roundSites roundTree
    rw [he]
    exact (((ReflTransGen.single .block).tail .tail).tail .head).tail .evaluated

/-! ## Names of loops -/

/-- The phrases of a round declare nothing in the scopes around them. -/
theorem declares_place (hbody : loop.body.declares = []) :
    (loop.place P piece).phrase.declares = [] := by
  cases piece with
  | condition => rfl
  | body => exact hbody
  | increment => rfl

theorem offers_whilePlace {x : String} (hx : x ∈ loop.names) :
    (loop.whilePlace P).state.Offers 0 x := by
  unfold names at hx
  split at hx
  · rename_i ds hds
    have hstate : (loop.whilePlace P).state = declarators P.around ds P.state.enter := by
      unfold whilePlace
      rw [hds]
      rfl
    obtain ⟨scope, scopes, hscopes, hnames, -⟩ :=
      (declarators_grows P.around ds P.state.enter).scopes.of_cons rfl
    have hcontains : scope.contains x = true := (hnames x).mpr (.inr hx)
    obtain ⟨l, hl⟩ := Option.isSome_iff_exists.mp hcontains
    have hdone := declarators_done P.around ds _ P.state.done_enter
    rw [hstate]
    refine ⟨⟨scope, by rw [hscopes]; rfl, ?_⟩, fun j _ hj => absurd hj (Nat.not_lt_zero j)⟩
    rw [hl, Option.map_some, hdone scope (by rw [hscopes]; rfl) x l hl]
  · cases hx

/-- At each piece the variables of the loop are in the scope of the first clause. -/
theorem offers_place (hbody : loop.body.declares = []) {x : String} (hx : x ∈ loop.names) :
    (loop.place P piece).state.Offers (loop.sitesOf piece).length x := by
  have hwhile := offers_whilePlace (P := P) hx
  have hround : (loop.bodyPlace P).state.Offers loop.roundSites.length x := by
    have hcondition := hwhile.spared (expression_spares P.around loop.conditionTree _)
    unfold bodyPlace roundSites
    cases loop.increment with
    | none => exact hcondition
    | some e => exact hcondition.enter
  cases piece with
  | condition => exact hwhile
  | body => exact hround
  | increment => exact hround.spared (statement_spares_all _ _ _ hbody)

end ScriptLang.ForLoop

namespace ScriptLang.Scoping

open Relation (ReflTransGen)

/-- **References to the variables of a loop.** Wherever in a piece of a loop a variable of the loop
is referred to, it is bound as many scopes out as were entered in the piece, and then past the scope
of the round if the piece is in one. -/
theorem Place.Sound.hops_forLoop {table : Bindings} {P Q : Place} {loop : ForLoop}
    {piece : ForLoop.Piece} {t : Phrase} {ref : Ref} {inner : List Site} (hP : P.Sound table)
    (hphrase : P.phrase = .statement loop.tree) (hbody : loop.body.declares = [])
    (ht : loop.phrase? piece = some t) (hQ : ReflTransGen Visits (loop.place P piece) Q)
    (hmentions : Q.Mentions ref) (hname : ref.word.text ∈ loop.names)
    (hsites : Q.sites = inner ++ (loop.place P piece).sites)
    (hinner : ∀ k scope, k < inner.length → Q.state.scopes[k]? = some scope →
      ¬ scope.contains ref.word.text) :
    table.hops? ref.id = some (inner.length + (loop.sitesOf piece).length) := by
  have hsound := Visits.path_sound ((ForLoop.path_place hphrase ht).trans hQ) hP
  obtain ⟨inner', hsites', hlocals, -⟩ := Visits.path_enters (ForLoop.declares_place hbody) hQ
  obtain rfl : inner = inner' := List.append_cancel_right (hsites.symm.trans hsites')
  have halike : List.Forall₂ (AlikeAt ref.word.text) (loop.place P piece).state.scopes
      (Q.state.scopes.drop inner.length) :=
    List.Forall₂.imp (fun _ _ hsame => hsame.alikeAt _) hlocals
  exact hsound.hops_of_offers hmentions ((ForLoop.offers_place hbody hname).within halike hinner)

end ScriptLang.Scoping
