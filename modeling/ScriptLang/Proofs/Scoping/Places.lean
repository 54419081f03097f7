import Mathlib.Data.List.Nodup
import Mathlib.Logic.Relation
import ScriptLang.Proofs.Program.WellFormed

/-!
# Places of a walk

A `Place` is the start of the walk over one phrase: what surrounds it, what the scopes around
it are the scopes of (`Site`), and what was found out so far. The walk over a phrase visits
the phrases inside it, in its own order and with the scopes it enters on the way; `Visits` has
one rule for each. The places of a program are those reached from its start.

A place is `Sound` for a table of bindings if the table has, for the references at the place,
what the walk finds there, and nothing else is wrong with it. If a program is accepted, its
start is sound for its table, and so are all its places (`Visits.sound`).
-/

namespace ScriptLang.Scoping

/-! ## Places -/

/-- What a scope is the scope of: a block, a routine, or the methods of a class, around which
there is one scope with `this` and perhaps one with `super`. -/
inductive Site
  | block (body : List Stmt)
  | routine (r : Routine)
  | self (members : List Method)
  | super (members : List Method)

/-- The numbers of the references inside a site. -/
def Site.ids : Site → List Nat
  | block body => (Phrase.statements body).ids
  | routine r => (Phrase.routine r).ids
  | self members => (Phrase.methods members).ids
  | super members => (Phrase.methods members).ids

/-- The start of the walk over a phrase. -/
structure Place where
  around : Surroundings
  phrase : Phrase
  /-- What the scopes of `state` are the scopes of. -/
  sites : List Site
  state : Resolution

/-- What is found out by the walk over the phrase. -/
def Place.after (P : Place) : Resolution := P.phrase.walk P.around P.state

/-- The start of the walk over statements outside all scopes. -/
def Place.ofStatements (body : List Stmt) (globals : List String) : Place :=
  ⟨{}, .statements body, [], .start globals⟩

/-- The scopes around the methods of a class. -/
def classSites (superclass : Option Ref) (members : List Method) (sites : List Site) :
    List Site :=
  match superclass with
  | none => .self members :: sites
  | some _ => .self members :: .super members :: sites

/-- What surrounds the methods of a class. -/
def Surroundings.inClass (around : Surroundings) (superclass : Option Ref) : Surroundings :=
  { around with descent := some (if superclass.isSome then .derived else .base) }

/-! ## Visits -/

/-- The walk at the first place goes over the phrase at the second place. -/
inductive Visits : Place → Place → Prop
  -- expressions
  | assignValue {a S r ref value} :
    Visits ⟨a, .expression (.assign ref value), S, r⟩ ⟨a, .expression value, S, r⟩
  | unaryOperand {a S r op sign operand} :
    Visits ⟨a, .expression (.unary op sign operand), S, r⟩ ⟨a, .expression operand, S, r⟩
  | binaryLeft {a S r op sign left right} :
    Visits ⟨a, .expression (.binary op sign left right), S, r⟩ ⟨a, .expression left, S, r⟩
  | binaryRight {a S r op sign left right} :
    Visits ⟨a, .expression (.binary op sign left right), S, r⟩
      ⟨a, .expression right, S, expression a left r⟩
  | logicalLeft {a S r op sign left right} :
    Visits ⟨a, .expression (.logical op sign left right), S, r⟩ ⟨a, .expression left, S, r⟩
  | logicalRight {a S r op sign left right} :
    Visits ⟨a, .expression (.logical op sign left right), S, r⟩
      ⟨a, .expression right, S, expression a left r⟩
  | commaLeft {a S r left right} :
    Visits ⟨a, .expression (.comma left right), S, r⟩ ⟨a, .expression left, S, r⟩
  | commaRight {a S r left right} :
    Visits ⟨a, .expression (.comma left right), S, r⟩
      ⟨a, .expression right, S, expression a left r⟩
  | condition {a S r condition whenTrue whenFalse} :
    Visits ⟨a, .expression (.conditional condition whenTrue whenFalse), S, r⟩
      ⟨a, .expression condition, S, r⟩
  | whenTrue {a S r condition whenTrue whenFalse} :
    Visits ⟨a, .expression (.conditional condition whenTrue whenFalse), S, r⟩
      ⟨a, .expression whenTrue, S, expression a condition r⟩
  | whenFalse {a S r condition whenTrue whenFalse} :
    Visits ⟨a, .expression (.conditional condition whenTrue whenFalse), S, r⟩
      ⟨a, .expression whenFalse, S, expression a whenTrue (expression a condition r)⟩
  | grouping {a S r inner} :
    Visits ⟨a, .expression (.grouping inner), S, r⟩ ⟨a, .expression inner, S, r⟩
  | callee {a S r callee arguments closing} :
    Visits ⟨a, .expression (.call callee arguments closing), S, r⟩ ⟨a, .expression callee, S, r⟩
  | arguments {a S r callee arguments closing} :
    Visits ⟨a, .expression (.call callee arguments closing), S, r⟩
      ⟨a, .expressions arguments, S, expression a callee r⟩
  | getObject {a S r object property} :
    Visits ⟨a, .expression (.get object property), S, r⟩ ⟨a, .expression object, S, r⟩
  | setValue {a S r object property value} :
    Visits ⟨a, .expression (.set object property value), S, r⟩ ⟨a, .expression value, S, r⟩
  | setObject {a S r object property value} :
    Visits ⟨a, .expression (.set object property value), S, r⟩
      ⟨a, .expression object, S, expression a value r⟩
  | function {a S r routine} :
    Visits ⟨a, .expression (.function routine), S, r⟩ ⟨a.within .function, .routine routine, S, r⟩
  | first {a S r e es} : Visits ⟨a, .expressions (e :: es), S, r⟩ ⟨a, .expression e, S, r⟩
  | others {a S r e es} :
    Visits ⟨a, .expressions (e :: es), S, r⟩ ⟨a, .expressions es, S, expression a e r⟩
  -- statements
  | evaluated {a S r e} : Visits ⟨a, .statement (.expression e), S, r⟩ ⟨a, .expression e, S, r⟩
  | printed {a S r e} : Visits ⟨a, .statement (.print e), S, r⟩ ⟨a, .expression e, S, r⟩
  | declared {a S r ds} : Visits ⟨a, .statement (.vars ds), S, r⟩ ⟨a, .declarators ds, S, r⟩
  | block {a S r body} :
    Visits ⟨a, .statement (.block body), S, r⟩ ⟨a, .statements body, .block body :: S, r.enter⟩
  | choice {a S r condition whenTrue whenFalse} :
    Visits ⟨a, .statement (.ifElse condition whenTrue whenFalse), S, r⟩
      ⟨a, .expression condition, S, r⟩
  | chosen {a S r condition whenTrue whenFalse} :
    Visits ⟨a, .statement (.ifElse condition whenTrue whenFalse), S, r⟩
      ⟨a, .statement whenTrue, S, expression a condition r⟩
  | alternative {a S r condition whenTrue whenFalse} :
    Visits ⟨a, .statement (.ifElse condition whenTrue (some whenFalse)), S, r⟩
      ⟨a, .statement whenFalse, S, statement a whenTrue (expression a condition r)⟩
  | roundCondition {a S r condition body} :
    Visits ⟨a, .statement (.whileLoop condition body), S, r⟩ ⟨a, .expression condition, S, r⟩
  | roundBody {a S r condition body} :
    Visits ⟨a, .statement (.whileLoop condition body), S, r⟩
      ⟨{ a with inLoop := true }, .statement body, S, expression a condition r⟩
  | returned {a S r keyword e} :
    Visits ⟨a, .statement (.returnFrom keyword (some e)), S, r⟩
      ⟨a, .expression e, S, r.checkReturn a keyword true⟩
  | declaredFunction {a S r name routine} :
    Visits ⟨a, .statement (.function name routine), S, r⟩
      ⟨a.within .function, .routine routine, S, (r.declare name).define name⟩
  | members {a S r name superclass members} :
    Visits ⟨a, .statement (.class name superclass members), S, r⟩
      ⟨a.inClass superclass, .methods members, classSites superclass members S,
        ((r.declare name).define name).enterClass name superclass⟩
  | head {a S r s rest} : Visits ⟨a, .statements (s :: rest), S, r⟩ ⟨a, .statement s, S, r⟩
  | tail {a S r s rest} :
    Visits ⟨a, .statements (s :: rest), S, r⟩ ⟨a, .statements rest, S, statement a s r⟩
  | initializer {a S r name e rest} :
    Visits ⟨a, .declarators (⟨name, some e⟩ :: rest), S, r⟩ ⟨a, .expression e, S, r.declare name⟩
  | afterInitializer {a S r name e rest} :
    Visits ⟨a, .declarators (⟨name, some e⟩ :: rest), S, r⟩
      ⟨a, .declarators rest, S, (expression a e (r.declare name)).define name⟩
  | afterName {a S r name rest} :
    Visits ⟨a, .declarators (⟨name, none⟩ :: rest), S, r⟩
      ⟨a, .declarators rest, S, (r.declare name).define name⟩
  -- routines
  | method {a S r name routine rest} :
    Visits ⟨a, .methods (⟨name, routine⟩ :: rest), S, r⟩
      ⟨a.within (.ofMethod name.text), .routine routine, S, r⟩
  | otherMethods {a S r name routine rest} :
    Visits ⟨a, .methods (⟨name, routine⟩ :: rest), S, r⟩
      ⟨a, .methods rest, S, routineBody (a.within (.ofMethod name.text)) routine r⟩
  | body {a S r routine} :
    Visits ⟨a, .routine routine, S, r⟩
      ⟨a, .statements routine.body, .routine routine :: S, r.enter.declareAll routine.params⟩

/-! ## The names of the scopes -/

/-- Every name of a scope is free, but for the given one. -/
def Holds (special : String) (scope : Scope) : Prop :=
  scope.contains special ∧ ∀ x, scope.contains x → x = special ∨ IsFree x

/-- The scopes have such names as the sites they belong to can have: `super` is only in a
scope for `super`, which is always right outside one with `this`. -/
inductive Shaped : List Site → List Scope → Prop
  | top : Shaped [] []
  | block {body S scope scopes} (hscope : ∀ x, scope.contains x → IsFree x)
    (h : Shaped S scopes) : Shaped (.block body :: S) (scope :: scopes)
  | routine {r S scope scopes} (hscope : ∀ x, scope.contains x → IsFree x)
    (h : Shaped S scopes) : Shaped (.routine r :: S) (scope :: scopes)
  | base {members S this scopes} (hthis : Holds "this" this) (h : Shaped S scopes) :
    Shaped (.self members :: S) (this :: scopes)
  | derived {members S this super scopes} (hthis : Holds "this" this)
    (hsuper : Holds "super" super) (h : Shaped S scopes) :
    Shaped (.self members :: .super members :: S) (this :: super :: scopes)

theorem Holds.widen {special : String} {s s' : Scope} {names : List String}
    (h : Holds special s) (hs : ∀ x, s'.contains x ↔ s.contains x ∨ x ∈ names)
    (hfree : ∀ x ∈ names, IsFree x) : Holds special s' := by
  refine ⟨(hs special).mpr (.inl h.1), fun x hx => ?_⟩
  rcases (hs x).mp hx with hx | hx
  · exact h.2 x hx
  · exact .inr (hfree x hx)

theorem Holds.congr {special : String} {s s' : Scope} (h : Holds special s)
    (hs : SameNames s s') : Holds special s' := by
  refine ⟨by rw [hs]; exact h.1, fun x hx => h.2 x ?_⟩
  rwa [hs] at hx

theorem Shaped.congr {S : List Site} {scopes scopes' : List Scope} (h : Shaped S scopes)
    (hs : List.Forall₂ SameNames scopes scopes') : Shaped S scopes' := by
  induction h generalizing scopes' with
  | top =>
    cases hs
    exact .top
  | block hscope _ ih =>
    cases hs with
    | cons hs htail =>
      refine .block (fun x hx => hscope x ?_) (ih htail)
      rwa [hs] at hx
  | routine hscope _ ih =>
    cases hs with
    | cons hs htail =>
      refine .routine (fun x hx => hscope x ?_) (ih htail)
      rwa [hs] at hx
  | base hthis _ ih =>
    cases hs with
    | cons hs htail => exact .base (hthis.congr hs) (ih htail)
  | derived hthis hsuper _ ih =>
    cases hs with
    | cons hs htail =>
      cases htail with
      | cons hs' htail => exact .derived (hthis.congr hs) (hsuper.congr hs') (ih htail)

/-- New names that are free do not change what the scopes can be. -/
theorem Shaped.widen {S : List Site} {scopes scopes' : List Scope} {names : List String}
    (h : Shaped S scopes) (hw : Widened names scopes scopes') (hfree : ∀ x ∈ names, IsFree x) :
    Shaped S scopes' := by
  cases h with
  | top =>
    cases scopes' with
    | nil => exact .top
    | cons s ss => exact hw.elim
  | block hscope htail =>
    cases scopes' with
    | nil => exact hw.elim
    | cons s ss =>
      refine .block (fun x hx => ?_) (htail.congr hw.2)
      rcases (hw.1 x).mp hx with hx | hx
      · exact hscope x hx
      · exact hfree x hx
  | routine hscope htail =>
    cases scopes' with
    | nil => exact hw.elim
    | cons s ss =>
      refine .routine (fun x hx => ?_) (htail.congr hw.2)
      rcases (hw.1 x).mp hx with hx | hx
      · exact hscope x hx
      · exact hfree x hx
  | base hthis htail =>
    cases scopes' with
    | nil => exact hw.elim
    | cons s ss => exact .base (hthis.widen hw.1 hfree) (htail.congr hw.2)
  | derived hthis hsuper htail =>
    cases scopes' with
    | nil => exact hw.elim
    | cons s ss =>
      obtain ⟨hs, hss⟩ := hw
      cases hss with
      | cons hs' hss => exact .derived (hthis.widen hs hfree) (hsuper.congr hs') (htail.congr hss)

open Resolution in
theorem contains_implicitly (special x : String) (word : Lexeme) :
    (implicitly special word).contains x ↔ x = special := by
  unfold implicitly
  rw [Slots.contains_set]
  simp [Slots.contains, Slots.get?_empty]

open Resolution in
theorem holds_implicitly (special : String) (word : Lexeme) :
    Holds special (implicitly special word) :=
  ⟨(contains_implicitly ..).mpr rfl, fun _ hx => .inl ((contains_implicitly ..).mp hx)⟩

/-! ## Later resolutions -/

namespace Resolution

/-- The second resolution comes after the first one, and between them only references among
`ids` got bindings. -/
structure Later (ids : List Nat) (r r' : Resolution) : Prop where
  found : r.found <+: r'.found
  bindings : ∀ id, id ∉ ids → r'.bindings.hops? id = r.bindings.hops? id

namespace Later

variable {ids ids' : List Nat} {names : List String} {r r₁ r₂ : Resolution}

theorem refl (r : Resolution) : Later ids r r := ⟨List.prefix_rfl, fun _ _ => rfl⟩

theorem trans (h₁ : Later ids r r₁) (h₂ : Later ids' r₁ r₂) : Later (ids ++ ids') r r₂ where
  found := h₁.found.trans h₂.found
  bindings id hid := by
    rw [List.mem_append, not_or] at hid
    rw [h₂.bindings id hid.2, h₁.bindings id hid.1]

theorem of_grows (h : Grows ids names r r₁) : Later ids r r₁ := ⟨h.found, h.bindings⟩

theorem of_leave (r : Resolution) : Later ids r r.leave := by
  cases hscopes : r.scopes with
  | nil =>
    unfold leave
    rw [hscopes]
    exact .refl r
  | cons scope scopes =>
    obtain ⟨more, hleave⟩ := leave_eq hscopes
    rw [hleave]
    exact ⟨List.prefix_append .., fun _ _ => rfl⟩

theorem of_walk (around : Surroundings) (t : Phrase) (r : Resolution) :
    Later t.ids r (t.walk around r) := .of_grows (t.walk_grows around r)

end Later

end Resolution

/-! ## Soundness -/

/-- At a place of an accepted program the table has what the walk finds, and the walk finds
no fault. The sites around the place have its references inside them. -/
structure Place.Sound (table : Bindings) (P : Place) : Prop where
  distinct : P.phrase.ids.Nodup
  unbound : ∀ id ∈ P.phrase.ids, P.state.bindings.hops? id = none
  agrees : ∀ id ∈ P.phrase.ids, table.hops? id = P.after.bindings.hops? id
  quiet : P.after.found = []
  wellFormed : P.phrase.WellFormed
  shaped : Shaped P.sites P.state.scopes
  inside : ∀ site ∈ P.sites, ∀ id ∈ P.phrase.ids, id ∈ site.ids

namespace Place.Sound

open Resolution

variable {table : Bindings} {P P' : Place} {ids₁ ids₂ : List Nat} {names : List String}

theorem inner (h : P.Sound table) (ids₁ ids₂ : List Nat)
    (hids : P.phrase.ids.Perm (ids₁ ++ P'.phrase.ids ++ ids₂))
    (hbefore : Later ids₁ P.state P'.state) (hafter : Later ids₂ P'.after P.after)
    (hwf : P'.phrase.WellFormed) (hshaped : Shaped P'.sites P'.state.scopes)
    (hsites : ∀ site ∈ P'.sites, site ∈ P.sites ∨ site.ids = P'.phrase.ids) :
    P'.Sound table := by
  have hnodup : (ids₁ ++ P'.phrase.ids ++ ids₂).Nodup := hids.nodup_iff.mp h.distinct
  obtain ⟨hfirst, -, hlast⟩ := List.nodup_append'.mp hnodup
  obtain ⟨-, hdistinct, hbetween⟩ := List.nodup_append'.mp hfirst
  have hmem {id} (hid : id ∈ P'.phrase.ids) : id ∈ P.phrase.ids :=
    hids.mem_iff.mpr (List.mem_append_left _ (List.mem_append_right _ hid))
  refine ⟨hdistinct, fun id hid => ?_, fun id hid => ?_, ?_, hwf, hshaped, fun site hsite id hid => ?_⟩
  · rw [hbefore.bindings id fun hid₁ => hbetween hid₁ hid]
    exact h.unbound id (hmem hid)
  · rw [h.agrees id (hmem hid)]
    exact hafter.bindings id fun hid₂ => hlast (List.mem_append_right _ hid) hid₂
  · have hprefix := hafter.found
    rw [h.quiet] at hprefix
    exact List.prefix_nil.mp hprefix
  · rcases hsites site hsite with hsite | hsite
    · exact h.inside site hsite id (hmem hid)
    · rwa [hsite]

/-- A part that is visited in the same scopes. -/
theorem part (h : P.Sound table) (ids₁ ids₂ : List Nat)
    (hids : P.phrase.ids.Perm (ids₁ ++ P'.phrase.ids ++ ids₂))
    (hbefore : Grows ids₁ names P.state P'.state) (hafter : Later ids₂ P'.after P.after)
    (hwf : P'.phrase.WellFormed) (hfree : ∀ x ∈ names, IsFree x) (hsites : P'.sites = P.sites) :
    P'.Sound table :=
  h.inner ids₁ ids₂ hids (.of_grows hbefore) hafter hwf
    (hsites ▸ h.shaped.widen hbefore.scopes hfree) fun _ hsite => .inl (hsites ▸ hsite)

/-- A part that is visited first, and declares nothing. -/
theorem first (h : P.Sound table) (ids₂ : List Nat)
    (hids : P.phrase.ids = P'.phrase.ids ++ ids₂) (hstate : P'.state = P.state)
    (hsites : P'.sites = P.sites) (hafter : Later ids₂ P'.after P.after)
    (hwf : P'.phrase.WellFormed) : P'.Sound table := by
  have hbefore : Grows [] [] P.state P'.state := hstate ▸ .refl _
  exact h.part [] ids₂ (.of_eq hids) hbefore hafter hwf (by simp) hsites

end Place.Sound

/-- What is done with the superclass of a class, whose name is read, opens no scope. -/
theorem Resolution.grows_superclass (r : Resolution) (name : Lexeme) (ref : Ref) :
    Grows [ref.id] [] r
      ((if ref.word.text = name.text then r.report ref.word .inheritsFromItself else r).read ref) := by
  have hreport : Grows [ref.id] [] r
      (if ref.word.text = name.text then r.report ref.word .inheritsFromItself else r) := by
    split
    · exact grows_report ..
    · exact .refl r
  exact hreport.andThen (grows_read (List.mem_singleton_self ref.id))

/-- Around the methods of a class with a superclass there are two more scopes. -/
theorem Resolution.scopes_enterClass (r : Resolution) (name : Lexeme) (ref : Ref) :
    ∃ scopes, (r.enterClass name (some ref)).scopes =
        implicitly "this" name :: implicitly "super" name :: scopes ∧
      List.Forall₂ SameNames r.scopes scopes :=
  ⟨_, rfl, widened_nil_iff.mp (r.grows_superclass name ref).scopes⟩

theorem Shaped.inClass {S : List Site} {r : Resolution} {name : Lexeme} {superclass : Option Ref}
    {members : List Method} (h : Shaped S r.scopes) :
    Shaped (classSites superclass members S) (r.enterClass name superclass).scopes := by
  cases superclass with
  | none => exact .base (holds_implicitly ..) h
  | some ref =>
    obtain ⟨scopes, heq, hscopes⟩ := r.scopes_enterClass name ref
    rw [heq]
    exact .derived (holds_implicitly ..) (holds_implicitly ..) (h.congr hscopes)

theorem Resolution.Later.of_enterClass (r : Resolution) (name : Lexeme)
    (superclass : Option Ref) :
    Later (superclass.toList.map Ref.id) r (r.enterClass name superclass) := by
  cases superclass with
  | none => exact ⟨List.prefix_rfl, fun _ _ => rfl⟩
  | some ref =>
    have hread := r.grows_superclass name ref
    exact ⟨hread.found, hread.bindings⟩

theorem Resolution.Later.of_leaveClass (r : Resolution) (superclass : Option Ref) :
    Later [] r (r.leaveClass superclass) := by
  cases superclass with
  | none => exact .of_leave r
  | some ref =>
    have hfirst : Later [] r r.leave := of_leave r
    exact hfirst.trans (.of_leave _)

theorem mem_or_ids_eq {site inner : Site} {S : List Site} {ids : List Nat} (h : inner.ids = ids)
    (hsite : site ∈ inner :: S) : site ∈ S ∨ site.ids = ids := by
  rcases List.mem_cons.mp hsite with rfl | hsite
  · exact .inr h
  · exact .inl hsite

/-- A program is walked over place by place, and every place of an accepted program is
sound. -/
theorem Visits.sound {table : Bindings} {P P' : Place} (h : Visits P P') (hP : P.Sound table) :
    P'.Sound table := by
  have hwf := hP.wellFormed
  have hshaped := hP.shaped
  cases h with
  | @assignValue a S r ref value =>
    refine hP.part [] [ref.id] (by simpa using (List.perm_append_singleton ..).symm) (.refl r)
      (.of_grows (Resolution.grows_refer (by simp))) hwf.2 (by simp) rfl
  | unaryOperand => exact hP.first [] (by simp) rfl rfl (.refl _) hwf
  | @binaryLeft a S r op sign left right =>
    exact hP.first _ (by simp) rfl rfl (.of_walk a (.expression right) _) hwf.1
  | @binaryRight a S r op sign left right =>
    exact hP.part _ [] (by simp) (expression_grows a left r) (.refl _) hwf.2 (by simp) rfl
  | @logicalLeft a S r op sign left right =>
    exact hP.first _ (by simp) rfl rfl (.of_walk a (.expression right) _) hwf.1
  | @logicalRight a S r op sign left right =>
    exact hP.part _ [] (by simp) (expression_grows a left r) (.refl _) hwf.2 (by simp) rfl
  | @commaLeft a S r left right =>
    exact hP.first _ (by simp) rfl rfl (.of_walk a (.expression right) _) hwf.1
  | @commaRight a S r left right =>
    exact hP.part _ [] (by simp) (expression_grows a left r) (.refl _) hwf.2 (by simp) rfl
  | @condition a S r condition whenTrue whenFalse =>
    refine hP.first _ (by simp; rfl) rfl rfl ?_ hwf.1
    exact (Resolution.Later.of_walk a (.expression whenTrue) _).trans
      (.of_walk a (.expression whenFalse) _)
  | @whenTrue a S r condition whenTrue whenFalse =>
    exact hP.part _ _ (by simp) (expression_grows a condition r)
      (.of_walk a (.expression whenFalse) _) hwf.2.1 (by simp) rfl
  | @whenFalse a S r condition whenTrue whenFalse =>
    exact hP.part _ [] (by simp)
      ((expression_grows a condition r).trans (expression_grows a whenTrue _)) (.refl _)
      hwf.2.2 (by simp) rfl
  | grouping => exact hP.first [] (by simp) rfl rfl (.refl _) hwf
  | @callee a S r callee arguments closing =>
    exact hP.first _ (by simp) rfl rfl (.of_walk a (.expressions arguments) _) hwf.1
  | @arguments a S r callee arguments closing =>
    exact hP.part _ [] (by simp) (expression_grows a callee r) (.refl _) hwf.2 (by simp) rfl
  | getObject => exact hP.first [] (by simp) rfl rfl (.refl _) hwf
  | @setValue a S r object property value =>
    refine hP.part [] _ ?_ (.refl r) (.of_walk a (.expression object) _) hwf.2 (by simp) rfl
    simpa using List.perm_append_comm
  | @setObject a S r object property value =>
    refine hP.part _ [] ?_ (expression_grows a value r) (.refl _) hwf.1 (by simp) rfl
    simpa using List.perm_append_comm
  | @function a S r routine =>
    obtain ⟨params, body⟩ := routine
    exact hP.first [] (by simp) rfl rfl (.refl _) hwf
  | @first a S r e es =>
    exact hP.first _ (by simp) rfl rfl (.of_walk a (.expressions es) _) hwf.1
  | @others a S r e es =>
    exact hP.part _ [] (by simp) (expression_grows a e r) (.refl _) hwf.2 (by simp) rfl
  | evaluated => exact hP.first [] (by simp) rfl rfl (.refl _) hwf
  | printed => exact hP.first [] (by simp) rfl rfl (.refl _) hwf
  | declared => exact hP.first [] (by simp) rfl rfl (.refl _) hwf
  | @block a S r body =>
    refine hP.inner [] [] (by simp) ⟨List.prefix_rfl, fun _ _ => rfl⟩ (.of_leave _) hwf ?_
      fun site hsite => mem_or_ids_eq rfl hsite
    exact .block (fun x hx => by simp [Slots.contains, Slots.get?_empty] at hx) hshaped
  | @choice a S r condition whenTrue whenFalse =>
    cases whenFalse with
    | none => exact hP.first _ (by simp) rfl rfl (.of_walk a (.statement whenTrue) _) hwf.1
    | some whenFalse =>
      refine hP.first _ (by simp; rfl) rfl rfl ?_ hwf.1
      exact (Resolution.Later.of_walk a (.statement whenTrue) _).trans
        (.of_walk a (.statement whenFalse) _)
  | @chosen a S r condition whenTrue whenFalse =>
    cases whenFalse with
    | none =>
      exact hP.part _ [] (by simp) (expression_grows a condition r) (.refl _) hwf.2.1 (by simp) rfl
    | some whenFalse =>
      exact hP.part _ _ (by simp) (expression_grows a condition r)
        (.of_walk a (.statement whenFalse) _) hwf.2.1.1 (by simp) rfl
  | @alternative a S r condition whenTrue whenFalse =>
    refine hP.part _ [] (by simp)
      ((expression_grows a condition r).trans (statement_grows a whenTrue _)) (.refl _)
      hwf.2.2.1 ?_ rfl
    rw [hwf.2.1.2]
    simp
  | @roundCondition a S r condition body =>
    exact hP.first _ (by simp) rfl rfl (.of_walk { a with inLoop := true } (.statement body) _)
      hwf.1
  | @roundBody a S r condition body =>
    exact hP.part _ [] (by simp) (expression_grows a condition r) (.refl _) hwf.2.1 (by simp) rfl
  | @returned a S r keyword e =>
    exact hP.part [] [] (by simp) Resolution.grows_checkReturn (.refl _) hwf (by simp) rfl
  | @declaredFunction a S r name routine =>
    obtain ⟨params, body⟩ := routine
    exact hP.part [] [] (by simp) (Resolution.grows_declareDefine name) (.refl _) hwf.2
      (by simpa using hwf.1) rfl
  | @members a S r name superclass members =>
    have hname : Resolution.Grows [] [name.text] r ((r.declare name).define name) :=
      Resolution.grows_declareDefine name
    have hfree : ∀ x ∈ [name.text], IsFree x := by simpa using hwf.1
    refine hP.inner ([] ++ superclass.toList.map Ref.id) [] ?_
      ((Resolution.Later.of_grows hname).trans (.of_enterClass ..)) (.of_leaveClass ..) hwf.2.2
      (hshaped.widen hname.scopes hfree).inClass fun site hsite => ?_
    · cases superclass <;> simp
    · cases superclass with
      | none => exact mem_or_ids_eq rfl hsite
      | some ref =>
        rcases List.mem_cons.mp hsite with rfl | hsite
        · exact .inr rfl
        · exact mem_or_ids_eq rfl hsite
  | @head a S r s rest =>
    exact hP.first _ (by simp) rfl rfl (.of_walk a (.statements rest) _) hwf.1
  | @tail a S r s rest =>
    exact hP.part _ [] (by simp) (statement_grows a s r) (.refl _) hwf.2
      (Stmt.free_of_wellFormed hwf.1) rfl
  | @initializer a S r name e rest =>
    refine hP.part [] _ (by simp; rfl) (Resolution.grows_declare name) ?_ hwf.2.1
      (by simpa using hwf.1) rfl
    have hdefine : Resolution.Grows [] [] (expression a e (r.declare name))
        ((expression a e (r.declare name)).define name) := Resolution.grows_define name
    exact (Resolution.Later.of_grows hdefine).trans (.of_walk a (.declarators rest) _)
  | @afterInitializer a S r name e rest =>
    refine hP.part _ [] (by simp)
      (((Resolution.grows_declare name).andThen (expression_grows a e _)).andThen
        (Resolution.grows_define name)) (.refl _) hwf.2.2 (by simpa using hwf.1) rfl
  | @afterName a S r name rest =>
    exact hP.part [] [] (by simp) (Resolution.grows_declareDefine name) (.refl _) hwf.2
      (by simpa using hwf.1) rfl
  | @method a S r name routine rest =>
    obtain ⟨params, body⟩ := routine
    exact hP.first _ (by simp) rfl rfl (.of_walk a (.methods rest) _) hwf.1
  | @otherMethods a S r name routine rest =>
    obtain ⟨params, body⟩ := routine
    exact hP.part _ [] (by simp) (routineBody_grows _ ⟨params, body⟩ r) (.refl _) hwf.2
      (by simp) rfl
  | @body a S r routine =>
    obtain ⟨params, body⟩ := routine
    have hparams : Resolution.Grows [] (params.map (·.text)) r.enter
        (r.enter.declareAll params) := Resolution.grows_declareAll params
    refine hP.inner [] [] (by simp) ⟨hparams.found, hparams.bindings⟩ (.of_leave _) hwf.2 ?_
      fun site hsite => mem_or_ids_eq rfl hsite
    have hempty : Shaped (.routine ⟨params, body⟩ :: S) r.enter.scopes :=
      .routine (fun x hx => by simp [Slots.contains, Slots.get?_empty] at hx) hshaped
    refine hempty.widen hparams.scopes fun x hx => ?_
    obtain ⟨p, hp, rfl⟩ := List.mem_map.mp hx
    exact hwf.1 p hp

theorem Visits.path_sound {table : Bindings} {P Q : Place} (h : Relation.ReflTransGen Visits P Q)
    (hP : P.Sound table) : Q.Sound table := by
  induction h with
  | refl => exact hP
  | tail _ hlast ih => exact hlast.sound ih

end ScriptLang.Scoping
