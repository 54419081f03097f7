import ScriptLang.Proofs.Relabelling.Trees
import ScriptLang.Proofs.Scoping.Joining

/-!
# The walk under other labels

The walk that binds references does the same over a tree with other labels, if these fit together
with what is in scope: where a reference is bound to a scope, its other word is what the variable
is called in that scope, and in the scopes that are passed on the way nothing is called so
(`Relabelling.Suits`). Then the other references are bound to the same scopes, and there are no more
faults than before (`Scoping.program_mirrors`). If only the numbers differ, the faults are the same.

The names that are avoided by the program are a parameter: a variable can be given such a name
because no scope has it.
-/

namespace ScriptLang

/-! ## Sorting and tables of names -/

section Sorting

variable {α β : Type}

theorem insertBy_map {before : β → β → Bool} {before' : α → α → Bool} {f : α → β}
    (h : ∀ x y, before (f x) (f y) = before' x y) (x : α) (ys : List α) :
    insertBy before (f x) (ys.map f) = (insertBy before' x ys).map f := by
  induction ys with
  | nil => rfl
  | cons y ys ih =>
    rw [List.map_cons, insertBy, insertBy, h]
    split
    · rfl
    · rw [ih, List.map_cons]

theorem sortByNumber_map {number : β → Nat} {number' : α → Nat} {f : α → β}
    (h : ∀ x, number (f x) = number' x) (xs : List α) :
    sortByNumber number (xs.map f) = (sortByNumber number' xs).map f := by
  unfold sortByNumber sortBy
  induction xs with
  | nil => rfl
  | cons x xs ih =>
    rw [List.map_cons, List.foldr_cons, List.foldr_cons, ih]
    exact insertBy_map (fun x y => by rw [h, h]) x _

end Sorting

/-! ## Bindings -/

/-- The second table has the entries of the first one for the other numbers, and no others. -/
structure Bindings.Renumbered (ρ : Nat → Nat) (b b' : Bindings) : Prop where
  hops : ∀ id, b'.hops? (ρ id) = b.hops? id
  only : ∀ id, (∀ old, ρ old ≠ id) → b'.hops? id = none

namespace Bindings.Renumbered

variable {ρ : Nat → Nat} {b b' c c' : Bindings}

theorem empty : Renumbered ρ ∅ ∅ := ⟨fun _ => by simp only [hops?_empty], fun _ _ => hops?_empty _⟩

theorem bind (h : Renumbered ρ b b') (hρ : Function.Injective ρ) (id hops : Nat) :
    Renumbered ρ (b.bind id hops) (b'.bind (ρ id) hops) where
  hops other := by
    rw [hops?_bind, hops?_bind, h.hops]
    simp only [hρ.eq_iff]
  only other hother := by
    rw [hops?_bind, if_neg (hother id)]
    exact h.only other hother

theorem merge (h : Renumbered ρ b b') (hc : Renumbered ρ c c') :
    Renumbered ρ (b.merge c) (b'.merge c') where
  hops id := by rw [hops?_merge, hops?_merge, h.hops, hc.hops]
  only id hid := by rw [hops?_merge, h.only id hid, hc.only id hid, Option.none_or]

/-- With the same numbers it is the same table. -/
theorem eq_of_id (h : Renumbered id b b') : b' = b := ext_hops h.hops

end Bindings.Renumbered

/-! ## Labels that fit together -/

open Scoping (Site Scope Local Resolution Place Visits)
open Relation (ReflTransGen)

namespace Relabelling

/-- The names that the labels give in the innermost scope. -/
def innermost (R : Relabelling) : List Site → Equiv.Perm String
  | [] => Equiv.refl String
  | site :: _ => R.names site

/-- Only numbers change. -/
structure Plain (R : Relabelling) : Prop where
  word : ∀ ref, R.word ref = ref.word.text
  names : ∀ site, R.names site = Equiv.refl String

theorem plain_renumbering (ρ : Nat → Nat) : (renumbering ρ).Plain := ⟨fun _ => rfl, fun _ => rfl⟩

theorem Plain.innermost {R : Relabelling} (h : R.Plain) (S : List Site) :
    R.innermost S = Equiv.refl String := by
  cases S with
  | nil => rfl
  | cons site S => exact h.names site

/-- The labels tell references apart and leave alone what a class brings into scope. -/
structure Lawful (R : Relabelling) (avoided : String → Prop) : Prop where
  injective : Function.Injective R.id
  self : ∀ members, R.names (.self members) = Equiv.refl String
  super : ∀ members, R.names (.super members) = Equiv.refl String
  this_used : ¬ avoided "this"
  super_used : ¬ avoided "super"

/-- The other word of a reference, which is bound so many scopes out or to none, is what the
variable is called there. In the scopes on the way nothing is called so: either the name is changed
like that of the variable, or the other name is one that is avoided. -/
structure Suits (R : Relabelling) (avoided : String → Prop) (S : List Site) (ref : Ref)
    (hops : Option Nat) : Prop where
  bound : ∀ h site, hops = some h → S[h]? = some site → R.names site ref.word.text = R.word ref
  passed : ∀ i site, (∀ h, hops = some h → i < h) → S[i]? = some site →
    R.names site ref.word.text = R.word ref ∨ avoided ((R.names site).symm (R.word ref))
  free : hops = none → R.word ref = ref.word.text

theorem Plain.suits {R : Relabelling} (h : R.Plain) (avoided : String → Prop) (S : List Site)
    (ref : Ref) (hops : Option Nat) : R.Suits avoided S ref hops := by
  have hsame (site : Site) : R.names site ref.word.text = R.word ref := by
    rw [h.names site, h.word]
    rfl
  exact ⟨fun _ site _ _ => hsame site, fun _ site _ _ => .inl (hsame site), fun _ => h.word ref⟩

end Relabelling

namespace Scoping

/-! ## What references are bound to -/

namespace Resolution

/-- How many scopes out a reference is declared, without regard to the first ones. -/
def index? (r : Resolution) (ref : Ref) (skipped : Nat) : Option Nat :=
  ((r.scopes.drop skipped).findIdx? (·.contains ref.word.text)).map (skipped + ·)

theorem index?_eq_some {r : Resolution} {ref : Ref} {skipped hops : Nat} : r.index? ref skipped = some hops ↔
    skipped ≤ hops ∧ (∃ scope, r.scopes[hops]? = some scope ∧ scope.contains ref.word.text) ∧
      ∀ n scope, skipped ≤ n → n < hops → r.scopes[n]? = some scope →
        ¬ scope.contains ref.word.text := by
  unfold index?
  rw [Option.map_eq_some_iff]
  constructor
  · rintro ⟨i, hi, rfl⟩
    obtain ⟨hlt, hx, hfirst⟩ := List.findIdx?_eq_some_iff_getElem.mp hi
    have hscope := List.getElem?_eq_getElem hlt
    rw [List.getElem?_drop] at hscope
    refine ⟨Nat.le_add_right .., ⟨_, hscope, hx⟩, fun n scope hle hn hscope' => ?_⟩
    obtain ⟨j, rfl⟩ := Nat.exists_eq_add_of_le hle
    rw [← List.getElem?_drop] at hscope'
    obtain ⟨-, rfl⟩ := List.getElem?_eq_some_iff.mp hscope'
    exact hfirst j (Nat.lt_of_add_lt_add_left hn)
  · rintro ⟨hle, ⟨scope, hscope, hx⟩, hfirst⟩
    obtain ⟨i, rfl⟩ := Nat.exists_eq_add_of_le hle
    rw [← List.getElem?_drop] at hscope
    obtain ⟨hlt, rfl⟩ := List.getElem?_eq_some_iff.mp hscope
    refine ⟨i, List.findIdx?_eq_some_iff_getElem.mpr ⟨hlt, hx, fun j hj => ?_⟩, rfl⟩
    refine hfirst (skipped + j) _ (Nat.le_add_right ..) (Nat.add_lt_add_left hj skipped) ?_
    rw [← List.getElem?_drop]
    exact List.getElem?_eq_getElem _

/-- How many scopes out an assigned reference is bound. -/
def refers? (r : Resolution) (ref : Ref) : Option Nat := r.index? ref 0

/-- How many scopes out a reference that is read is bound. -/
def reads? (r : Resolution) (ref : Ref) : Option Nat :=
  if r.initializing ref.word.text then r.index? ref 1 else r.index? ref 0

/-- The resolution with a reference bound. -/
def bound (r : Resolution) (ref : Ref) (hops : Nat) : Resolution :=
  { r with
    scopes := r.scopes.modify hops (·.modify ref.word.text ({ · with used := true }))
    bindings := r.bindings.bind ref.id hops }

theorem bind?_eq (r : Resolution) (ref : Ref) (skipped : Nat) :
    r.bind? ref skipped = (r.index? ref skipped).map (r.bound ref) := by
  unfold bind? index?
  cases (r.scopes.drop skipped).findIdx? (·.contains ref.word.text) <;> rfl

theorem refer_eq (r : Resolution) (ref : Ref) :
    r.refer ref = ((r.refers? ref).map (r.bound ref)).getD r := by
  unfold refer
  rw [bind?_eq]
  rfl

theorem read_eq (r : Resolution) (ref : Ref) : r.read ref =
    match r.reads? ref with
    | some hops => r.bound ref hops
    | none =>
      if r.initializing ref.word.text ∧ ref.word.text ∉ r.globals then
        r.report ref.word (.ownInitializer ref.word.text)
      else r := by
  unfold read reads? refer
  cases hinit : r.initializing ref.word.text with
  | true =>
    simp only [bind?_eq, if_true, true_and]
    cases r.index? ref 1 with
    | some hops => rfl
    | none =>
      by_cases hglobal : ref.word.text ∈ r.globals
      · simp [hglobal]
      · simp [hglobal]
  | false =>
    simp only [bind?_eq, Bool.false_eq_true, if_false, false_and]
    cases r.index? ref 0 <;> rfl

end Resolution

/-- The phrase at a place seeks a declaration for a reference, and finds it so many scopes out. -/
inductive Place.Seeks : Place → Ref → Option Nat → Prop
  | variable {a S r ref} : Seeks ⟨a, .expression (.variable ref), S, r⟩ ref (r.reads? ref)
  | assign {a S r ref value} :
    Seeks ⟨a, .expression (.assign ref value), S, r⟩ ref ((expression a value r).refers? ref)
  | this {a S r ref} : Seeks ⟨a, .expression (.this ref), S, r⟩ ref (r.refers? ref)
  | super {a S r ref method} :
    Seeks ⟨a, .expression (.super ref method), S, r⟩ ref (r.refers? ref)
  | superclass {a S r name ref members} :
    Seeks ⟨a, .statement (.class name (some ref) members), S, r⟩ ref
      (((r.declare name).define name).reads? ref)

/-- The phrase at a place declares a function or class. -/
inductive Place.Names : Place → String → Prop
  | function {a S r name routine} :
    Names ⟨a, .statement (.function name routine), S, r⟩ name.text
  | class {a S r name superclass members} :
    Names ⟨a, .statement (.class name superclass members), S, r⟩ name.text

/-- The phrase at a place declares a name, in the scope around it or the one that it begins. -/
inductive Place.Declares : Place → String → Prop
  | names {P x} (h : P.Names x) : Declares P x
  | declarator {a S r d rest} : Declares ⟨a, .declarators (d :: rest), S, r⟩ d.name.text
  | param {a S r routine word} (h : word ∈ routine.params) :
    Declares ⟨a, .routine routine, S, r⟩ word.text

/-- The labels fit together at a place. -/
structure Place.Conforms (R : Relabelling) (avoided : String → Prop) (P : Place) : Prop where
  seeks : ∀ ref hops, P.Seeks ref hops → R.Suits avoided P.sites ref hops
  keeps : ∀ x, P.Names x → R.innermost P.sites x = x
  declares : ∀ x, P.Declares x → ¬ avoided x

theorem Place.conforms_of_plain {R : Relabelling} (hR : R.Plain) (P : Place) :
    P.Conforms R (fun _ => False) where
  seeks ref hops _ := hR.suits _ _ _ _
  keeps x _ := by
    rw [hR.innermost]
    rfl
  declares _ _ := id

/-! ## Scopes and their images -/

/-- The local with the name that it has in the other scope. -/
def Local.relabel (π : Equiv.Perm String) (l : Local) : Local := { l with word := l.word.rename π }

/-- The scope with other names. -/
def relabelScope (π : Equiv.Perm String) (scope : Scope) : Scope := scope.relabel π (Local.relabel π)

section Scopes

variable (π : Equiv.Perm String) (scope : Scope)

theorem relabelScope_refl : relabelScope (Equiv.refl String) scope = scope := by
  obtain ⟨entries⟩ := scope
  exact congrArg Slots.mk (List.map_id entries)

theorem contains_relabelScope (name : String) :
    (relabelScope π scope).contains (π name) = scope.contains name := scope.contains_relabel ..

theorem contains_relabelScope_symm (name : String) :
    (relabelScope π scope).contains name = scope.contains (π.symm name) := by
  have hcontains := contains_relabelScope π scope (π.symm name)
  rwa [π.apply_symm_apply] at hcontains

theorem set_relabelScope (word : Lexeme) :
    (relabelScope π scope).set (π word.text)
        ⟨word.rename π, false, false, (relabelScope π scope).size⟩ =
      relabelScope π (scope.set word.text ⟨word, false, false, scope.size⟩) := by
  have hsize : (relabelScope π scope).size = scope.size := List.length_map ..
  rw [hsize]
  exact (scope.relabel_set π (Local.relabel π) word.text ⟨word, false, false, scope.size⟩).symm

theorem modify_relabelScope (name : String) {f : Local → Local}
    (hf : ∀ l, f (l.relabel π) = (f l).relabel π) :
    (relabelScope π scope).modify (π name) f = relabelScope π (scope.modify name f) :=
  scope.modify_relabel π _ name hf

theorem unused_relabelScope :
    Resolution.unused (relabelScope π scope) = (Resolution.unused scope).map (Local.relabel π) := by
  have hlocals : (relabelScope π scope).entries.map (·.2) =
      (scope.entries.map (·.2)).map (Local.relabel π) := by
    unfold relabelScope Slots.relabel
    rw [List.map_map, List.map_map]
    rfl
  unfold Resolution.unused
  rw [hlocals, List.filter_map]
  exact sortByNumber_map (fun _ => rfl) _

end Scopes

/-- The second scopes are the first ones with other names, and no name of the first ones is
avoided. -/
inductive ScopesMirror (R : Relabelling) (avoided : String → Prop) :
    List Site → List Scope → List Scope → Prop
  | nil : ScopesMirror R avoided [] [] []
  | cons {site S scope scopes scopes'} (hused : ∀ x, scope.contains x → ¬ avoided x)
    (h : ScopesMirror R avoided S scopes scopes') :
    ScopesMirror R avoided (site :: S) (scope :: scopes)
      (relabelScope (R.names site) scope :: scopes')

namespace ScopesMirror

variable {R : Relabelling} {avoided : String → Prop} {S : List Site} {scopes scopes' : List Scope}

theorem refl_of_plain (hR : R.Plain) (h : ScopesMirror R avoided S scopes scopes') :
    scopes' = scopes := by
  induction h with
  | nil => rfl
  | cons _ _ ih => rw [ih, hR.names, relabelScope_refl]

theorem length_eq (h : ScopesMirror R avoided S scopes scopes') :
    scopes'.length = scopes.length := by
  induction h with
  | nil => rfl
  | cons _ _ ih => rw [List.length_cons, List.length_cons, ih]

theorem get (h : ScopesMirror R avoided S scopes scopes') {i : Nat} {scope : Scope}
    (hi : scopes[i]? = some scope) :
    ∃ site, S[i]? = some site ∧ scopes'[i]? = some (relabelScope (R.names site) scope) ∧
      ∀ x, scope.contains x → ¬ avoided x := by
  induction h generalizing i with
  | nil => simp at hi
  | @cons site S scope _ _ hused _ ih =>
    cases i with
    | zero =>
      cases hi
      exact ⟨site, rfl, rfl, hused⟩
    | succ i => exact ih hi

/-- Up to the scope to which a reference is bound, the other scopes have its other word where the
scopes have its word. -/
theorem contains_eq (h : ScopesMirror R avoided S scopes scopes') {ref : Ref} {hops : Option Nat}
    (hsuits : R.Suits avoided S ref hops) {i : Nat} {scope scope' : Scope}
    (hi : scopes[i]? = some scope) (hi' : scopes'[i]? = some scope')
    (hle : ∀ k, hops = some k → i ≤ k)
    (hpassed : (∀ k, hops = some k → i < k) → scope.contains ref.word.text = false) :
    scope'.contains (R.word ref) = scope.contains ref.word.text := by
  obtain ⟨site, hsite, hscope', hused⟩ := h.get hi
  rw [hi'] at hscope'
  cases hscope'
  have hsame (hname : R.names site ref.word.text = R.word ref) :
      (relabelScope (R.names site) scope).contains (R.word ref) =
        scope.contains ref.word.text := by
    rw [← hname, contains_relabelScope]
  by_cases hbound : hops = some i
  · exact hsame (hsuits.bound i site hbound hsite)
  · have hlt (k : Nat) (hk : hops = some k) : i < k :=
      Nat.lt_of_le_of_ne (hle k hk) fun heq => hbound (heq ▸ hk)
    rcases hsuits.passed i site hlt hsite with hname | havoided
    · exact hsame hname
    · rw [hpassed hlt, contains_relabelScope_symm]
      exact Bool.eq_false_iff.mpr fun hcontains => hused _ hcontains havoided

theorem modify (h : ScopesMirror R avoided S scopes scopes') {name name' : String} {k : Nat}
    (hname : ∀ site, S[k]? = some site → R.names site name = name') {f : Local → Local}
    (hf : ∀ (π : Equiv.Perm String) (l : Local), f (l.relabel π) = (f l).relabel π) :
    ScopesMirror R avoided S (scopes.modify k (·.modify name f))
      (scopes'.modify k (·.modify name' f)) := by
  induction h generalizing k with
  | nil =>
    rw [List.modify_nil, List.modify_nil]
    exact .nil
  | @cons site S scope scopes scopes' hused htail ih =>
    cases k with
    | zero =>
      have hscope := modify_relabelScope (R.names site) scope name (hf _)
      rw [hname site rfl] at hscope
      rw [List.modify_zero_cons, List.modify_zero_cons, hscope]
      refine .cons (fun x hx => hused x ?_) htail
      rwa [sameNames_modify scope name f x] at hx
    | succ k =>
      rw [List.modify_succ_cons, List.modify_succ_cons]
      exact .cons hused (ih hname)

end ScopesMirror

theorem findIdx?_congr {α β : Type} {l : List α} {l' : List β} {p : α → Bool} {p' : β → Bool}
    (hlength : l'.length = l.length)
    (h : ∀ i a b, l[i]? = some a → l'[i]? = some b → (∀ k, l.findIdx? p = some k → i ≤ k) →
      p' b = p a) : l'.findIdx? p' = l.findIdx? p := by
  induction l generalizing l' with
  | nil =>
    cases l' with
    | nil => rfl
    | cons b l' => simp at hlength
  | cons a l ih =>
    cases l' with
    | nil => simp at hlength
    | cons b l' =>
      have hfirst : p' b = p a := h 0 a b rfl rfl fun _ _ => Nat.zero_le _
      rw [List.findIdx?_cons, List.findIdx?_cons, hfirst]
      cases hp : p a with
      | true => rfl
      | false =>
        have hrest : l'.findIdx? p' = l.findIdx? p := by
          refine ih (Nat.succ.inj hlength) fun i a' b' ha' hb' hle => ?_
          refine h (i + 1) a' b' ha' hb' fun k hk => ?_
          rw [List.findIdx?_cons, hp] at hk
          obtain ⟨j, hj, rfl⟩ := Option.map_eq_some_iff.mp hk
          exact Nat.succ_le_succ (hle j hj)
        rw [hrest]

section References

variable {R : Relabelling} {avoided : String → Prop} {S : List Site} {r r' : Resolution} {ref : Ref}
  (h : ScopesMirror R avoided S r.scopes r'.scopes)

include h

theorem index?_mirror {skipped : Nat} (hsuits : R.Suits avoided S ref (r.index? ref skipped)) :
    r'.index? (ref.relabel R) skipped = r.index? ref skipped := by
  have hlength : (r'.scopes.drop skipped).length = (r.scopes.drop skipped).length := by
    rw [List.length_drop, List.length_drop, h.length_eq]
  unfold Resolution.index?
  refine congrArg (Option.map (skipped + ·)) (findIdx?_congr hlength ?_)
  intro i scope scope' hi hi' hle
  have hnever (hfound : ∀ k, (r.scopes.drop skipped).findIdx? (·.contains ref.word.text) = some k →
      i < k) : scope.contains ref.word.text = false := by
    cases hindex : (r.scopes.drop skipped).findIdx? (·.contains ref.word.text) with
    | none => exact List.findIdx?_eq_none_iff.mp hindex scope (List.mem_of_getElem? hi)
    | some k =>
      obtain ⟨hk, -, hbefore⟩ := List.findIdx?_eq_some_iff_getElem.mp hindex
      have hscope := hbefore i (hfound k hindex)
      rw [List.getElem?_eq_getElem (Nat.lt_trans (hfound k hindex) hk)] at hi
      cases hi
      exact Bool.eq_false_iff.mpr hscope
  rw [List.getElem?_drop] at hi hi'
  refine h.contains_eq hsuits hi hi' (fun k hk => ?_) fun hlt => hnever fun k hk => ?_
  · obtain ⟨j, hj, rfl⟩ := Option.map_eq_some_iff.mp hk
    exact Nat.add_le_add_left (hle j hj) skipped
  · have hindex : r.index? ref skipped = some (skipped + k) := by
      unfold Resolution.index?
      rw [hk]
      rfl
    exact Nat.lt_of_add_lt_add_left (hlt _ hindex)

/-- In the innermost scope it does not depend on the labels whether the initializer of a variable
is done, unless the other scope does not have the other word at all. -/
theorem initializing_mirror {hops : Option Nat} (hsuits : R.Suits avoided S ref hops) :
    r'.initializing (R.word ref) = r.initializing ref.word.text ∨
      (r'.initializing (R.word ref) = false ∧
        ∀ scope, r'.scopes.head? = some scope → scope.contains (R.word ref) = false) := by
  obtain ⟨scopes, globals, bindings, found⟩ := r
  obtain ⟨scopes', globals', bindings', found'⟩ := r'
  cases h with
  | nil => exact .inl rfl
  | @cons site S scope scopes scopes' hused htail =>
    have hsame (hname : R.names site ref.word.text = R.word ref) :
        Resolution.initializing
            ⟨relabelScope (R.names site) scope :: scopes', globals', bindings', found'⟩ (R.word ref) =
          Resolution.initializing ⟨scope :: scopes, globals, bindings, found⟩ ref.word.text := by
      have hget : (relabelScope (R.names site) scope).get? (R.word ref) =
          (scope.get? ref.word.text).map (Local.relabel (R.names site)) := by
        rw [← hname]
        exact scope.get?_relabel ..
      unfold Resolution.initializing
      dsimp only
      rw [hget]
      cases scope.get? ref.word.text <;> rfl
    by_cases hbound : hops = some 0
    · exact .inl (hsame (hsuits.bound 0 site hbound rfl))
    · have hlt (k : Nat) (hk : hops = some k) : 0 < k :=
        Nat.pos_of_ne_zero fun hzero => hbound (hzero ▸ hk)
      rcases hsuits.passed 0 site hlt rfl with hname | havoided
      · exact .inl (hsame hname)
      · have hnone : (relabelScope (R.names site) scope).contains (R.word ref) = false := by
          rw [contains_relabelScope_symm]
          exact Bool.eq_false_iff.mpr fun hcontains => hused _ hcontains havoided
        refine .inr ⟨?_, fun scope' hscope' => ?_⟩
        · have hget : (relabelScope (R.names site) scope).get? (R.word ref) = none :=
            Option.not_isSome_iff_eq_none.mp (Bool.eq_false_iff.mp hnone)
          unfold Resolution.initializing
          dsimp only
          rw [hget]
        · cases hscope'
          exact hnone

omit h in
/-- A scope that does not have the name may be skipped. -/
theorem index?_skip (hnone : ∀ scope, r.scopes.head? = some scope →
    scope.contains ref.word.text = false) : r.index? ref 0 = r.index? ref 1 := by
  unfold Resolution.index?
  cases hscopes : r.scopes with
  | nil => rfl
  | cons scope scopes =>
    rw [hscopes] at hnone
    have hfirst := hnone scope rfl
    rw [List.drop_zero, List.findIdx?_cons, hfirst, List.drop_one, List.tail_cons]
    cases scopes.findIdx? (·.contains ref.word.text) with
    | none => rfl
    | some i =>
      change some (0 + (i + 1)) = some (1 + i)
      rw [Nat.zero_add, Nat.add_comm]

theorem reads?_mirror (hsuits : R.Suits avoided S ref (r.reads? ref)) :
    r'.reads? (ref.relabel R) = r.reads? ref := by
  have hinitializing := initializing_mirror h hsuits
  unfold Resolution.reads? at hsuits ⊢
  cases hinit : r.initializing ref.word.text with
  | true =>
    rw [hinit, if_pos rfl] at hsuits
    have hindex := index?_mirror h hsuits
    rw [if_pos rfl]
    rcases hinitializing with hsame | ⟨hfalse, hnone⟩
    · have hinit' : r'.initializing (ref.relabel R).word.text = true := hsame.trans hinit
      rw [if_pos hinit', hindex]
    · have hinit' : ¬ r'.initializing (ref.relabel R).word.text = true :=
        Bool.eq_false_iff.mp hfalse
      rw [if_neg hinit', index?_skip hnone, hindex]
  | false =>
    rw [hinit] at hsuits
    have hinit' : ¬ r'.initializing (ref.relabel R).word.text = true := by
      rcases hinitializing with hsame | ⟨hfalse, -⟩
      · exact Bool.eq_false_iff.mp (hsame.trans hinit)
      · exact Bool.eq_false_iff.mp hfalse
    rw [if_neg hinit', index?_mirror h hsuits]
    rfl

end References

/-! ## The steps of the walk -/

namespace Resolution

/-- What the walk over the tree with other labels has found out, when the walk over the tree has
found out the first. -/
structure Mirrors (R : Relabelling) (avoided : String → Prop) (S : List Site)
    (r r' : Resolution) : Prop where
  scopes : ScopesMirror R avoided S r.scopes r'.scopes
  globals : r'.globals = r.globals
  bindings : r.bindings.Renumbered R.id r'.bindings
  fewer : r'.found.length ≤ r.found.length
  found : R.Plain → r'.found = r.found

namespace Mirrors

variable {R : Relabelling} {avoided : String → Prop} {S : List Site} {site : Site}
  {r r' : Resolution} (h : r.Mirrors R avoided S r')

include h

theorem report {word word' : Lexeme} {fault fault' : ScopeFault} (hword : R.Plain → word' = word)
    (hfault : R.Plain → fault' = fault) :
    (r.report word fault).Mirrors R avoided S (r'.report word' fault') :=
  { h with
    fewer := by
      have hfewer := h.fewer
      simp only [Resolution.report, List.length_append, List.length_singleton]
      omega
    found := fun hR => by
      simp only [Resolution.report, h.found hR, hword hR, hfault hR] }

/-- A report that the other walk does not make. -/
theorem report_left {word : Lexeme} {fault : ScopeFault} (hR : ¬ R.Plain) :
    (r.report word fault).Mirrors R avoided S r' :=
  { h with
    fewer := by
      have hfewer := h.fewer
      simp only [Resolution.report, List.length_append, List.length_singleton]
      omega
    found := fun hplain => absurd hplain hR }

theorem declare {word : Lexeme} (hused : ¬ avoided word.text) :
    (r.declare word).Mirrors R avoided S (r'.declare (word.rename (R.innermost S))) := by
  obtain ⟨scopes, globals, bindings, found⟩ := r
  obtain ⟨scopes', globals', bindings', found'⟩ := r'
  have hscopes := h.scopes
  cases hscopes with
  | nil => exact { h with scopes := .nil, globals := congrArg (word.text :: ·) h.globals }
  | @cons site S scope scopes scopes' hold htail =>
    have hcontains : (relabelScope (R.names site) scope).contains
        (word.rename (R.innermost (site :: S))).text = scope.contains word.text :=
      contains_relabelScope (R.names site) scope word.text
    have hdeclared (found found' : List Diagnostic) (hfewer : found'.length ≤ found.length)
        (hfound : R.Plain → found' = found) : Mirrors R avoided (site :: S)
          ⟨scope.set word.text ⟨word, false, false, scope.size⟩ :: scopes, globals, bindings,
            found⟩
          ⟨(relabelScope (R.names site) scope).set (R.names site word.text)
            ⟨word.rename (R.names site), false, false, (relabelScope (R.names site) scope).size⟩ ::
            scopes', globals', bindings', found'⟩ := by
      refine ⟨?_, h.globals, h.bindings, hfewer, hfound⟩
      rw [set_relabelScope]
      refine .cons (fun x hx => ?_) htail
      rw [Slots.contains_set] at hx
      simp only [Bool.or_eq_true, decide_eq_true_eq] at hx
      rcases hx with rfl | hx
      · exact hused
      · exact hold x hx
    unfold Resolution.declare
    dsimp only
    rw [hcontains]
    let word' := word.rename (R.innermost (site :: S))
    have hword (hR : R.Plain) : word' = word := congrArg word.rename (hR.innermost (site :: S))
    have hreport := h.report hword fun hR => congrArg (ScopeFault.alreadyDeclared ·.text) (hword hR)
    cases scope.contains word.text with
    | true => exact hdeclared _ _ hreport.fewer hreport.found
    | false => exact hdeclared _ _ h.fewer h.found

theorem define (word : Lexeme) :
    (r.define word).Mirrors R avoided S (r'.define (word.rename (R.innermost S))) := by
  obtain ⟨scopes, globals, bindings, found⟩ := r
  obtain ⟨scopes', globals', bindings', found'⟩ := r'
  have hscopes := h.scopes
  have hname (site : Site) (hsite : S[0]? = some site) :
      R.names site word.text = (word.rename (R.innermost S)).text := by
    cases S with
    | nil => cases hsite
    | cons first S =>
      cases hsite
      rfl
  have hdefined := hscopes.modify hname (f := ({ · with defined := true })) fun _ _ => rfl
  cases hscopes with
  | nil => exact h
  | cons hold htail => exact { h with scopes := hdefined }

theorem declareAll {words : List Lexeme} (hused : ∀ word ∈ words, ¬ avoided word.text) :
    (r.declareAll words).Mirrors R avoided S
      (r'.declareAll (words.map (Lexeme.rename (R.innermost S)))) := by
  induction words generalizing r r' with
  | nil => exact h
  | cons word words ih =>
    have hfirst := (h.declare (hused word (by simp))).define word
    exact ih hfirst fun other hother => hused other (List.mem_cons_of_mem _ hother)

theorem enter {scope : Scope} (hused : ∀ x, scope.contains x → ¬ avoided x) :
    (r.enter scope).Mirrors R avoided (site :: S)
      (r'.enter (relabelScope (R.names site) scope)) :=
  { h with scopes := .cons hused h.scopes }

theorem enterEmpty (site : Site) : (r.enter .empty).Mirrors R avoided (site :: S) (r'.enter .empty) :=
  h.enter fun x hx => by simp [Slots.contains, Slots.get?_empty] at hx

theorem bound {ref : Ref} {hops : Nat} (hlaw : R.Lawful avoided)
    (hsuits : R.Suits avoided S ref (some hops)) :
    (r.bound ref hops).Mirrors R avoided S (r'.bound (ref.relabel R) hops) :=
  { h with
    scopes := h.scopes.modify (fun site hsite => hsuits.bound hops site rfl hsite) fun _ _ => rfl
    bindings := h.bindings.bind hlaw.injective ref.id hops }

theorem refer {ref : Ref} (hlaw : R.Lawful avoided)
    (hsuits : R.Suits avoided S ref (r.refers? ref)) :
    (r.refer ref).Mirrors R avoided S (r'.refer (ref.relabel R)) := by
  have hsame : r'.refers? (ref.relabel R) = r.refers? ref := index?_mirror h.scopes hsuits
  rw [refer_eq, refer_eq, hsame]
  cases hhops : r.refers? ref with
  | none => exact h
  | some hops =>
    rw [hhops] at hsuits
    exact h.bound hlaw hsuits

theorem read {ref : Ref} (hlaw : R.Lawful avoided)
    (hsuits : R.Suits avoided S ref (r.reads? ref)) :
    (r.read ref).Mirrors R avoided S (r'.read (ref.relabel R)) := by
  have hsame : r'.reads? (ref.relabel R) = r.reads? ref := reads?_mirror h.scopes hsuits
  have hinitializing := initializing_mirror h.scopes hsuits
  rw [read_eq, read_eq, hsame, h.globals]
  cases hhops : r.reads? ref with
  | some hops =>
    rw [hhops] at hsuits
    exact h.bound hlaw hsuits
  | none =>
    rw [hhops] at hsuits
    have hword : (ref.relabel R).word = ref.word := by
      have hfree := hsuits.free rfl
      unfold Ref.relabel
      rw [hfree]
    have hplain (hR : R.Plain) : r'.initializing ref.word.text = r.initializing ref.word.text := by
      unfold Resolution.initializing
      rw [h.scopes.refl_of_plain hR]
    rw [hsuits.free rfl] at hinitializing
    dsimp only
    rw [hword]
    by_cases hfault : r.initializing ref.word.text ∧ ref.word.text ∉ r.globals
    · rw [if_pos hfault]
      split
      · exact h.report (fun _ => rfl) fun _ => rfl
      · rename_i hno
        refine h.report_left fun hR => hno ⟨?_, hfault.2⟩
        rw [hplain hR]
        exact hfault.1
    · rw [if_neg hfault, if_neg]
      · exact h
      · rintro ⟨hinit, hglobal⟩
        rcases hinitializing with hinit' | ⟨hinit', -⟩
        · exact hfault ⟨hinit' ▸ hinit, hglobal⟩
        · rw [hinit'] at hinit
          cases hinit

theorem reports {π : Equiv.Perm String} (hπ : R.Plain → π = Equiv.refl String) (ls : List Local) :
    (ls.foldl (fun r l => r.report l.word (.unusedLocal l.word.text)) r).Mirrors R avoided S
      ((ls.map (Local.relabel π)).foldl (fun r l => r.report l.word (.unusedLocal l.word.text))
        r') := by
  induction ls generalizing r r' with
  | nil => exact h
  | cons l ls ih =>
    refine ih (h.report (fun hR => ?_) fun hR => ?_)
    · rw [hπ hR]
      rfl
    · rw [hπ hR]
      rfl

omit h in
theorem leave (h : r.Mirrors R avoided (site :: S) r') : r.leave.Mirrors R avoided S r'.leave := by
  obtain ⟨scopes, globals, bindings, found⟩ := r
  obtain ⟨scopes', globals', bindings', found'⟩ := r'
  have hscopes := h.scopes
  cases hscopes with
  | @cons _ _ scope scopes scopes' hold htail =>
    have hinner : Mirrors R avoided S ⟨scopes, globals, bindings, found⟩
        ⟨scopes', globals', bindings', found'⟩ := { h with scopes := htail }
    have hreports := hinner.reports (fun hR => hR.names site) (unused scope)
    rw [← unused_relabelScope] at hreports
    exact hreports

/-! ### Classes -/

theorem enterSpecial {special : String} {word : Lexeme} (hsite : R.names site = Equiv.refl String)
    (hused : ¬ avoided special) :
    (r.enter (implicitly special word)).Mirrors R avoided (site :: S)
      (r'.enter (implicitly special word)) := by
  have hscope (x : String) (hx : (implicitly special word).contains x) : ¬ avoided x := by
    rwa [(contains_implicitly special x word).mp hx]
  have henter : (r.enter _).Mirrors R avoided (site :: S) (r'.enter _) := h.enter hscope
  rwa [hsite, relabelScope_refl] at henter

omit h in
theorem relabel_word {ref : Ref} (hR : R.Plain) : (ref.relabel R).word = ref.word := by
  unfold Ref.relabel
  rw [hR.word]

theorem enterClass {name : Lexeme} {superclass : Option Ref} (members : List Method)
    (hlaw : R.Lawful avoided) (hused : ¬ avoided name.text)
    (hname : R.innermost S name.text = name.text)
    (hsuits : ∀ ref, superclass = some ref → R.Suits avoided S ref (r.reads? ref)) :
    (r.enterClass name superclass).Mirrors R avoided (classSites superclass members S)
      (r'.enterClass name (superclass.map (Ref.relabel R))) := by
  cases superclass with
  | none => exact h.enterSpecial (hlaw.self members) hlaw.this_used
  | some ref =>
    have hsuits := hsuits ref rfl
    have hread {r₁ r₁' : Resolution} (h₁ : r₁.Mirrors R avoided S r₁')
        (hsame : r₁.reads? ref = r.reads? ref) :
        (((r₁.read ref).enter (implicitly "super" name)).enter (implicitly "this" name)).Mirrors R
          avoided (.self members :: .super members :: S)
          (((r₁'.read (ref.relabel R)).enter (implicitly "super" name)).enter
            (implicitly "this" name)) := by
      have hreads := h₁.read hlaw (hsame ▸ hsuits)
      exact (hreads.enterSpecial (hlaw.super members) hlaw.super_used).enterSpecial
        (hlaw.self members) hlaw.this_used
    have hself (heq : R.word ref = name.text) : ref.word.text = name.text := by
      cases S with
      | nil =>
        have hnone : r.reads? ref = none := by
          cases hscopes : r.scopes with
          | nil => simp [reads?, index?, initializing, hscopes]
          | cons scope scopes =>
            have hmirror := h.scopes
            rw [hscopes] at hmirror
            cases hmirror
        rw [← hsuits.free hnone, heq]
      | cons site S =>
        have hsame (hname' : R.names site ref.word.text = R.word ref) :
            ref.word.text = name.text :=
          (R.names site).injective (hname'.trans (heq.trans hname.symm))
        by_cases hbound : r.reads? ref = some 0
        · exact hsame (hsuits.bound 0 site hbound rfl)
        · have hlt (k : Nat) (hk : r.reads? ref = some k) : 0 < k :=
            Nat.pos_of_ne_zero fun hzero => hbound (hzero ▸ hk)
          rcases hsuits.passed 0 site hlt rfl with hname' | havoided
          · exact hsame hname'
          · rw [heq, (Equiv.symm_apply_eq (R.names site)).mpr hname.symm] at havoided
            exact absurd havoided hused
    unfold Resolution.enterClass
    dsimp only [Option.map]
    by_cases heq : ref.word.text = name.text
    · rw [if_pos heq]
      split
      · exact hread (h.report relabel_word fun _ => rfl) rfl
      · rename_i hno
        exact hread (h.report_left fun hR => hno ((hR.word ref).trans heq)) rfl
    · have heq' : ¬ (ref.relabel R).word.text = name.text := fun heq' => heq (hself heq')
      rw [if_neg heq, if_neg heq']
      exact hread h rfl

omit h in
theorem leaveClass {superclass : Option Ref} {members : List Method}
    (h : r.Mirrors R avoided (classSites superclass members S) r') :
    (r.leaveClass superclass).Mirrors R avoided S
      (r'.leaveClass (superclass.map (Ref.relabel R))) := by
  cases superclass with
  | none => exact h.leave
  | some ref => exact h.leave.leave

/-! ### Jumps, `this` and `super` -/

theorem checkBreak (a : Surroundings) (keyword : Lexeme) :
    (r.checkBreak a keyword).Mirrors R avoided S (r'.checkBreak a keyword) := by
  unfold Resolution.checkBreak
  split
  · exact h
  · exact h.report (fun _ => rfl) fun _ => rfl

theorem checkReturn (a : Surroundings) (keyword : Lexeme) (hasValue : Bool) :
    (r.checkReturn a keyword hasValue).Mirrors R avoided S
      (r'.checkReturn a keyword hasValue) := by
  unfold Resolution.checkReturn
  split
  · exact h.report (fun _ => rfl) fun _ => rfl
  · split
    · exact h.report (fun _ => rfl) fun _ => rfl
    · exact h
  · exact h

theorem referThis {ref : Ref} (a : Surroundings) (hlaw : R.Lawful avoided)
    (hsuits : R.Suits avoided S ref (r.refers? ref)) :
    (r.referThis a ref).Mirrors R avoided S (r'.referThis a (ref.relabel R)) := by
  unfold Resolution.referThis
  split
  · exact h.report relabel_word fun _ => rfl
  · exact h.refer hlaw hsuits

theorem referSuper {ref : Ref} (a : Surroundings) (hlaw : R.Lawful avoided)
    (hsuits : R.Suits avoided S ref (r.refers? ref)) :
    (r.referSuper a ref).Mirrors R avoided S (r'.referSuper a (ref.relabel R)) := by
  unfold Resolution.referSuper
  dsimp only
  split
  · exact (h.report relabel_word fun _ => rfl).refer hlaw hsuits
  · exact (h.report relabel_word fun _ => rfl).refer hlaw hsuits
  · exact h.refer hlaw hsuits

end Mirrors

end Resolution

/-! ## The walk -/

section Walk

variable {R : Relabelling} {avoided : String → Prop}

/-- The labels fit together at a place and at all places that the walk goes on to. -/
structure Place.Fits (R : Relabelling) (avoided : String → Prop) (P : Place) : Prop where
  lawful : R.Lawful avoided
  all : ∀ Q, ReflTransGen Visits P Q → Q.Conforms R avoided

theorem Place.Fits.visits {P Q : Place} (h : P.Fits R avoided) (hQ : Visits P Q) :
    Q.Fits R avoided := ⟨h.lawful, fun Q' hQ' => h.all Q' (.head hQ hQ')⟩

theorem Place.Fits.conforms {P : Place} (h : P.Fits R avoided) : P.Conforms R avoided :=
  h.all P .refl

theorem Place.Fits.seeks {P : Place} (h : P.Fits R avoided) {ref : Ref} {hops : Option Nat}
    (hseeks : P.Seeks ref hops) : R.Suits avoided P.sites ref hops :=
  h.conforms.seeks ref hops hseeks

theorem Place.Fits.declares {P : Place} (h : P.Fits R avoided) {x : String}
    (hx : P.Declares x) : ¬ avoided x := h.conforms.declares x hx

theorem Place.Fits.rename {P : Place} (h : P.Fits R avoided) {name : Lexeme}
    (hname : P.Names name.text) : name.rename (R.innermost P.sites) = name := by
  unfold Lexeme.rename
  rw [h.conforms.keeps _ hname]

mutual

theorem expression_mirrors (a : Surroundings) (S : List Site) : (e : Expr) → {r r' : Resolution} →
    Place.Fits R avoided ⟨a, .expression e, S, r⟩ → r.Mirrors R avoided S r' →
    (expression a e r).Mirrors R avoided S (expression a (e.relabel R) r')
  | .literal _, _, _, _, h => h
  | .variable _, _, _, hfits, h => h.read hfits.lawful (hfits.seeks .variable)
  | .assign _ value, _, _, hfits, h =>
    (expression_mirrors a S value (hfits.visits .assignValue) h).refer hfits.lawful
      (hfits.seeks .assign)
  | .unary _ _ operand, _, _, hfits, h =>
    expression_mirrors a S operand (hfits.visits .unaryOperand) h
  | .binary _ _ left right, _, _, hfits, h =>
    expression_mirrors a S right (hfits.visits .binaryRight)
      (expression_mirrors a S left (hfits.visits .binaryLeft) h)
  | .logical _ _ left right, _, _, hfits, h =>
    expression_mirrors a S right (hfits.visits .logicalRight)
      (expression_mirrors a S left (hfits.visits .logicalLeft) h)
  | .comma left right, _, _, hfits, h =>
    expression_mirrors a S right (hfits.visits .commaRight)
      (expression_mirrors a S left (hfits.visits .commaLeft) h)
  | .conditional condition whenTrue whenFalse, _, _, hfits, h =>
    expression_mirrors a S whenFalse (hfits.visits .whenFalse)
      (expression_mirrors a S whenTrue (hfits.visits .whenTrue)
        (expression_mirrors a S condition (hfits.visits .condition) h))
  | .grouping inner, _, _, hfits, h => expression_mirrors a S inner (hfits.visits .grouping) h
  | .call callee arguments _, _, _, hfits, h =>
    expressions_mirrors a S arguments (hfits.visits .arguments)
      (expression_mirrors a S callee (hfits.visits .callee) h)
  | .get object _, _, _, hfits, h => expression_mirrors a S object (hfits.visits .getObject) h
  | .set object _ value, _, _, hfits, h =>
    expression_mirrors a S object (hfits.visits .setObject)
      (expression_mirrors a S value (hfits.visits .setValue) h)
  | .this _, _, _, hfits, h => h.referThis a hfits.lawful (hfits.seeks .this)
  | .super _ _, _, _, hfits, h => h.referSuper a hfits.lawful (hfits.seeks .super)
  | .function ⟨params, body⟩, _, _, hfits, h =>
    routineBody_mirrors (a.within .function) S ⟨params, body⟩ (hfits.visits .function) h

theorem expressions_mirrors (a : Surroundings) (S : List Site) : (es : List Expr) →
    {r r' : Resolution} → Place.Fits R avoided ⟨a, .expressions es, S, r⟩ →
    r.Mirrors R avoided S r' →
    (expressions a es r).Mirrors R avoided S (expressions a (Expr.relabelAll R es) r')
  | [], _, _, _, h => h
  | e :: es, _, _, hfits, h =>
    expressions_mirrors a S es (hfits.visits .others)
      (expression_mirrors a S e (hfits.visits .first) h)

theorem statement_mirrors (a : Surroundings) (S : List Site) : (s : Stmt) → {r r' : Resolution} →
    Place.Fits R avoided ⟨a, .statement s, S, r⟩ → r.Mirrors R avoided S r' →
    (statement a s r).Mirrors R avoided S (statement a (s.relabel R (R.innermost S)) r')
  | .expression e, _, _, hfits, h => expression_mirrors a S e (hfits.visits .evaluated) h
  | .print e, _, _, hfits, h => expression_mirrors a S e (hfits.visits .printed) h
  | .vars ds, _, _, hfits, h => declarators_mirrors a S ds (hfits.visits .declared) h
  | .block body, _, _, hfits, h => by
    exact (statements_mirrors a (.block body :: S) body (hfits.visits .block)
      (h.enterEmpty _)).leave
  | .ifElse condition whenTrue none, _, _, hfits, h =>
    statement_mirrors a S whenTrue (hfits.visits .chosen)
      (expression_mirrors a S condition (hfits.visits .choice) h)
  | .ifElse condition whenTrue (some whenFalse), _, _, hfits, h =>
    statement_mirrors a S whenFalse (hfits.visits .alternative)
      (statement_mirrors a S whenTrue (hfits.visits .chosen)
        (expression_mirrors a S condition (hfits.visits .choice) h))
  | .whileLoop condition body, _, _, hfits, h =>
    statement_mirrors { a with inLoop := true } S body (hfits.visits .roundBody)
      (expression_mirrors a S condition (hfits.visits .roundCondition) h)
  | .breakLoop keyword, _, _, _, h => h.checkBreak a keyword
  | .returnFrom keyword none, _, _, _, h => h.checkReturn a keyword false
  | .returnFrom keyword (some e), _, _, hfits, h =>
    expression_mirrors a S e (hfits.visits .returned) (h.checkReturn a keyword true)
  | .function name ⟨params, body⟩, _, _, hfits, h => by
    have hname : name.rename (R.innermost S) = name := hfits.rename .function
    have hdeclared :=
      (h.declare (hfits.declares (.names .function))).define name
    rw [hname] at hdeclared
    exact routineBody_mirrors (a.within .function) S ⟨params, body⟩
      (hfits.visits .declaredFunction) hdeclared
  | .class name superclass members, r, _, hfits, h => by
    have hname : name.rename (R.innermost S) = name := hfits.rename .class
    have hused := hfits.declares (.names .class)
    have hdeclared := (h.declare hused).define name
    rw [hname] at hdeclared
    have hsuits (ref : Ref) (href : superclass = some ref) :
        R.Suits avoided S ref (((r.declare name).define name).reads? ref) := by
      subst href
      exact hfits.seeks .superclass
    have henter := hdeclared.enterClass members hfits.lawful hused
      (hfits.conforms.keeps _ .class) hsuits
    have hmembers := methods_mirrors (a.inClass superclass) (classSites superclass members S)
      members (hfits.visits .members) henter
    cases superclass <;> exact hmembers.leaveClass

theorem statements_mirrors (a : Surroundings) (S : List Site) : (body : List Stmt) →
    {r r' : Resolution} → Place.Fits R avoided ⟨a, .statements body, S, r⟩ →
    r.Mirrors R avoided S r' →
    (statements a body r).Mirrors R avoided S
      (statements a (Stmt.relabelAll R (R.innermost S) body) r')
  | [], _, _, _, h => h
  | s :: rest, _, _, hfits, h =>
    statements_mirrors a S rest (hfits.visits .tail)
      (statement_mirrors a S s (hfits.visits .head) h)

theorem declarators_mirrors (a : Surroundings) (S : List Site) : (ds : List Declarator) →
    {r r' : Resolution} → Place.Fits R avoided ⟨a, .declarators ds, S, r⟩ →
    r.Mirrors R avoided S r' →
    (declarators a ds r).Mirrors R avoided S
      (declarators a (Declarator.relabelAll R (R.innermost S) ds) r')
  | [], _, _, _, h => h
  | ⟨name, none⟩ :: rest, _, _, hfits, h =>
    declarators_mirrors a S rest (hfits.visits .afterName)
      ((h.declare (hfits.declares .declarator)).define name)
  | ⟨name, some e⟩ :: rest, _, _, hfits, h =>
    declarators_mirrors a S rest (hfits.visits .afterInitializer)
      ((expression_mirrors a S e (hfits.visits .initializer)
        (h.declare (hfits.declares .declarator))).define name)

theorem methods_mirrors (a : Surroundings) (S : List Site) : (members : List Method) →
    {r r' : Resolution} → Place.Fits R avoided ⟨a, .methods members, S, r⟩ →
    r.Mirrors R avoided S r' →
    (methods a members r).Mirrors R avoided S (methods a (Method.relabelAll R members) r')
  | [], _, _, _, h => h
  | ⟨name, ⟨params, body⟩⟩ :: rest, _, _, hfits, h =>
    methods_mirrors a S rest (hfits.visits .otherMethods)
      (routineBody_mirrors (a.within (.ofMethod name.text)) S ⟨params, body⟩
        (hfits.visits .method) h)

theorem routineBody_mirrors (a : Surroundings) (S : List Site) : (routine : Routine) →
    {r r' : Resolution} → Place.Fits R avoided ⟨a, .routine routine, S, r⟩ →
    r.Mirrors R avoided S r' →
    (routineBody a routine r).Mirrors R avoided S (routineBody a (routine.relabel R) r')
  | ⟨params, body⟩, _, _, hfits, h => by
    have hused (word : Lexeme) (hword : word ∈ params) : ¬ avoided word.text :=
      hfits.declares (.param hword)
    have hparams := (h.enterEmpty (.routine ⟨params, body⟩)).declareAll hused
    exact (statements_mirrors a (.routine ⟨params, body⟩ :: S) body (hfits.visits .body)
      hparams).leave

end

/-- What the walk over a program finds out. -/
theorem program_mirrors {p : Program} {globals : List String}
    (hstatements : Place.Fits R avoided (.ofStatements p.statements globals))
    (htrailing : ∀ e, p.trailing = some e → Place.Fits R avoided
      ⟨{}, .expression e, [], (Place.ofStatements p.statements globals).after⟩) :
    (program p (.start globals)).Mirrors R avoided []
      (program (p.relabel R) (.start globals)) := by
  have hstart : (Resolution.start globals).Mirrors R avoided [] (.start globals) :=
    ⟨.nil, rfl, .empty, Nat.le_refl _, fun _ => rfl⟩
  have hbody := statements_mirrors {} [] p.statements hstatements hstart
  obtain ⟨body, trailing⟩ := p
  cases trailing with
  | none => exact hbody
  | some e => exact expression_mirrors {} [] e (htrailing e rfl) hbody

end Walk

end Scoping

/-! ## Programs -/

namespace Program

variable {p : Program} {globals : List String} {b : Bindings}

/-- A program is accepted with other labels if these fit together. -/
theorem resolve_relabel {R : Relabelling} {avoided : String → Prop}
    (hstatements : Place.Fits R avoided (.ofStatements p.statements globals))
    (htrailing : ∀ e, p.trailing = some e → Place.Fits R avoided
      ⟨{}, .expression e, [], (Place.ofStatements p.statements globals).after⟩)
    (h : p.resolve globals = .ok b) :
    ∃ b', (p.relabel R).resolve globals = .ok b' ∧ b.Renumbered R.id b' := by
  have hmirrors := Scoping.program_mirrors hstatements htrailing
  obtain ⟨hfound, rfl⟩ := resolve_eq_ok.mp h
  have hnone := hmirrors.fewer
  rw [hfound, List.length_nil] at hnone
  have hfound' := List.eq_nil_of_length_eq_zero (Nat.le_zero.mp hnone)
  exact ⟨_, resolve_eq_ok.mpr ⟨hfound', rfl⟩, hmirrors.bindings⟩

section Renumbering

variable {ρ : Nat → Nat} (hρ : Function.Injective ρ)

include hρ

theorem fits_renumbering (P : Place) : P.Fits (.renumbering ρ) fun _ => False :=
  ⟨⟨hρ, fun _ => rfl, fun _ => rfl, id, id⟩,
    fun Q _ => Q.conforms_of_plain (Relabelling.plain_renumbering ρ)⟩

/-- The same faults are found if only the numbers of the references differ. -/
theorem resolve_renumber_error {ds : List Diagnostic} (h : p.resolve globals = .error ds) :
    (p.relabel (.renumbering ρ)).resolve globals = .error ds := by
  have hmirrors : (Scoping.program p (.start globals)).Mirrors (.renumbering ρ) (fun _ => False) []
      (Scoping.program (p.relabel (.renumbering ρ)) (.start globals)) :=
    Scoping.program_mirrors (fits_renumbering hρ _) fun e _ => fits_renumbering hρ _
  have hfound := hmirrors.found (Relabelling.plain_renumbering ρ)
  unfold resolve at h ⊢
  dsimp only at h ⊢
  rw [hfound]
  split at h
  · cases h
  · rename_i hsome
    rwa [if_neg hsome]

theorem resolve_renumber_ok (h : p.resolve globals = .ok b) :
    ∃ b', (p.relabel (.renumbering ρ)).resolve globals = .ok b' ∧ b.Renumbered ρ b' :=
  resolve_relabel (fits_renumbering hρ _) (fun _ _ => fits_renumbering hρ _) h

end Renumbering

end Program

end ScriptLang
