import ScriptLang.Proofs.Scoping.Events
import ScriptLang.Proofs.Sorting

/-!
# Knowing more globals

The globals that are known decide about one thing only: whether a variable that is read in the
initializer of a local of its name, and that no scope further out has, is a fault. Two walks over the
same program, of which the second knows more globals, have the same scopes and bindings at every step
(`Resolution.KnowsMore`). What the second one finds is what the first one finds without some of these
faults (`Pardoned`), and sorting by lines leaves it so.
-/

namespace ScriptLang

/-- The diagnostic is about a local that is read in its own initializer. -/
def Diagnostic.isOwnInitializer (d : Diagnostic) : Bool :=
  match d.fault with
  | .scope (.ownInitializer _) => true
  | _ => false

/-- The second list is the first one without some of the faults of locals that are read in their own
initializers. -/
structure Pardoned (ds ds' : List Diagnostic) : Prop where
  sublist : ds'.Sublist ds
  others : ds'.filter (!·.isOwnInitializer) = ds.filter (!·.isOwnInitializer)

namespace Pardoned

variable {ds ds' es es' : List Diagnostic}

theorem refl (ds : List Diagnostic) : Pardoned ds ds := ⟨.refl ds, rfl⟩

theorem append (h : Pardoned ds ds') (h' : Pardoned es es') :
    Pardoned (ds ++ es) (ds' ++ es') where
  sublist := h.sublist.append h'.sublist
  others := by rw [List.filter_append, List.filter_append, h.others, h'.others]

theorem sort (h : Pardoned ds ds') :
    Pardoned (sortByNumber Diagnostic.line ds) (sortByNumber Diagnostic.line ds') where
  sublist := sublist_sortByNumber h.sublist
  others := by rw [filter_sortByNumber, filter_sortByNumber, h.others]

end Pardoned

namespace Scoping

namespace Resolution

/-! ## Two walks side by side -/

/-- The second walk is at the same place with the same bindings, and knows more globals. -/
structure KnowsMore (r r' : Resolution) : Prop where
  scopes : r'.scopes = r.scopes
  bindings : r'.bindings = r.bindings
  globals : ∀ x ∈ r.globals, x ∈ r'.globals

namespace KnowsMore

variable {r r' : Resolution}

theorem initializing_eq (h : KnowsMore r r') (name : String) :
    r'.initializing name = r.initializing name := by
  unfold initializing
  rw [h.scopes]

/-- Where one walk binds a reference, the other one does too, and they are side by side again. -/
theorem bind? (h : KnowsMore r r') (ref : Ref) (skipped : Nat) :
    Option.Rel KnowsMore (r.bind? ref skipped) (r'.bind? ref skipped) := by
  unfold Resolution.bind?
  rw [h.scopes, h.bindings]
  split
  · exact .none
  · exact .some ⟨rfl, rfl, h.globals⟩

theorem bind?_eq_none (h : KnowsMore r r') {ref : Ref} {skipped : Nat} :
    r'.bind? ref skipped = none ↔ r.bind? ref skipped = none := by
  have hrel := h.bind? ref skipped
  generalize r.bind? ref skipped = bound at hrel
  generalize r'.bind? ref skipped = bound' at hrel
  cases hrel <;> simp

theorem enter (h : KnowsMore r r') (scope : Scope) : KnowsMore (r.enter scope) (r'.enter scope) :=
  ⟨congrArg (scope :: ·) h.scopes, h.bindings, h.globals⟩

theorem leave (h : KnowsMore r r') : KnowsMore r.leave r'.leave := by
  unfold Resolution.leave
  rw [h.scopes]
  split
  · exact h
  · rw [foldl_report_eq, foldl_report_eq]
    exact ⟨rfl, h.bindings, h.globals⟩

theorem report (h : KnowsMore r r') (word : Lexeme) (fault : ScopeFault) :
    KnowsMore (r.report word fault) (r'.report word fault) := ⟨h.scopes, h.bindings, h.globals⟩

theorem declare (h : KnowsMore r r') (word : Lexeme) :
    KnowsMore (r.declare word) (r'.declare word) := by
  unfold Resolution.declare
  rw [h.scopes]
  split
  · refine ⟨rfl, h.bindings, fun x hx => ?_⟩
    exact List.mem_cons.mpr ((List.mem_cons.mp hx).imp_right (h.globals x))
  · dsimp only
    split <;> exact ⟨rfl, h.bindings, h.globals⟩

theorem define (h : KnowsMore r r') (word : Lexeme) :
    KnowsMore (r.define word) (r'.define word) := by
  unfold Resolution.define
  rw [h.scopes]
  split
  · exact h
  · exact ⟨rfl, h.bindings, h.globals⟩

theorem refer (h : KnowsMore r r') (ref : Ref) : KnowsMore (r.refer ref) (r'.refer ref) := by
  unfold Resolution.refer
  have hrel := h.bind? ref 0
  generalize r.bind? ref 0 = bound at hrel
  generalize r'.bind? ref 0 = bound' at hrel
  cases hrel with
  | none => exact h
  | some hbound => exact hbound

theorem read (h : KnowsMore r r') (ref : Ref) : KnowsMore (r.read ref) (r'.read ref) := by
  unfold Resolution.read
  rw [h.initializing_eq]
  split
  · have hrel := h.bind? ref 1
    generalize r.bind? ref 1 = bound at hrel
    generalize r'.bind? ref 1 = bound' at hrel
    cases hrel with
    | some hbound => exact hbound
    | none =>
      -- A fault changes neither the scopes nor the bindings, so it does not matter who finds it.
      dsimp only
      split <;> split <;> exact ⟨h.scopes, h.bindings, h.globals⟩
  · exact h.refer ref

theorem take (h : KnowsMore r r') (e : Event) : KnowsMore (r.take e) (r'.take e) := by
  cases e with
  | opens => exact h.enter .empty
  | opensFor special name => exact h.enter _
  | closes => exact h.leave
  | declares word => exact h.declare word
  | defines word => exact h.define word
  | reads ref => exact h.read ref
  | assigns ref => exact h.refer ref
  | stands path node =>
    unfold Resolution.take
    have hreported : KnowsMore { r with found := r.found ++ (node.fault? path).toList }
        { r' with found := r'.found ++ (node.fault? path).toList } :=
      ⟨h.scopes, h.bindings, h.globals⟩
    dsimp only
    split
    · exact hreported.refer _
    · exact hreported

/-- What the second walk finds in a step. -/
theorem finds (h : KnowsMore r r') (e : Event) : Pardoned (r.finds e) (r'.finds e) := by
  cases e with
  | reads ref =>
    unfold Resolution.finds
    simp only [h.initializing_eq, h.bind?_eq_none]
    split
    · split
      · exact .refl _
      · exact ⟨List.nil_sublist _, rfl⟩
    · rename_i hnone
      rw [if_neg fun hnew => hnone ⟨hnew.1, hnew.2.1, fun hknown => hnew.2.2 (h.globals _ hknown)⟩]
      exact .refl _
  | closes =>
    unfold Resolution.finds
    rw [h.scopes]
    exact .refl _
  | declares word =>
    unfold Resolution.finds
    rw [h.scopes]
    exact .refl _
  | _ => exact .refl _

theorem takeAll (h : KnowsMore r r') (hfound : Pardoned r.found r'.found) (es : List Event) :
    KnowsMore (r.takeAll es) (r'.takeAll es) ∧
      Pardoned (r.takeAll es).found (r'.takeAll es).found := by
  induction es generalizing r r' with
  | nil => exact ⟨h, hfound⟩
  | cons e es ih =>
    refine ih (h.take e) ?_
    rw [found_take, found_take]
    exact hfound.append (h.finds e)

end KnowsMore
end Resolution

end Scoping

end ScriptLang
