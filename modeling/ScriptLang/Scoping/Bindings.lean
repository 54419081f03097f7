import Std.Data.ExtTreeMap

/-!
# Bindings

A reference to a local variable is bound to the scope that declares it: the table says how
many scopes lie between the two. A reference without an entry is global. Tables with the
same entries are equal.
-/

namespace ScriptLang

/-- For each bound reference, how many scopes out its declaration is. -/
abbrev Bindings := Std.ExtTreeMap Nat Nat

namespace Bindings

/-- How many scopes out the declaration of a reference is, if it is bound. -/
def hops? (b : Bindings) (id : Nat) : Option Nat := b[id]?

/-- The table with an entry for one more reference. -/
def bind (b : Bindings) (id hops : Nat) : Bindings := b.insert id hops

/-- The entries of both tables, those of the second first in authority. -/
def merge (b new : Bindings) : Bindings := b ∪ new

theorem hops?_bind (b : Bindings) (id other hops : Nat) :
    (b.bind id hops).hops? other = if id = other then some hops else b.hops? other := by
  simp [bind, hops?, Std.ExtTreeMap.getElem?_insert]

theorem hops?_merge (b new : Bindings) (id : Nat) :
    (b.merge new).hops? id = (new.hops? id).or (b.hops? id) := by
  simp [merge, hops?, Std.ExtTreeMap.getElem?_union]

end Bindings

end ScriptLang
