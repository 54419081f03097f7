/-!
# Sorting

Insertion from the right, before the first entry that is not less: entries that are equally
great keep their order.
-/

namespace ScriptLang

variable {α : Type}

/-- `x` before the first entry of a list that it may precede. -/
def insertBy (mayPrecede : α → α → Bool) (x : α) : List α → List α
  | [] => [x]
  | y :: ys => if mayPrecede x y then x :: y :: ys else y :: insertBy mayPrecede x ys

/-- The entries of a list, sorted stably. -/
def sortBy (mayPrecede : α → α → Bool) (xs : List α) : List α :=
  xs.foldr (insertBy mayPrecede) []

/-- Entries by ascending numbers, stably. -/
def sortByNumber (number : α → Nat) (xs : List α) : List α :=
  sortBy (fun x y => number x ≤ number y) xs

/-- Names in the order of their code points. -/
def sortNames (names : List String) : List String := sortBy (fun x y => x ≤ y) names

end ScriptLang
