import Mathlib.Data.List.Sort
import ScriptLang.Sorting

/-!
# Stable sorting

Sorting by a number is insertion sort, so it gives the same entries in ascending order
(`sortByNumber_perm`, `pairwise_sortByNumber`). It is stable: picking entries out before or after
makes no difference (`filter_sortByNumber`), and entries of one number keep their order
(`filter_eq_sortByNumber`).
-/

namespace ScriptLang

variable {α : Type}

section Insertion

variable (number : α → Nat)

/-- Entries by ascending numbers. -/
abbrev Ascending (x y : α) : Prop := number x ≤ number y

instance : Std.Total (Ascending number) := ⟨fun x y => Nat.le_total (number x) (number y)⟩

instance : IsTrans α (Ascending number) := ⟨fun _ _ _ => Nat.le_trans⟩

theorem insertBy_eq_orderedInsert (x : α) (ys : List α) :
    insertBy (fun x y => number x ≤ number y) x ys = ys.orderedInsert (Ascending number) x := by
  induction ys with
  | nil => rfl
  | cons y ys ih =>
    unfold insertBy List.orderedInsert
    simp only [decide_eq_true_eq, ih]

theorem sortByNumber_eq_insertionSort (xs : List α) :
    sortByNumber number xs = xs.insertionSort (Ascending number) := by
  induction xs with
  | nil => rfl
  | cons x xs ih =>
    have hstep : sortByNumber number (x :: xs) =
      insertBy (fun x y => number x ≤ number y) x (sortByNumber number xs) := rfl
    rw [hstep, insertBy_eq_orderedInsert, ih, List.insertionSort_cons]

/-- Sorting only changes the order. -/
theorem sortByNumber_perm (xs : List α) : (sortByNumber number xs).Perm xs := by
  rw [sortByNumber_eq_insertionSort]
  exact List.perm_insertionSort _ xs

theorem pairwise_sortByNumber (xs : List α) :
    (sortByNumber number xs).Pairwise (Ascending number) := by
  rw [sortByNumber_eq_insertionSort]
  exact List.pairwise_insertionSort _ xs

/-- What is in ascending order already stays as it is. -/
theorem sortByNumber_of_pairwise {xs : List α} (h : xs.Pairwise (Ascending number)) :
    sortByNumber number xs = xs := by
  rw [sortByNumber_eq_insertionSort]
  exact h.insertionSort_eq

end Insertion

/-! ## Stability -/

section Stability

variable {number : α → Nat}

theorem filter_orderedInsert (p : α → Bool) (x : α) {ys : List α}
    (hys : ys.Pairwise (Ascending number)) :
    (ys.orderedInsert (Ascending number) x).filter p =
      if p x then (ys.filter p).orderedInsert (Ascending number) x else ys.filter p := by
  induction ys with
  | nil => cases hp : p x <;> simp [hp]
  | cons y ys ih =>
    have hrest := ih hys.of_cons
    by_cases hxy : number x ≤ number y
    · -- Everything behind is at least as great as `x`.
      have hfirst : ∀ z ∈ (y :: ys).filter p, number x ≤ number z := by
        intro z hz
        rcases List.mem_cons.mp (List.mem_filter.mp hz).1 with rfl | hz
        · exact hxy
        · exact Nat.le_trans hxy (List.rel_of_pairwise_cons hys hz)
      rw [List.orderedInsert_cons_of_le (Ascending number) ys hxy, List.filter_cons]
      cases hkept : (y :: ys).filter p with
      | nil => simp
      | cons z zs =>
        rw [hkept] at hfirst
        rw [List.orderedInsert_cons_of_le (Ascending number) zs (hfirst z List.mem_cons_self)]
    · rw [List.orderedInsert_of_not_le (Ascending number) ys hxy, List.filter_cons, hrest, List.filter_cons]
      cases hx : p x <;> cases hy : p y <;> simp [hxy]

/-- Picking out entries before or after sorting makes no difference. -/
theorem filter_sortByNumber (p : α → Bool) (xs : List α) :
    (sortByNumber number xs).filter p = sortByNumber number (xs.filter p) := by
  rw [sortByNumber_eq_insertionSort, sortByNumber_eq_insertionSort]
  induction xs with
  | nil => rfl
  | cons x xs ih =>
    rw [List.insertionSort_cons, filter_orderedInsert p x (List.pairwise_insertionSort _ xs), ih,
      List.filter_cons]
    split
    · rw [List.insertionSort_cons]
    · rfl

/-- Entries of one number keep their order. -/
theorem filter_eq_sortByNumber (n : Nat) (xs : List α) :
    (sortByNumber number xs).filter (number · = n) = xs.filter (number · = n) := by
  rw [filter_sortByNumber]
  refine sortByNumber_of_pairwise number (List.pairwise_of_forall_mem_list fun x hx y hy => ?_)
  have hx' : number x = n := by simpa using (List.mem_filter.mp hx).2
  have hy' : number y = n := by simpa using (List.mem_filter.mp hy).2
  exact Nat.le_of_eq (hx'.trans hy'.symm)

/-- What is left out before sorting is missing afterwards, and nothing else is. -/
theorem sublist_sortByNumber {xs ys : List α} (h : xs.Sublist ys) :
    (sortByNumber number xs).Sublist (sortByNumber number ys) := by
  rw [sortByNumber_eq_insertionSort, sortByNumber_eq_insertionSort]
  induction h with
  | slnil => exact .slnil
  | cons y _ ih => exact ih.trans (List.sublist_orderedInsert y _)
  | cons_cons x _ ih => exact ih.orderedInsert_sublist x (List.pairwise_insertionSort _ _)

end Stability

end ScriptLang
