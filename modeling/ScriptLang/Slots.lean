/-!
# Tables of names

A `Slots` table gives values to names and keeps the names in the order in which they were
first given one. Its three laws say what a write does to a read: the written name has the
new value (`get?_set_self`), every other name keeps its own (`get?_set_of_ne`), and no
other name appears or goes (`contains_set`).
-/

namespace ScriptLang

/-- Values by name, in the order of their first definition. -/
structure Slots (α : Type) where
  entries : List (String × α)

namespace Slots

variable {α : Type}

/-- The table without names. -/
def empty : Slots α := ⟨[]⟩

/-- The value of a name in the pairs of `entries`. -/
def read (name : String) : List (String × α) → Option α
  | [] => none
  | (n, v) :: entries => if n = name then some v else read name entries

/-- The value of a name. -/
def get? (s : Slots α) (name : String) : Option α := read name s.entries

/-- Whether a name has a value. -/
def contains (s : Slots α) (name : String) : Bool := (s.get? name).isSome

/-- The names, in the order of their first definition. -/
def names (s : Slots α) : List String := s.entries.map (·.1)

/-- How many names there are. -/
def size (s : Slots α) : Nat := s.entries.length

/-- The pairs of `entries`, with `value` for `name` in its place or at the end. -/
def write (name : String) (value : α) : List (String × α) → List (String × α)
  | [] => [(name, value)]
  | (n, v) :: entries =>
    if n = name then (n, value) :: entries else (n, v) :: write name value entries

/-- The table with a new value for a name. -/
def set (s : Slots α) (name : String) (value : α) : Slots α := ⟨write name value s.entries⟩

/-- The table with the value of a name changed, if it has one. -/
def modify (s : Slots α) (name : String) (f : α → α) : Slots α :=
  match s.get? name with
  | some value => s.set name (f value)
  | none => s

/-! ## Laws -/

theorem read_write (name other : String) (value : α) (entries : List (String × α)) :
    read other (write name value entries) =
      if other = name then some value else read other entries := by
  induction entries with
  | nil => simp [write, read, eq_comm]
  | cons entry entries ih =>
    obtain ⟨n, v⟩ := entry
    by_cases hn : n = name
    · by_cases h : other = name
      · simp [write, read, hn, h]
      · simp [write, read, hn, h, Ne.symm h]
    · by_cases h : n = other
      · simp [write, read, h, h ▸ hn]
      · simp [write, read, hn, h, ih]

theorem get?_set (s : Slots α) (name other : String) (value : α) :
    (s.set name value).get? other = if other = name then some value else s.get? other :=
  read_write name other value s.entries

theorem get?_set_self (s : Slots α) (name : String) (value : α) :
    (s.set name value).get? name = some value := by
  simp [get?_set]

theorem get?_set_of_ne (s : Slots α) {name other : String} (value : α) (h : other ≠ name) :
    (s.set name value).get? other = s.get? other := by
  simp [get?_set, h]

theorem contains_set (s : Slots α) (name other : String) (value : α) :
    (s.set name value).contains other = (other = name || s.contains other) := by
  by_cases h : other = name <;> simp [contains, get?_set, h]

end Slots

end ScriptLang
