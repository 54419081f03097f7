import ScriptLang.Proofs.Program.WellFormed
import ScriptLang.Proofs.Scoping.Events

/-!
# Locals and references by position

The events of a program are counted, and a scope is known by the event that begins it. The list of
events alone says which scopes are open before an event (`Event.openAt`), which declarations are in
the same scope (`Event.Declares`), what a name of a scope stands for (`Event.Names`), and to which
declaration a variable that is read or assigned belongs (`Event.Resolves`): in the innermost scope
that has the name, to the last local of the name. The only exception is a variable that is read in
the initializer of a local of its name, for which that local does not count.
-/

namespace ScriptLang.Scoping.Event

/-! ## Scopes -/

/-- The events that began the scopes around event `k`, the innermost first. -/
def openAt (es : List Event) : Nat → List Nat
  | 0 => []
  | k + 1 =>
    match es[k]? with
    | some .opens | some (.opensFor _ _) => k :: openAt es k
    | some .closes => (openAt es k).tail
    | _ => openAt es k

/-- Whether the event begins or ends a scope. -/
def movesScope : Event → Bool
  | .opens | .opensFor _ _ | .closes => true
  | _ => false

section Scopes

variable {es : List Event} {k s : Nat} {e : Event}

theorem openAt_opens (h : es[k]? = some .opens) : openAt es (k + 1) = k :: openAt es k := by
  simp [openAt, h]

theorem openAt_opensFor {special : String} {name : Lexeme}
    (h : es[k]? = some (.opensFor special name)) : openAt es (k + 1) = k :: openAt es k := by
  simp [openAt, h]

theorem openAt_closes (h : es[k]? = some .closes) : openAt es (k + 1) = (openAt es k).tail := by
  simp [openAt, h]

theorem openAt_of_stays (h : es[k]? = some e) (hstays : e.movesScope = false) :
    openAt es (k + 1) = openAt es k := by
  cases e with
  | opens => cases hstays
  | opensFor special name => cases hstays
  | closes => cases hstays
  | _ => simp [openAt, h]

theorem openAt_cases (es : List Event) (k : Nat) :
    openAt es (k + 1) = k :: openAt es k ∨
      (es[k]? = some .closes ∧ openAt es (k + 1) = (openAt es k).tail) ∨
      openAt es (k + 1) = openAt es k := by
  rw [openAt]
  split
  · exact .inl rfl
  · exact .inl rfl
  · rename_i h
    exact .inr (.inl ⟨h, rfl⟩)
  · exact .inr (.inr rfl)

theorem lt_of_mem_openAt (h : s ∈ openAt es k) : s < k := by
  induction k with
  | zero => cases h
  | succ k ih =>
    rcases openAt_cases es k with hopen | ⟨-, hopen⟩ | hopen <;> rw [hopen] at h
    · rcases List.mem_cons.mp h with rfl | h
      · exact Nat.lt_succ_self _
      · exact Nat.lt_succ_of_lt (ih h)
    · exact Nat.lt_succ_of_lt (ih (List.mem_of_mem_tail h))
    · exact Nat.lt_succ_of_lt (ih h)

theorem nodup_openAt (es : List Event) (k : Nat) : (openAt es k).Nodup := by
  induction k with
  | zero => exact .nil
  | succ k ih =>
    rcases openAt_cases es k with hopen | ⟨-, hopen⟩ | hopen <;> rw [hopen]
    · exact List.nodup_cons.mpr ⟨fun hmem => Nat.lt_irrefl k (lt_of_mem_openAt hmem), ih⟩
    · exact ih.tail
    · exact ih

end Scopes

/-! ## Declarations -/

/-- Event `i` declares the word in the scope that event `s` begins. -/
structure Declares (es : List Event) (i : Nat) (word : Lexeme) (s : Nat) : Prop where
  event : es[i]? = some (.declares word)
  scope : (openAt es i).head? = some s

/-- Event `i` defines the word in the scope that event `s` begins. -/
structure Defines (es : List Event) (i : Nat) (word : Lexeme) (s : Nat) : Prop where
  event : es[i]? = some (.defines word)
  scope : (openAt es i).head? = some s

/-- Event `i` declares a name that an earlier event declares in the same scope. -/
def Repeats (es : List Event) (i : Nat) : Prop :=
  ∃ j word word' s, j < i ∧ Declares es j word' s ∧ Declares es i word s ∧ word'.text = word.text

/-- Before event `k`, the name stands for the local declared by event `i`, in the scope that event
`s` begins. -/
structure Names (es : List Event) (k s : Nat) (x : String) (i : Nat) : Prop where
  before : i < k
  declares : ∃ word, Declares es i word s ∧ word.text = x
  last : ∀ j word, i < j → j < k → Declares es j word s → word.text ≠ x

/-- Before event `k`, the name of the local declared by event `i` is defined. -/
def Ready (es : List Event) (k s : Nat) (x : String) (i : Nat) : Prop :=
  ∃ j word, i < j ∧ j < k ∧ Defines es j word s ∧ word.text = x

section Declarations

variable {es : List Event} {k s s' i i' : Nat} {x : String} {word word' : Lexeme}

theorem Declares.event_eq {e : Event} (h : Declares es i word s) (he : es[i]? = some e) :
    e = .declares word := Option.some.inj (he.symm.trans h.event)

theorem Defines.event_eq {e : Event} (h : Defines es i word s) (he : es[i]? = some e) :
    e = .defines word := Option.some.inj (he.symm.trans h.event)

theorem Declares.mem (h : Declares es i word s) : s ∈ openAt es i :=
  List.mem_of_mem_head? h.scope

theorem Declares.word_eq (h : Declares es i word s) (h' : Declares es i word' s') :
    word' = word := by
  cases h'.event_eq h.event
  rfl

theorem Declares.scope_eq (h : Declares es i word s) (h' : Declares es i word' s') : s' = s := by
  have hscope := h'.scope
  rw [h.scope] at hscope
  cases hscope
  rfl

theorem Repeats.event (h : Repeats es i) : ∃ word, es[i]? = some (.declares word) := by
  obtain ⟨j, word, word', s, -, -, hword, -⟩ := h
  exact ⟨word, hword.event⟩

theorem Repeats.lt_length (h : Repeats es i) : i < es.length := by
  obtain ⟨word, hword⟩ := h.event
  exact (List.getElem?_eq_some_iff.mp hword).1

namespace Names

theorem eq (h : Names es k s x i) (h' : Names es k s x i') : i' = i := by
  obtain ⟨word, hword, hx⟩ := h.declares
  obtain ⟨word', hword', hx'⟩ := h'.declares
  rcases Nat.lt_trichotomy i i' with hlt | heq | hlt
  · exact absurd hx' (h.last i' word' hlt h'.before hword')
  · exact heq.symm
  · exact absurd hx (h'.last i word hlt h.before hword)

theorem text_eq (h : Names es k s x i) (hword : Declares es i word s') : word.text = x := by
  obtain ⟨word', hword', hx⟩ := h.declares
  rw [hword'.word_eq hword]
  exact hx

theorem scope_eq (h : Names es k s x i) (hword : Declares es i word s') : s' = s := by
  obtain ⟨word', hword', -⟩ := h.declares
  exact hword'.scope_eq hword

end Names

/-- An event that does not declare the name in the scope leaves what the name stands for. -/
theorem names_succ (hother : ∀ word, Declares es k word s → word.text ≠ x) :
    Names es (k + 1) s x i ↔ Names es k s x i := by
  constructor
  · intro h
    obtain ⟨word, hword, hx⟩ := h.declares
    have hne : i ≠ k := by
      rintro rfl
      exact hother word hword hx
    exact ⟨Nat.lt_of_le_of_ne (Nat.le_of_lt_succ h.before) hne, h.declares,
      fun j word' hj hjk => h.last j word' hj (Nat.lt_succ_of_lt hjk)⟩
  · intro h
    refine ⟨Nat.lt_succ_of_lt h.before, h.declares, fun j word' hj hjk hword' => ?_⟩
    rcases Nat.lt_succ_iff_lt_or_eq.mp hjk with hjk | rfl
    · exact h.last j word' hj hjk hword'
    · exact hother word' hword'

/-- A declared name stands for the new local. -/
theorem Declares.names (h : Declares es k word s) : Names es (k + 1) s word.text k :=
  ⟨Nat.lt_succ_self k, ⟨word, h, rfl⟩, fun _ _ hj hjk => absurd hjk (Nat.not_lt.mpr hj)⟩

/-- A name that was declared in a scope stands for something in it. -/
theorem exists_names (hi : i < k) (h : Declares es i word s) :
    ∃ j, Names es k s word.text j := by
  induction k with
  | zero => cases hi
  | succ k ih =>
    by_cases hnew : ∃ word', Declares es k word' s ∧ word'.text = word.text
    · obtain ⟨word', hword', hx⟩ := hnew
      exact ⟨k, hx ▸ hword'.names⟩
    · have hother : ∀ word', Declares es k word' s → word'.text ≠ word.text :=
        fun word' hword' hx => hnew ⟨word', hword', hx⟩
      have hne : i ≠ k := by
        rintro rfl
        exact hother word h rfl
      obtain ⟨j, hj⟩ := ih (Nat.lt_of_le_of_ne (Nat.le_of_lt_succ hi) hne)
      exact ⟨j, (names_succ hother).mpr hj⟩

/-- Events repeat names that stand for something in their scopes. -/
theorem Declares.repeats_iff (h : Declares es k word s) :
    Repeats es k ↔ ∃ i, Names es k s word.text i := by
  constructor
  · rintro ⟨j, word₁, word', s₁, hj, hword', hword₁, htext⟩
    cases h.word_eq hword₁
    cases h.scope_eq hword₁
    rw [← htext]
    exact exists_names hj hword'
  · rintro ⟨i, hi⟩
    obtain ⟨word', hword', hx⟩ := hi.declares
    exact ⟨i, word, word', s, hi.before, hword', h, hx⟩

/-- An event that does not define the name in the scope leaves it as it is. -/
theorem ready_succ (hother : ∀ word, Defines es k word s → word.text ≠ x) :
    Ready es (k + 1) s x i ↔ Ready es k s x i := by
  constructor
  · rintro ⟨j, word, hij, hjk, hword, hx⟩
    rcases Nat.lt_succ_iff_lt_or_eq.mp hjk with hjk | rfl
    · exact ⟨j, word, hij, hjk, hword, hx⟩
    · exact absurd hx (hother word hword)
  · rintro ⟨j, word, hij, hjk, hword, hx⟩
    exact ⟨j, word, hij, Nat.lt_succ_of_lt hjk, hword, hx⟩

/-- A local that was just declared is not defined yet. -/
theorem not_ready_self : ¬ Ready es (k + 1) s x k := by
  rintro ⟨j, word, hkj, hjk, -⟩
  exact Nat.lt_irrefl k (Nat.lt_of_lt_of_le hkj (Nat.le_of_lt_succ hjk))

end Declarations

/-! ## References -/

/-- The variable that the event reads or assigns. -/
def looksUp? : Event → Option Ref
  | .reads ref | .assigns ref => some ref
  | _ => none

/-- In the scope that event `s` begins, the variable that event `k` reads or assigns can mean the
local declared by event `i`. The innermost scope is left out by a variable that is read in the
initializer of a local of its name. -/
inductive Means (es : List Event) (k s i : Nat) : Prop
  | read {ref : Ref} (event : es[k]? = some (.reads ref)) (names : Names es k s ref.word.text i)
    (ready : (openAt es k).head? = some s → Ready es k s ref.word.text i)
  | assigned {ref : Ref} (event : es[k]? = some (.assigns ref))
    (names : Names es k s ref.word.text i)

/-- The variable that event `k` reads or assigns is the local declared by event `i`, so many scopes
further out: in no scope inside it is there one that the variable can mean. -/
structure Resolves (es : List Event) (k i hops : Nat) : Prop where
  means : ∃ s, (openAt es k)[hops]? = some s ∧ Means es k s i
  nearest : ∀ h s j, h < hops → (openAt es k)[h]? = some s → ¬ Means es k s j

/-- Some variable that is read or assigned before event `k` is the local declared by event `i`. -/
def Used (es : List Event) (k i : Nat) : Prop := ∃ j hops, j < k ∧ Resolves es j i hops

section References

variable {es : List Event} {k s i i' hops hops' : Nat} {word : Lexeme} {e : Event} {ref : Ref}

theorem movesScope_of_looksUp (href : e.looksUp? = some ref) : e.movesScope = false := by
  cases e <;> first | rfl | cases href

theorem not_declares_of_looksUp (he : es[k]? = some e) (href : e.looksUp? = some ref) :
    ¬ Declares es k word s := by
  intro h
  rw [h.event_eq he] at href
  cases href

theorem not_defines_of_looksUp (he : es[k]? = some e) (href : e.looksUp? = some ref) :
    ¬ Defines es k word s := by
  intro h
  rw [h.event_eq he] at href
  cases href

theorem Means.looksUp (h : Means es k s i) (he : es[k]? = some e) :
    ∃ ref, e.looksUp? = some ref ∧ Names es k s ref.word.text i := by
  cases h with
  | read hevent hnames =>
    cases he.symm.trans hevent
    exact ⟨_, rfl, hnames⟩
  | assigned hevent hnames =>
    cases he.symm.trans hevent
    exact ⟨_, rfl, hnames⟩

theorem Means.names_looksUp (h : Means es k s i) (he : es[k]? = some e)
    (href : e.looksUp? = some ref) : Names es k s ref.word.text i := by
  obtain ⟨ref', href', hnames⟩ := h.looksUp he
  cases href.symm.trans href'
  exact hnames

theorem Means.names_read (h : Means es k s i) (he : es[k]? = some (.reads ref)) :
    Names es k s ref.word.text i ∧
      ((openAt es k).head? = some s → Ready es k s ref.word.text i) := by
  cases h with
  | read hevent hnames hready =>
    cases he.symm.trans hevent
    exact ⟨hnames, hready⟩
  | assigned hevent => cases he.symm.trans hevent

theorem Means.names (h : Means es k s i) : ∃ x, Names es k s x i := by
  cases h with
  | read _ hnames => exact ⟨_, hnames⟩
  | assigned _ hnames => exact ⟨_, hnames⟩

theorem not_resolves_of_other (he : es[k]? = some e) (hother : e.looksUp? = none) :
    ¬ Resolves es k i hops := by
  intro h
  obtain ⟨s, -, hmeans⟩ := h.means
  obtain ⟨ref, href, -⟩ := hmeans.looksUp he
  cases hother.symm.trans href

namespace Resolves

theorem before (h : Resolves es k i hops) : i < k := by
  obtain ⟨s, -, hmeans⟩ := h.means
  obtain ⟨x, hnames⟩ := hmeans.names
  exact hnames.before

theorem lt_length (h : Resolves es k i hops) : k < es.length := by
  obtain ⟨s, -, hmeans⟩ := h.means
  cases hmeans with
  | read hevent => exact (List.getElem?_eq_some_iff.mp hevent).1
  | assigned hevent => exact (List.getElem?_eq_some_iff.mp hevent).1

/-- The scope of the local is open. -/
theorem scope (h : Resolves es k i hops) (hword : Declares es i word s) :
    (openAt es k)[hops]? = some s := by
  obtain ⟨s', hs', hmeans⟩ := h.means
  obtain ⟨x, hnames⟩ := hmeans.names
  rw [hnames.scope_eq hword]
  exact hs'

theorem hops_eq (h : Resolves es k i hops) (h' : Resolves es k i' hops') : hops' = hops := by
  obtain ⟨s, hs, hmeans⟩ := h.means
  obtain ⟨s', hs', hmeans'⟩ := h'.means
  rcases Nat.lt_trichotomy hops hops' with hlt | heq | hlt
  · exact absurd hmeans (h'.nearest hops s i hlt hs)
  · exact heq.symm
  · exact absurd hmeans' (h.nearest hops' s' i' hlt hs')

end Resolves

theorem used_succ : Used es (k + 1) i ↔ Used es k i ∨ ∃ hops, Resolves es k i hops := by
  constructor
  · rintro ⟨j, hops, hj, h⟩
    rcases Nat.lt_succ_iff_lt_or_eq.mp hj with hj | rfl
    · exact .inl ⟨j, hops, hj, h⟩
    · exact .inr ⟨hops, h⟩
  · rintro (⟨j, hops, hj, h⟩ | ⟨hops, h⟩)
    · exact ⟨j, hops, Nat.lt_succ_of_lt hj, h⟩
    · exact ⟨k, hops, Nat.lt_succ_self k, h⟩

/-- No variable is a local that is not declared yet. -/
theorem not_used_self : ¬ Used es (k + 1) k := by
  rintro ⟨j, hops, hj, h⟩
  exact Nat.lt_irrefl k (Nat.lt_of_lt_of_le h.before (Nat.le_of_lt_succ hj))

end References

end ScriptLang.Scoping.Event
