import Mathlib.Data.Set.Card
import ScriptLang.Grammar.Program
import ScriptLang.Proofs.Scoping.Tracking
import ScriptLang.Proofs.Sorting
import ScriptLang.Source.Tokens

/-!
# The order numbers of locals

A local is numbered by the size of its scope when it was declared. A declaration that repeats a name
replaces the local of the name and leaves the size as it is, so what is declared next gets the same
number again. By position, the number is how many names the scope has before the declaration
(`Event.width`): it never gets less from one declaration to a later one, and it stays the same over
just those declarations that repeat names (`Event.width_eq_iff`). Locals with the same number are
reported in the order in which the table of the scope lists them, whatever that is.
-/

namespace ScriptLang.Scoping

open Event (AllProper Declares Names Repeats openAt)

/-! ## The names of a scope by position -/

namespace Event

/-- The names that the scope begun by event `s` has before event `k`: the names that were declared
in it, and `this` or `super` if the scope is for one of them. -/
def namesOf (es : List Event) (k s : Nat) : Set String :=
  {x | (∃ name, es[s]? = some (.opensFor x name)) ∨ ∃ i, Names es k s x i}

/-- How many names the scope begun by event `s` has before event `k`. -/
noncomputable def width (es : List Event) (k s : Nat) : Nat := (namesOf es k s).ncard

section Names

variable {es : List Event} {i j k s : Nat} {word : Lexeme}

theorem namesOf_declares (h : Declares es k word s) :
    namesOf es (k + 1) s = insert word.text (namesOf es k s) := by
  ext x
  by_cases hx : x = word.text
  · subst hx
    simp only [Set.mem_insert_iff, true_or, iff_true]
    exact .inr ⟨k, h.names⟩
  · have hother : ∀ word', Declares es k word' s → word'.text ≠ x := by
      intro word' hword'
      rw [h.word_eq hword']
      exact Ne.symm hx
    simp only [Set.mem_insert_iff, hx, false_or]
    exact or_congr_right (exists_congr fun _ => names_succ hother)

theorem namesOf_other (h : ∀ word, ¬ Declares es k word s) :
    namesOf es (k + 1) s = namesOf es k s := by
  ext x
  exact or_congr_right (exists_congr fun _ => names_succ fun word hword => absurd hword (h word))

theorem finite_namesOf (es : List Event) (k s : Nat) : (namesOf es k s).Finite := by
  induction k with
  | zero =>
    -- No name is declared yet, so there is at most the one that the scope is for.
    have hnone : ∀ x i, ¬ Names es 0 s x i := fun x i hi => Nat.not_lt_zero i hi.before
    have hsub : (namesOf es 0 s).Subsingleton := by
      rintro x (⟨name, hx⟩ | ⟨i, hi⟩) y (⟨name', hy⟩ | ⟨j, hj⟩)
      · cases hx.symm.trans hy
        rfl
      · exact absurd hj (hnone y j)
      · exact absurd hi (hnone x i)
      · exact absurd hi (hnone x i)
    exact hsub.finite
  | succ k ih =>
    by_cases h : ∃ word, Declares es k word s
    · obtain ⟨word, hword⟩ := h
      rw [namesOf_declares hword]
      exact ih.insert word.text
    · rw [namesOf_other fun word hword => h ⟨word, hword⟩]
      exact ih

theorem namesOf_subset_succ : namesOf es k s ⊆ namesOf es (k + 1) s := by
  by_cases h : ∃ word, Declares es k word s
  · obtain ⟨word, hword⟩ := h
    rw [namesOf_declares hword]
    exact Set.subset_insert ..
  · rw [namesOf_other fun word hword => h ⟨word, hword⟩]

/-- A scope never gets narrower. -/
theorem width_le (h : i ≤ j) : width es i s ≤ width es j s := by
  induction h with
  | refl => exact Nat.le_refl _
  | step _ ih => exact Nat.le_trans ih (Set.ncard_le_ncard namesOf_subset_succ (finite_namesOf ..))

/-- A scope has a name that is declared in it already if and only if the declaration repeats it. -/
theorem Declares.mem_namesOf_iff (h : Declares es k word s) (hproper : AllProper es) :
    word.text ∈ namesOf es k s ↔ Repeats es k := by
  rw [h.repeats_iff]
  constructor
  · rintro (⟨name, hspecial⟩ | hnames)
    · have hfree : IsFree word.text := hproper _ (List.mem_of_getElem? h.event)
      have hkeyword : ¬ IsFree word.text := hproper _ (List.mem_of_getElem? hspecial)
      exact absurd hfree hkeyword
    · exact hnames
  · exact .inr

/-- A declaration of a new name makes its scope wider. -/
theorem Declares.width_lt (h : Declares es k word s) (hproper : AllProper es)
    (hnew : ¬ Repeats es k) : width es k s < width es (k + 1) s := by
  have hmem : word.text ∉ namesOf es k s := by rwa [h.mem_namesOf_iff hproper]
  unfold width
  rw [namesOf_declares h, Set.ncard_insert_of_notMem hmem (finite_namesOf ..)]
  exact Nat.lt_succ_self _

/-- Whatever is no declaration of a new name leaves the width of the scope. -/
theorem width_succ_eq (hproper : AllProper es)
    (h : ∀ word, Declares es k word s → Repeats es k) : width es (k + 1) s = width es k s := by
  unfold width
  by_cases hword : ∃ word, Declares es k word s
  · obtain ⟨word, hword⟩ := hword
    have hmem := (hword.mem_namesOf_iff hproper).mpr (h word hword)
    rw [namesOf_declares hword, Set.insert_eq_of_mem hmem]
  · rw [namesOf_other fun word hdeclares => hword ⟨word, hdeclares⟩]

/-- **A scope stays as wide as it is over just those declarations that repeat names.** -/
theorem width_eq_iff (hproper : AllProper es) (hij : i ≤ j) : width es i s = width es j s ↔
    ∀ m word, i ≤ m → m < j → Declares es m word s → Repeats es m := by
  constructor
  · intro heq m word hm hmj hword
    by_contra hnew
    have hwider := hword.width_lt hproper hnew
    have hbefore : width es i s ≤ width es m s := width_le hm
    have hafter : width es (m + 1) s ≤ width es j s := width_le hmj
    omega
  · intro h
    induction hij with
    | refl => rfl
    | @step j hij ih =>
      have hlast : width es (j + 1) s = width es j s :=
        width_succ_eq hproper fun word hword => h j word hij (Nat.lt_succ_self j) hword
      rw [hlast]
      exact ih fun m word hm hmj => h m word hm (Nat.lt_succ_of_lt hmj)

end Names

end Event

/-! ## The numbers that the walk gives -/

/-- Both scopes have the same names, and the locals of a name have the same number. -/
def SameNumbers (scope scope' : Scope) : Prop :=
  scope'.names = scope.names ∧
    ∀ x, (scope'.get? x).map Local.order = (scope.get? x).map Local.order

theorem SameNumbers.refl (scope : Scope) : SameNumbers scope scope := ⟨rfl, fun _ => rfl⟩

/-- What changes a local but not its number leaves all numbers. -/
theorem SameNumbers.modify (scope : Scope) (name : String) {f : Local → Local}
    (hf : ∀ l, (f l).order = l.order) : SameNumbers scope (scope.modify name f) := by
  refine ⟨Slots.names_modify scope name f, fun x => ?_⟩
  rw [Slots.get?_modify]
  split
  · rw [Option.map_map]
    exact Option.map_congr fun l _ => hf l
  · rfl

namespace Resolution

theorem sameNumbers_modify (scopes : List Scope) (n : Nat) (name : String) {f : Local → Local}
    (hf : ∀ l, (f l).order = l.order) :
    List.Forall₂ SameNumbers scopes (scopes.modify n (·.modify name f)) := by
  have hall : List.Forall₂ Eq scopes scopes := List.forall₂_eq_eq_eq ▸ rfl
  refine forall₂_modify hall (fun scope scope' _ heq => ?_) fun _ scope scope' _ _ heq => ?_
  · subst heq
    exact .modify scope name hf
  · subst heq
    exact .refl scope

theorem sameNumbers_refl (scopes : List Scope) : List.Forall₂ SameNumbers scopes scopes :=
  List.forall₂_same.mpr fun scope _ => .refl scope

theorem sameNumbers_bound (r : Resolution) (ref : Ref) (hops : Nat) :
    List.Forall₂ SameNumbers r.scopes (r.bound ref hops).scopes :=
  sameNumbers_modify r.scopes hops ref.word.text fun _ => rfl

theorem sameNumbers_refer (r : Resolution) (ref : Ref) :
    List.Forall₂ SameNumbers r.scopes (r.refer ref).scopes := by
  rw [refer_eq]
  cases r.refers? ref with
  | none => exact sameNumbers_refl r.scopes
  | some hops => exact sameNumbers_bound r ref hops

theorem sameNumbers_read (r : Resolution) (ref : Ref) :
    List.Forall₂ SameNumbers r.scopes (r.read ref).scopes := by
  rw [read_eq]
  cases r.reads? ref with
  | none =>
    dsimp only
    split
    · exact sameNumbers_refl r.scopes
    · exact sameNumbers_refl r.scopes
  | some hops => exact sameNumbers_bound r ref hops

/-- A step that neither moves between scopes nor declares a name leaves all numbers. -/
theorem sameNumbers_take (r : Resolution) {e : Event} (hstays : e.movesScope = false)
    (hdeclares : ∀ word, e ≠ .declares word) :
    List.Forall₂ SameNumbers r.scopes (r.take e).scopes := by
  cases e with
  | opens => cases hstays
  | opensFor special name => cases hstays
  | closes => cases hstays
  | declares word => exact absurd rfl (hdeclares word)
  | defines word =>
    have hscopes := scopes_define r word
    unfold take
    rw [hscopes]
    exact sameNumbers_modify r.scopes 0 word.text fun _ => rfl
  | reads ref => exact sameNumbers_read r ref
  | assigns ref => exact sameNumbers_refer r ref
  | stands path node =>
    unfold take
    dsimp only
    split
    · rename_i ref _
      exact sameNumbers_refer { r with found := r.found ++ (node.fault? path).toList } ref
    · exact sameNumbers_refl r.scopes

end Resolution

/-! ## Scopes with their counts -/

/-- The scope has the names of the one that event `s` begins, before event `k`, and each local has
the number of names from before its declaration. -/
structure Counted (es : List Event) (k s : Nat) (scope : Scope) : Prop where
  distinct : scope.names.Nodup
  names : ∀ x, x ∈ scope.names ↔ x ∈ Event.namesOf es k s
  orders : ∀ x l i, scope.get? x = some l → Names es k s x i → l.order = Event.width es i s

namespace Counted

variable {es : List Event} {k s : Nat} {scope scope' : Scope}

theorem size_eq (h : Counted es k s scope) : scope.size = Event.width es k s := by
  have hset : Event.namesOf es k s = ↑scope.names.toFinset := by
    ext x
    simp [h.names]
  have hlength : scope.size = scope.names.length := (List.length_map _).symm
  unfold Event.width
  rw [hset, Set.ncard_coe_finset, List.toFinset_card_of_nodup h.distinct, hlength]

/-- An event that declares nothing in the scope, and leaves the numbers. -/
theorem keep (h : Counted es k s scope) (hsame : SameNumbers scope scope')
    (hdeclares : ∀ word, ¬ Declares es k word s) : Counted es (k + 1) s scope' where
  distinct := by
    rw [hsame.1]
    exact h.distinct
  names x := by
    rw [hsame.1, Event.namesOf_other hdeclares]
    exact h.names x
  orders x l' i hl' hi := by
    have hnumber := hsame.2 x
    rw [hl'] at hnumber
    obtain ⟨l, hl, horder⟩ := Option.map_eq_some_iff.mp hnumber.symm
    rw [Event.names_succ fun word hword => absurd hword (hdeclares word)] at hi
    rw [← horder]
    exact h.orders x l i hl hi

/-- A declaration numbers the new local by the size of the scope. -/
theorem declare {word : Lexeme} (h : Counted es k s scope) (hword : Declares es k word s) :
    Counted es (k + 1) s (scope.set word.text ⟨word, false, false, scope.size⟩) where
  distinct := Slots.nodup_names_set h.distinct
  names x := by
    have hold := h.names x
    rw [Slots.mem_names_iff_contains] at hold ⊢
    rw [Event.namesOf_declares hword, Slots.contains_set, Set.mem_insert_iff, ← hold]
    simp
  orders x l i hl hi := by
    rw [Slots.get?_set] at hl
    by_cases hx : x = word.text
    · subst hx
      rw [if_pos rfl] at hl
      cases hl
      rw [hword.names.eq hi]
      exact h.size_eq
    · rw [if_neg hx] at hl
      have hother : ∀ word', Declares es k word' s → word'.text ≠ x := by
        intro word' hword'
        rw [hword.word_eq hword']
        exact Ne.symm hx
      exact h.orders x l i hl ((Event.names_succ hother).mp hi)

/-- The scope of a block or a routine has no names at first. -/
theorem empty (he : es[k]? = some .opens) : Counted es (k + 1) k .empty where
  distinct := .nil
  names x := by
    have hnone : x ∉ Event.namesOf es (k + 1) k := by
      rintro (⟨name, hspecial⟩ | ⟨i, hi⟩)
      · cases he.symm.trans hspecial
      · exact Event.not_names_new hi
    simpa [Slots.names, Slots.empty] using hnone
  orders _ _ _ hl := by cases hl

/-- The scope of `this` or `super` has that name only. -/
theorem implicitly {special : String} {word : Lexeme}
    (he : es[k]? = some (.opensFor special word)) :
    Counted es (k + 1) k (Resolution.implicitly special word) where
  distinct := List.pairwise_singleton _ special
  names x := by
    have hone : x ∈ Event.namesOf es (k + 1) k ↔ x = special := by
      constructor
      · rintro (⟨name, hspecial⟩ | ⟨i, hi⟩)
        · cases he.symm.trans hspecial
          rfl
        · exact absurd hi Event.not_names_new
      · rintro rfl
        exact .inl ⟨word, he⟩
    rw [hone]
    exact List.mem_singleton
  orders _ _ _ _ hi := absurd hi Event.not_names_new

end Counted

namespace Resolution

/-- All scopes of the walk are counted. -/
def AllCounted (es : List Event) (k : Nat) (r : Resolution) : Prop :=
  List.Forall₂ (Counted es k) (openAt es k) r.scopes

variable {es : List Event} {k : Nat} {e : Event} {r : Resolution}

/-- A step that neither moves between scopes nor declares a name keeps all scopes counted. -/
theorem allCounted_stays (h : AllCounted es k r) (he : es[k]? = some e)
    (hstays : e.movesScope = false) (hdeclares : ∀ word, e ≠ .declares word) :
    AllCounted es (k + 1) (r.take e) := by
  have hsame := sameNumbers_take r hstays hdeclares
  unfold AllCounted at h ⊢
  rw [Event.openAt_of_stays he hstays]
  generalize openAt es k = begun at h
  generalize (r.take e).scopes = scopes' at hsame
  generalize r.scopes = scopes at h hsame
  induction h generalizing scopes' with
  | nil =>
    cases hsame
    exact .nil
  | cons hcounted _ ih =>
    cases hsame with
    | cons hfirst hrest =>
      have hkeep := hcounted.keep hfirst fun word hword => hdeclares word (hword.event_eq he)
      exact .cons hkeep (ih _ hrest)

/-- **A step of the walk keeps all scopes counted.** -/
theorem allCounted_take (h : AllCounted es k r) (he : es[k]? = some e) :
    AllCounted es (k + 1) (r.take e) := by
  have hquiet (hdeclares : ∀ word, e ≠ .declares word) :
      List.Forall₂ (Counted es (k + 1)) (openAt es k) r.scopes :=
    h.imp fun s scope hcounted => hcounted.keep (.refl scope)
      fun word hword => hdeclares word (hword.event_eq he)
  cases e with
  | opens =>
    unfold AllCounted
    rw [Event.openAt_opens he]
    exact .cons (.empty he) (hquiet nofun)
  | opensFor special name =>
    unfold AllCounted
    rw [Event.openAt_opensFor he]
    exact .cons (.implicitly he) (hquiet nofun)
  | closes =>
    have hscopes : (r.take .closes).scopes = r.scopes.tail := scopes_leave r
    unfold AllCounted
    rw [Event.openAt_closes he, hscopes]
    refine forall₂_of_getElem? fun n => ?_
    rw [List.getElem?_tail, List.getElem?_tail]
    exact forall₂_getElem? (hquiet nofun) (n + 1)
  | declares word =>
    have hscopes := scopes_declare r word
    unfold AllCounted take
    rw [Event.openAt_of_stays he rfl, hscopes]
    refine forall₂_modify h (fun s scope hs hcounted => ?_) fun n s scope hn hs hcounted => ?_
    · exact hcounted.declare ⟨he, by rwa [List.head?_eq_getElem?]⟩
    · exact hcounted.keep (.refl scope) fun word' hword' => not_innermost hn hs hword'.scope
  | _ => exact allCounted_stays h he rfl nofun

/-- All scopes of the walk are counted before each event. -/
theorem allCounted_before (globals : List String) (hk : k ≤ es.length) :
    AllCounted es k (before globals es k) := by
  induction k with
  | zero => exact .nil
  | succ k ih =>
    have he : es[k]? = some es[k] := List.getElem?_eq_getElem hk
    rw [before_succ he]
    exact allCounted_take (ih (Nat.le_of_succ_le hk)) he

/-! ## The order of reports -/

/-- The locals that nothing refers to, in the order of their reports, if the table of their scope
lists its values like this. For the values as they are in the table, these are the ones of
`unused`. -/
def unusedAmong (values : List Local) : List Local :=
  sortByNumber Local.order (values.filter (!·.used))

end Resolution

/-- The first local was declared before the second one, in the scope that event `s` begins. -/
def Precedes (es : List Event) (k s : Nat) (l l' : Local) : Prop :=
  ∃ i j, Names es k s l.word.text i ∧ Names es k s l'.word.text j ∧ i < j

section Reports

open Resolution

variable {es : List Event} {k s i j : Nat} {scope : Scope} {l l' : Local}

theorem Precedes.asymm (h : Precedes es k s l l') : ¬ Precedes es k s l' l := by
  obtain ⟨i, j, hi, hj, hij⟩ := h
  rintro ⟨j', i', hj', hi', hji⟩
  have hsame := hi.eq hi'
  have hsame' := hj.eq hj'
  omega

/-- A local that nothing refers to is listed under the name of its word, which stands for it. -/
theorem Tracks.names_entry (h : Tracks es k s scope) {x : String} (hmem : (x, l) ∈ scope.entries)
    (hunused : l.used = false) : l.word.text = x ∧ ∃ i, Names es k s x i := by
  have hget := Slots.get?_of_mem h.distinct hmem
  have hfree : IsFree x := by
    by_contra hkeyword
    exact Bool.false_ne_true (hunused.symm.trans (h.keywords x l hkeyword hget))
  have hname := h.locals x hfree
  rw [hget] at hname
  cases hname with
  | some hnames hdeclares => exact ⟨hnames.text_eq hdeclares, _, hnames⟩

theorem Tracks.names_unused (h : Tracks es k s scope) (hl : l ∈ scope.entries.map (·.2))
    (hunused : l.used = false) :
    scope.get? l.word.text = some l ∧ ∃ i, Names es k s l.word.text i := by
  obtain ⟨⟨x, l⟩, hmem, rfl⟩ := List.mem_map.mp hl
  obtain ⟨htext, hnames⟩ := h.names_entry hmem hunused
  dsimp only
  rw [htext]
  exact ⟨Slots.get?_of_mem h.distinct hmem, hnames⟩

/-- Different locals that nothing refers to were declared one before the other. -/
theorem Tracks.precedes_or (h : Tracks es k s scope) (hl : l ∈ scope.entries.map (·.2))
    (hl' : l' ∈ scope.entries.map (·.2)) (hunused : l.used = false) (hunused' : l'.used = false)
    (hne : l ≠ l') : Precedes es k s l l' ∨ Precedes es k s l' l := by
  obtain ⟨hget, i, hi⟩ := h.names_unused hl hunused
  obtain ⟨hget', j, hj⟩ := h.names_unused hl' hunused'
  rcases Nat.lt_trichotomy i j with hij | hij | hij
  · exact .inl ⟨i, j, hi, hj, hij⟩
  · -- One declaration has one word.
    subst hij
    obtain ⟨word, hword, htext⟩ := hi.declares
    have htext' := hj.text_eq hword
    rw [← htext, htext', hget'] at hget
    cases hget
    exact absurd rfl hne
  · exact .inr ⟨j, i, hj, hi, hij⟩

/-- Numbers never decrease from one declaration to a later one. -/
theorem Counted.order_le (h : Counted es k s scope) (htracks : Tracks es k s scope)
    (hl : l ∈ scope.entries.map (·.2)) (hl' : l' ∈ scope.entries.map (·.2))
    (hunused : l.used = false) (hunused' : l'.used = false) (hbefore : Precedes es k s l l') :
    l.order ≤ l'.order := by
  obtain ⟨i, j, hi, hj, hij⟩ := hbefore
  rw [h.orders _ l i (htracks.names_unused hl hunused).1 hi,
    h.orders _ l' j (htracks.names_unused hl' hunused').1 hj]
  exact Event.width_le (Nat.le_of_lt hij)

/-- Where each declaration of the scope is of a new name, numbers grow. -/
theorem Counted.order_lt (h : Counted es k s scope) (htracks : Tracks es k s scope)
    (hproper : AllProper es) (hnew : ∀ m word, m < k → Declares es m word s → ¬ Repeats es m)
    (hl : l ∈ scope.entries.map (·.2)) (hl' : l' ∈ scope.entries.map (·.2))
    (hunused : l.used = false) (hunused' : l'.used = false) (hbefore : Precedes es k s l l') :
    l.order < l'.order := by
  have hle := h.order_le htracks hl hl' hunused hunused' hbefore
  obtain ⟨i, j, hi, hj, hij⟩ := hbefore
  obtain ⟨word, hword, -⟩ := hi.declares
  refine Nat.lt_of_le_of_ne hle fun heq => ?_
  rw [h.orders _ l i (htracks.names_unused hl hunused).1 hi,
    h.orders _ l' j (htracks.names_unused hl' hunused').1 hj,
    Event.width_eq_iff hproper (Nat.le_of_lt hij)] at heq
  exact hnew i word hi.before hword (heq i word (Nat.le_refl i) hij hword)

/-- No local that nothing refers to is listed twice. -/
theorem Tracks.nodup_unused (h : Tracks es k s scope) :
    ((scope.entries.map (·.2)).filter (!·.used)).Nodup := by
  have htexts : ((scope.entries.filter (!·.2.used)).map (·.2)).map (·.word.text) =
      (scope.entries.filter (!·.2.used)).map (·.1) := by
    rw [List.map_map]
    apply List.map_congr_left
    intro entry hentry
    obtain ⟨hmem, hunused⟩ := List.mem_filter.mp hentry
    exact (h.names_entry hmem (by simpa using hunused)).1
  rw [List.filter_map]
  refine List.Nodup.of_map (·.word.text) ?_
  exact htexts ▸ h.distinct.sublist (List.filter_sublist.map Prod.fst)

/-- Where no two of the unused locals have the same number, they are reported in the order of their
declarations, however the table lists its values. -/
theorem Counted.pairwise_unusedAmong (h : Counted es k s scope) (htracks : Tracks es k s scope)
    (hdistinct : ((scope.entries.map (·.2)).filter (!·.used)).Pairwise (·.order ≠ ·.order))
    {values : List Local} (hvalues : values.Perm (scope.entries.map (·.2))) :
    (unusedAmong values).Pairwise (Precedes es k s) := by
  have hperm : (unusedAmong values).Perm ((scope.entries.map (·.2)).filter (!·.used)) :=
    (sortByNumber_perm Local.order _).trans (hvalues.filter _)
  have hmem : ∀ l ∈ unusedAmong values, l ∈ scope.entries.map (·.2) ∧ l.used = false := by
    intro l hl
    simpa using List.mem_filter.mp (hperm.mem_iff.mp hl)
  have hsorted : (unusedAmong values).Pairwise (Ascending Local.order) :=
    pairwise_sortByNumber Local.order _
  have hdiffer : (unusedAmong values).Pairwise (·.order ≠ ·.order) :=
    (hperm.pairwise_iff fun hne => Ne.symm hne).mpr hdistinct
  refine (hsorted.and hdiffer).imp_of_mem ?_
  intro l l' hl hl' hboth
  obtain ⟨hle, hne⟩ := hboth
  obtain ⟨hin, hunused⟩ := hmem l hl
  obtain ⟨hin', hunused'⟩ := hmem l' hl'
  rcases htracks.precedes_or hin hin' hunused hunused' fun heq => hne (heq ▸ rfl) with hlt | hlt
  · exact hlt
  · have hge := h.order_le htracks hin' hin hunused' hunused hlt
    exact absurd (Nat.le_antisymm hle hge) hne

/-- Locals with the same number are reported in the order in which the table lists them. -/
theorem sublist_unusedAmong {values : List Local} (hvalues : [l', l].Sublist values)
    (hunused : l.used = false) (hunused' : l'.used = false) (horder : l'.order = l.order) :
    [l', l].Sublist (unusedAmong values) := by
  have hpair : (([l', l].filter (!·.used)).filter (·.order = l.order)) = [l', l] := by
    simp [hunused, hunused', horder]
  have hkept := ((hvalues.filter (!·.used)).filter (·.order = l.order))
  rw [hpair, ← filter_eq_sortByNumber] at hkept
  exact hkept.trans List.filter_sublist

/-- If the unused locals are reported in the order of their declarations, however the table lists
its values, then no two of them have the same number. -/
theorem distinct_of_pairwise_unusedAmong
    (h : ∀ values : List Local, values.Perm (scope.entries.map (·.2)) →
      (unusedAmong values).Pairwise (Precedes es k s)) :
    ((scope.entries.map (·.2)).filter (!·.used)).Pairwise (·.order ≠ ·.order) := by
  rw [List.pairwise_iff_forall_sublist]
  intro l l' hpair horder
  have hboth : ∀ x ∈ [l, l'], x.used = false := by
    intro x hx
    simpa using (List.mem_filter.mp (hpair.subset hx)).2
  have hunused : l.used = false := hboth l (by simp)
  have hunused' : l'.used = false := hboth l' (by simp)
  have hvalues := hpair.trans List.filter_sublist
  -- Listed one way or the other, the two are reported as they are listed.
  have hone := List.pairwise_iff_forall_sublist.mp (h _ (List.Perm.refl _))
    (sublist_unusedAmong hvalues hunused' hunused horder)
  have hother := List.pairwise_iff_forall_sublist.mp (h _ (List.reverse_perm _))
    (sublist_unusedAmong hvalues.reverse hunused hunused' horder.symm)
  exact hone.asymm hother

end Reports

end Scoping

open Scoping
open Scoping.Event (Declares Names Repeats openAt)

/-- **Order numbers follow the new names of a scope.** Before each event of a program of well-formed
trees, among whatever globals, the walk has for each open scope a table of its locals such that:

* The local that a name stands for is numbered by how many names its scope had before its
  declaration.
* Of two locals, the one that was declared first has no greater number than the other one. They have
  the same number if and only if each declaration of the scope from that of the first one on and
  before that of the other one repeats a name.
* The unused locals are reported in the order of their declarations, however the table lists its
  values, if and only if no two of them have the same number.
* This is so in a scope where no name is declared again. -/
theorem order_numbers_follow_new_names (p : Program) (globals : List String)
    (hstatements : Stmt.AllWellFormed p.statements)
    (htrailing : Expr.AllWellFormed p.trailing.toList) {k n s : Nat} (hk : k ≤ p.events.length)
    (hs : (openAt p.events k)[n]? = some s) :
    ∃ scope, (Resolution.before globals p.events k).scopes[n]? = some scope ∧
      (∀ x i, Names p.events k s x i → ∃ l, scope.get? x = some l ∧ Declares p.events i l.word s ∧
        l.order = (Event.namesOf p.events i s).ncard) ∧
      (∀ x y l l' i j, scope.get? x = some l → scope.get? y = some l' → Names p.events k s x i →
        Names p.events k s y j → i < j → l.order ≤ l'.order ∧
          (l.order = l'.order ↔
            ∀ m word, i ≤ m → m < j → Declares p.events m word s → Repeats p.events m)) ∧
      ((∀ values : List Local, values.Perm (scope.entries.map (·.2)) →
          (Resolution.unusedAmong values).Pairwise (Precedes p.events k s)) ↔
        ((scope.entries.map (·.2)).filter (!·.used)).Pairwise (·.order ≠ ·.order)) ∧
      ((∀ m word, m < k → Declares p.events m word s → ¬ Repeats p.events m) →
        ∀ values : List Local, values.Perm (scope.entries.map (·.2)) →
          (Resolution.unusedAmong values).Pairwise (Precedes p.events k s)) := by
  have hproper := Program.allProper_events hstatements htrailing
  have htracked := Resolution.tracked_before globals hproper hk
  obtain ⟨scope, hscope, htracks⟩ := htracked.scope hs
  have hcounted : Counted p.events k s scope := by
    have hboth := forall₂_getElem? (Resolution.allCounted_before globals hk) n
    rw [hs, hscope] at hboth
    cases hboth with
    | some h => exact h
  refine ⟨scope, hscope, fun x i hi => ?_, fun x y l l' i j hl hl' hi hj hij => ?_,
    ⟨distinct_of_pairwise_unusedAmong, fun h values => hcounted.pairwise_unusedAmong htracks h⟩,
    fun hnew values => hcounted.pairwise_unusedAmong htracks ?_⟩
  · obtain ⟨word, hword, hx⟩ := hi.declares
    have hfree : IsFree x := hx ▸ hproper _ (List.mem_of_getElem? hword.event)
    have hname := htracks.locals x hfree
    generalize ho : scope.get? x = o at hname
    cases hname with
    | none hnone => exact absurd hi (hnone i)
    | @some l i' hi' hdeclares =>
      rw [hi.eq hi'] at hdeclares
      exact ⟨l, rfl, hdeclares, hcounted.orders x l i ho hi⟩
  · rw [hcounted.orders x l i hl hi, hcounted.orders y l' j hl' hj]
    exact ⟨Event.width_le (Nat.le_of_lt hij), Event.width_eq_iff hproper (Nat.le_of_lt hij)⟩
  · refine htracks.nodup_unused.imp_of_mem fun hl hl' hne heq => ?_
    obtain ⟨hin, hunused⟩ := List.mem_filter.mp hl
    obtain ⟨hin', hunused'⟩ := List.mem_filter.mp hl'
    replace hunused := by simpa using hunused
    replace hunused' := by simpa using hunused'
    rcases htracks.precedes_or hin hin' hunused hunused' hne with hlt | hlt
    · have := hcounted.order_lt htracks hproper hnew hin hin' hunused hunused' hlt
      omega
    · have := hcounted.order_lt htracks hproper hnew hin' hin hunused' hunused hlt
      omega

/-- Two new names in a block, both unused: they are reported in order. -/
theorem new_names_are_reported_in_order : ∃ p : Program, Stmt.AllWellFormed p.statements ∧
    Expr.AllWellFormed p.trailing.toList ∧ 5 ≤ p.events.length ∧
      (openAt p.events 5)[0]? = some 0 ∧
      ∃ scope l, (Resolution.before [] p.events 5).scopes[0]? = some scope ∧
        scope.get? "b" = some l ∧ l.order = (Event.namesOf p.events 3 0).ncard ∧
        ∀ values : List Local, values.Perm (scope.entries.map (·.2)) →
          (Resolution.unusedAmong values).Pairwise (Precedes p.events 5 0) := by
  let p : Program := ⟨[.block [.vars [⟨⟨"a", 1⟩, none⟩, ⟨⟨"b", 1⟩, none⟩]]], none⟩
  have hstatements : Stmt.AllWellFormed p.statements := by
    simp only [p, Stmt.AllWellFormed, Stmt.WellFormed, Declarator.AllWellFormed]
    decide
  have hnames : Names p.events 5 0 "b" 3 := by
    refine ⟨by decide, ⟨⟨"b", 1⟩, ⟨rfl, rfl⟩, rfl⟩, fun m word hm hm' hword => ?_⟩
    obtain rfl : m = 4 := by omega
    cases hword.event
  obtain ⟨scope, hscope, horders, -, hreports, -⟩ :=
    order_numbers_follow_new_names p [] hstatements trivial (n := 0) (s := 0) (k := 5) (by decide) rfl
  obtain ⟨l, hl, -, horder⟩ := horders "b" 3 hnames
  refine ⟨p, hstatements, trivial, by decide, rfl, scope, l, hscope, hl, horder, hreports.mpr ?_⟩
  cases hscope
  decide

/-- Where two names of a block are declared again, the one that comes to stand first is the second
one in the list, and both have the number that the block had as its size all the while. So one way
of listing the locals leads to reports that are not in the order of the declarations. -/
theorem redeclared_names_share_a_number : ∃ p scope a b,
    (Program.parse (Source.tokens "{var c,d,e,f,g,h,i,j,k,l,m;var a;var b;var b;var a;}")
      .script).result = .ok p ∧
    (Resolution.before [] p.events 31).scopes[0]? = some scope ∧ scope.get? "a" = some a ∧
    scope.get? "b" = some b ∧ Precedes p.events 31 0 b a ∧ a.order = b.order ∧
    ¬ (Resolution.unused scope).Pairwise (Precedes p.events 31 0) := by
  let var (text : String) : Declarator := ⟨⟨text, 1⟩, none⟩
  let unusedLocal (text : String) (order : Nat) : Local := ⟨⟨text, 1⟩, true, false, order⟩
  let others := ["c", "d", "e", "f", "g", "h", "i", "j", "k", "l", "m"]
  let p : Program := ⟨[.block [.vars (others.map var), .vars [var "a"], .vars [var "b"],
    .vars [var "b"], .vars [var "a"]]], none⟩
  let scope : Scope := ⟨others.zipIdx.map (fun (x, n) => (x, unusedLocal x n)) ++
    [("a", unusedLocal "a" 13), ("b", unusedLocal "b" 13)]⟩
  have hb : Names p.events 31 0 "b" 27 := by
    refine ⟨by decide, ⟨⟨"b", 1⟩, ⟨rfl, by decide +kernel⟩, rfl⟩, fun m word hm hm' hword => ?_⟩
    obtain rfl | rfl | rfl : m = 28 ∨ m = 29 ∨ m = 30 := by omega
    · cases hword.event
    · cases hword.event
      decide
    · cases hword.event
  have ha : Names p.events 31 0 "a" 29 := by
    refine ⟨by decide, ⟨⟨"a", 1⟩, ⟨rfl, by decide +kernel⟩, rfl⟩, fun m word hm hm' hword => ?_⟩
    obtain rfl : m = 30 := by omega
    cases hword.event
  have hfirst : Precedes p.events 31 0 (unusedLocal "b" 13) (unusedLocal "a" 13) :=
    ⟨27, 29, hb, ha, by decide⟩
  have hreports : [unusedLocal "a" 13, unusedLocal "b" 13].Sublist
      (Resolution.unused scope) := by decide +kernel
  exact ⟨p, scope, unusedLocal "a" 13, unusedLocal "b" 13, rfl, rfl, rfl, rfl, hfirst, rfl,
    fun h => hfirst.asymm (List.pairwise_iff_forall_sublist.mp h hreports)⟩

end ScriptLang
