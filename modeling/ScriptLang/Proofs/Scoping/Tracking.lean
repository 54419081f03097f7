import ScriptLang.Proofs.Relabelling.Scopes
import ScriptLang.Proofs.Scoping.EventNames
import ScriptLang.Proofs.Scoping.Positions

/-!
# What the walk keeps about locals

Before each event, the walk has a scope for each that is open, and the scope has a local for each
name that stands for something in it: with the word that declared it, and marked as defined or used
if an event before has defined it or belongs to it (`Tracks`). One step of the walk after the other
keeps this (`Resolution.tracked_take`). So the walk binds every variable to the local that it belongs
to by position (`Resolution.hops?_eq_some`).
-/

namespace ScriptLang

/-! ## Scopes and their locals -/

namespace Scoping

open Event (Declares Defines Means Names Ready Resolves Used openAt)

/-- What a scope has for a name is what the name stands for before event `k`, in the scope that event
`s` begins. -/
inductive TracksName (es : List Event) (k s : Nat) (x : String) : Option Local → Prop
  | none (h : ∀ i, ¬ Names es k s x i) : TracksName es k s x none
  | some {l i} (names : Names es k s x i) (declares : Declares es i l.word s)
    (defined : l.defined = true ↔ Ready es k s x i) (used : l.used = true ↔ Used es k i) :
    TracksName es k s x (some l)

/-- The scope is the one that event `s` begins, before event `k`. -/
structure Tracks (es : List Event) (k s : Nat) (scope : Scope) : Prop where
  distinct : scope.names.Nodup
  locals : ∀ x, IsFree x → TracksName es k s x (scope.get? x)
  keywords : ∀ x l, ¬ IsFree x → scope.get? x = some l → l.used = true

section Tracks

variable {es : List Event} {k s : Nat} {x : String} {e : Event} {scope : Scope} {o : Option Local}

namespace TracksName

theorem isSome_iff (h : TracksName es k s x o) : o.isSome ↔ ∃ i, Names es k s x i := by
  cases h with
  | none hnone => simpa using hnone
  | some hnames => exact ⟨fun _ => ⟨_, hnames⟩, fun _ => rfl⟩

/-- An event that is not about the name leaves it as it is. -/
theorem keep (h : TracksName es k s x o)
    (hdeclares : ∀ word, Declares es k word s → word.text ≠ x)
    (hdefines : ∀ word, Defines es k word s → word.text ≠ x)
    (hresolves : ∀ i hops, Names es k s x i → ¬ Resolves es k i hops) :
    TracksName es (k + 1) s x o := by
  cases h with
  | none hnone => exact .none fun i hi => hnone i ((Event.names_succ hdeclares).mp hi)
  | @some l i hnames hword hdefined hused =>
    refine .some ((Event.names_succ hdeclares).mpr hnames) hword ?_ ?_
    · rw [hdefined, Event.ready_succ hdefines]
    · rw [hused, Event.used_succ, or_iff_left]
      rintro ⟨hops, hi⟩
      exact hresolves i hops hnames hi

end TracksName

namespace Tracks

/-- What is in the scope has a name that stands for it. -/
theorem contains_iff (h : Tracks es k s scope) (hx : IsFree x) :
    scope.contains x = true ↔ ∃ i, Names es k s x i := (h.locals x hx).isSome_iff

/-- An event that is not about the scope leaves it as it is. -/
theorem keep (h : Tracks es k s scope) (hdeclares : ∀ word, ¬ Declares es k word s)
    (hdefines : ∀ word, ¬ Defines es k word s)
    (hresolves : ∀ x i hops, Names es k s x i → ¬ Resolves es k i hops) :
    Tracks es (k + 1) s scope where
  distinct := h.distinct
  locals x hx := (h.locals x hx).keep (fun word hword => absurd hword (hdeclares word))
    (fun word hword => absurd hword (hdefines word)) (hresolves x)
  keywords := h.keywords

/-- A scope with a new value for a name. -/
theorem set {word : Lexeme} {l : Local} (h : Tracks es k s scope) (hword : IsFree word.text)
    (hself : TracksName es (k + 1) s word.text (some l))
    (hother : ∀ x, IsFree x → x ≠ word.text → TracksName es k s x (scope.get? x) →
      TracksName es (k + 1) s x (scope.get? x)) :
    Tracks es (k + 1) s (scope.set word.text l) where
  distinct := Slots.nodup_names_set h.distinct
  locals x hx := by
    rw [Slots.get?_set]
    split
    · rename_i heq
      rwa [heq]
    · rename_i hne
      exact hother x hx hne (h.locals x hx)
  keywords x l' hx hl' := by
    have hne : x ≠ word.text := by
      rintro rfl
      exact hx hword
    rw [Slots.get?_set_of_ne _ _ hne] at hl'
    exact h.keywords x l' hx hl'

/-- A scope with the value of a name changed. -/
theorem modify {name : String} {f : Local → Local} (h : Tracks es k s scope)
    (hself : IsFree name → TracksName es k s name (scope.get? name) →
      TracksName es (k + 1) s name ((scope.get? name).map f))
    (hother : ∀ x, IsFree x → x ≠ name → TracksName es k s x (scope.get? x) →
      TracksName es (k + 1) s x (scope.get? x))
    (hkeyword : ¬ IsFree name → ∀ l, l.used = true → (f l).used = true) :
    Tracks es (k + 1) s (scope.modify name f) where
  distinct := by
    rw [Slots.names_modify]
    exact h.distinct
  locals x hx := by
    rw [Slots.get?_modify]
    split
    · rename_i heq
      subst heq
      exact hself hx (h.locals x hx)
    · rename_i hne
      exact hother x hx hne (h.locals x hx)
  keywords x l hx hl := by
    rw [Slots.get?_modify] at hl
    split at hl
    · rename_i heq
      subst heq
      obtain ⟨l', hl', rfl⟩ := Option.map_eq_some_iff.mp hl
      exact hkeyword hx l' (h.keywords x l' hx hl')
    · exact h.keywords x l hx hl

end Tracks

/-! ## Events that are not about a scope -/

/-- An event that is about no names of locals leaves all scopes as they are. -/
theorem Tracks.quiet (h : Tracks es k s scope) (he : es[k]? = some e)
    (hdeclares : ∀ word, e ≠ .declares word) (hdefines : ∀ word, e ≠ .defines word)
    (hother : e.looksUp? = none) : Tracks es (k + 1) s scope :=
  h.keep (fun word hword => hdeclares word (hword.event_eq he))
    (fun word hword => hdefines word (hword.event_eq he))
    fun _ _ _ _ => Event.not_resolves_of_other he hother

/-- Nothing has a name in a scope that just begins. -/
theorem Event.not_names_new {i : Nat} : ¬ Names es (k + 1) k x i := by
  intro h
  obtain ⟨word, hword, -⟩ := h.declares
  exact Nat.lt_irrefl k (Nat.lt_of_lt_of_le (lt_of_mem_openAt hword.mem)
    (Nat.le_of_lt_succ h.before))

theorem tracks_empty : Tracks es (k + 1) k .empty where
  distinct := .nil
  locals _ _ := .none fun _ => Event.not_names_new
  keywords _ _ _ hl := by cases hl

theorem tracks_implicitly {special : String} {word : Lexeme} (h : ¬ IsFree special) :
    Tracks es (k + 1) k (Resolution.implicitly special word) where
  distinct := List.pairwise_singleton _ special
  locals x hx := by
    have hne : x ≠ special := by
      rintro rfl
      exact h hx
    have hget : (Resolution.implicitly special word).get? x = none := Slots.get?_set_of_ne _ _ hne
    rw [hget]
    exact .none fun _ => Event.not_names_new
  keywords x l _ hl := by
    unfold Resolution.implicitly at hl
    rw [Slots.get?_set] at hl
    split at hl
    · cases hl
      rfl
    · cases hl

end Tracks

/-! ## Lists side by side -/

section Forall₂

variable {α β : Type} {R R' : α → β → Prop} {f : β → β} {xs : List α} {ys : List β}

theorem forall₂_getElem? (h : List.Forall₂ R xs ys) (n : Nat) : Option.Rel R xs[n]? ys[n]? := by
  induction h generalizing n with
  | nil => exact .none
  | cons hfirst _ ih =>
    cases n with
    | zero => exact .some hfirst
    | succ n => exact ih n

theorem forall₂_of_getElem? (h : ∀ n : Nat, Option.Rel R xs[n]? ys[n]?) : List.Forall₂ R xs ys := by
  induction xs generalizing ys with
  | nil =>
    cases ys with
    | nil => exact .nil
    | cons y ys => cases h 0
  | cons x xs ih =>
    cases ys with
    | nil => cases h 0
    | cons y ys =>
      have hrest := ih fun n => h (n + 1)
      cases h 0 with
      | some hfirst => exact .cons hfirst hrest

/-- One entry on the right is changed, and all others hold as they are. -/
theorem forall₂_modify {n : Nat} (h : List.Forall₂ R xs ys)
    (hself : ∀ x y, xs[n]? = some x → R x y → R' x (f y))
    (hother : ∀ m x y, m ≠ n → xs[m]? = some x → R x y → R' x y) :
    List.Forall₂ R' xs (ys.modify n f) := by
  refine forall₂_of_getElem? fun m => ?_
  rw [List.getElem?_modify]
  have hm := forall₂_getElem? h m
  generalize hy : ys[m]? = y at hm
  generalize hx : xs[m]? = x at hm
  cases hm with
  | none => exact .none
  | some hxy =>
    by_cases hmn : n = m
    · subst hmn
      simpa using Option.Rel.some (hself _ _ hx hxy)
    · simpa [hmn] using Option.Rel.some (hother m _ _ (Ne.symm hmn) hx hxy)

end Forall₂

namespace Resolution

/-! ## Steps that bind nothing -/

/-- The scopes of the walk are those that are open before event `k`. -/
def Tracked (es : List Event) (k : Nat) (r : Resolution) : Prop :=
  List.Forall₂ (Tracks es k) (openAt es k) r.scopes

variable {es : List Event} {k : Nat} {e : Event} {r : Resolution}

theorem scopes_leave (r : Resolution) : r.leave.scopes = r.scopes.tail := by
  unfold leave
  cases hscopes : r.scopes with
  | nil => exact hscopes
  | cons scope scopes =>
    dsimp only
    rw [foldl_report_eq]
    rfl

theorem scopes_declare (r : Resolution) (word : Lexeme) : (r.declare word).scopes =
    r.scopes.modify 0 fun scope => scope.set word.text ⟨word, false, false, scope.size⟩ := by
  obtain ⟨scopes, globals, bindings, found⟩ := r
  unfold declare
  cases scopes with
  | nil => rfl
  | cons scope scopes => rfl

theorem scopes_define (r : Resolution) (word : Lexeme) : (r.define word).scopes =
    r.scopes.modify 0 (·.modify word.text ({ · with defined := true })) := by
  obtain ⟨scopes, globals, bindings, found⟩ := r
  unfold define
  cases scopes with
  | nil => rfl
  | cons scope scopes => rfl

theorem tracked_enter {scope : Scope} (h : Tracked es k r)
    (hopen : openAt es (k + 1) = k :: openAt es k) (hnew : Tracks es (k + 1) k scope)
    (hold : ∀ s scope, Tracks es k s scope → Tracks es (k + 1) s scope) :
    Tracked es (k + 1) (r.enter scope) := by
  unfold Tracked
  rw [hopen]
  exact .cons hnew (h.imp hold)

theorem tracked_leave (h : Tracked es k r) (he : es[k]? = some .closes) :
    Tracked es (k + 1) r.leave := by
  unfold Tracked
  rw [scopes_leave, Event.openAt_closes he]
  refine forall₂_of_getElem? fun n => ?_
  rw [List.getElem?_tail, List.getElem?_tail]
  have hquiet : List.Forall₂ (Tracks es (k + 1)) (openAt es k) r.scopes :=
    h.imp fun s scope htracks => htracks.quiet he nofun nofun rfl
  exact forall₂_getElem? hquiet (n + 1)

/-- Of the open scopes, only the first one is the innermost. -/
theorem not_innermost {n s : Nat} (hn : n ≠ 0) (hs : (openAt es k)[n]? = some s) :
    (openAt es k).head? ≠ some s := by
  intro hhead
  have hlt := (List.getElem?_eq_some_iff.mp hs).1
  rw [List.head?_eq_getElem?, ← hs] at hhead
  exact hn ((List.getElem?_inj hlt (Event.nodup_openAt es k)).mp hhead.symm)

theorem tracked_declare {word : Lexeme} (h : Tracked es k r) (he : es[k]? = some (.declares word))
    (hword : IsFree word.text) : Tracked es (k + 1) (r.declare word) := by
  have hresolves (i hops : Nat) : ¬ Resolves es k i hops := Event.not_resolves_of_other he rfl
  have hdefines (word' : Lexeme) (s : Nat) : ¬ Defines es k word' s :=
    fun hword' => nomatch hword'.event_eq he
  unfold Tracked
  rw [scopes_declare, Event.openAt_of_stays he rfl]
  refine forall₂_modify h (fun s scope hs htracks => ?_) fun n s scope hn hs htracks => ?_
  · have hnew : Declares es k word s := ⟨he, by rwa [List.head?_eq_getElem?]⟩
    refine htracks.set hword (.some hnew.names hnew ?_ ?_) fun x hx hne hname =>
      hname.keep (fun word' hword' => ?_) (fun word' hword' => absurd hword' (hdefines word' s))
        fun i hops _ => hresolves i hops
    · simpa using Event.not_ready_self
    · simpa using Event.not_used_self
    · rw [hnew.word_eq hword']
      exact hne.symm
  · exact htracks.keep (fun word' hword' => not_innermost hn hs hword'.scope)
      (fun word' => hdefines word' s) fun x i hops _ => hresolves i hops

theorem tracked_define {word : Lexeme} (h : Tracked es k r) (he : es[k]? = some (.defines word))
    (hword : IsFree word.text) : Tracked es (k + 1) (r.define word) := by
  have hresolves (i hops : Nat) : ¬ Resolves es k i hops := Event.not_resolves_of_other he rfl
  have hdeclares (word' : Lexeme) (s : Nat) : ¬ Declares es k word' s :=
    fun hword' => nomatch hword'.event_eq he
  unfold Tracked
  rw [scopes_define, Event.openAt_of_stays he rfl]
  refine forall₂_modify h (fun s scope hs htracks => ?_) fun n s scope hn hs htracks => ?_
  · have hnow : Defines es k word s := ⟨he, by rwa [List.head?_eq_getElem?]⟩
    refine htracks.modify (fun _ hname => ?_) (fun x hx hne hname => ?_) fun hnot =>
      absurd hword hnot
    · have hstays {i : Nat} : Names es (k + 1) s word.text i ↔ Names es k s word.text i :=
        Event.names_succ fun word' hword' => absurd hword' (hdeclares word' s)
      generalize scope.get? word.text = o at hname
      cases hname with
      | none hnone => exact .none fun i hi => hnone i (hstays.mp hi)
      | @some l i hnames hdeclared hdefined hused =>
        have hready : Ready es (k + 1) s word.text i :=
          ⟨k, word, hnames.before, Nat.lt_succ_self k, hnow, rfl⟩
        refine .some (hstays.mpr hnames) hdeclared ⟨fun _ => hready, fun _ => rfl⟩ ?_
        rw [Event.used_succ, or_iff_left]
        · exact hused
        · exact fun ⟨hops, hi⟩ => hresolves i hops hi
    · refine hname.keep (fun word' hword' => absurd hword' (hdeclares word' s))
        (fun word' hword' => ?_) fun i hops _ => hresolves i hops
      cases hword'.event_eq he
      exact hne.symm
  · exact htracks.keep (fun word' => hdeclares word' s)
      (fun word' hword' => not_innermost hn hs hword'.scope) fun x i hops _ => hresolves i hops

/-! ## References -/

/-- How many scopes out the variable of an event is bound. -/
def hops? (r : Resolution) : Event → Option Nat
  | .reads ref => r.reads? ref
  | .assigns ref => r.refers? ref
  | _ => none

theorem Tracked.scope (h : Tracked es k r) {n s : Nat} (hs : (openAt es k)[n]? = some s) :
    ∃ scope, r.scopes[n]? = some scope ∧ Tracks es k s scope := by
  have hn := forall₂_getElem? h n
  rw [hs] at hn
  generalize r.scopes[n]? = o at hn
  cases hn with
  | some htracks => exact ⟨_, rfl, htracks⟩

theorem Tracked.open (h : Tracked es k r) {n : Nat} {scope : Scope}
    (hscope : r.scopes[n]? = some scope) :
    ∃ s, (openAt es k)[n]? = some s ∧ Tracks es k s scope := by
  have hn := forall₂_getElem? h n
  rw [hscope] at hn
  generalize (openAt es k)[n]? = o at hn
  cases hn with
  | some htracks => exact ⟨_, rfl, htracks⟩

theorem Tracked.innermost (h : Tracked es k r) :
    Option.Rel (Tracks es k) (openAt es k).head? r.scopes.head? := by
  rw [List.head?_eq_getElem?, List.head?_eq_getElem?]
  exact forall₂_getElem? h 0

/-- Where a name is found, by position. -/
theorem Tracked.index?_eq_some (h : Tracked es k r) {ref : Ref} (href : IsFree ref.word.text)
    {skipped hops : Nat} : r.index? ref skipped = some hops ↔
      skipped ≤ hops ∧ (∃ s i, (openAt es k)[hops]? = some s ∧ Names es k s ref.word.text i) ∧
        ∀ n s i, skipped ≤ n → n < hops → (openAt es k)[n]? = some s →
          ¬ Names es k s ref.word.text i := by
  rw [Resolution.index?_eq_some]
  refine and_congr_right fun _ => and_congr ⟨?_, ?_⟩ ⟨?_, ?_⟩
  · rintro ⟨scope, hscope, hx⟩
    obtain ⟨s, hs, htracks⟩ := h.open hscope
    obtain ⟨i, hi⟩ := (htracks.contains_iff href).mp hx
    exact ⟨s, i, hs, hi⟩
  · rintro ⟨s, i, hs, hi⟩
    obtain ⟨scope, hscope, htracks⟩ := h.scope hs
    exact ⟨scope, hscope, (htracks.contains_iff href).mpr ⟨i, hi⟩⟩
  · intro hfirst n s i hle hn hs hi
    obtain ⟨scope, hscope, htracks⟩ := h.scope hs
    exact hfirst n scope hle hn hscope ((htracks.contains_iff href).mpr ⟨i, hi⟩)
  · intro hfirst n scope hle hn hscope hx
    obtain ⟨s, hs, htracks⟩ := h.open hscope
    obtain ⟨i, hi⟩ := (htracks.contains_iff href).mp hx
    exact hfirst n s i hle hn hs hi

/-- Whether the initializer of a local is walked over, by position. -/
theorem Tracked.initializing_iff (h : Tracked es k r) {x : String} (hx : IsFree x) :
    r.initializing x = true ↔
      ∃ s i, (openAt es k).head? = some s ∧ Names es k s x i ∧ ¬ Ready es k s x i := by
  have hinnermost := h.innermost
  have hscopes : r.initializing x =
      (r.scopes.head?.bind (·.get? x)).any fun l => !l.defined := by
    unfold initializing
    cases r.scopes with
    | nil => rfl
    | cons scope scopes =>
      dsimp only [List.head?_cons, Option.bind_some]
      cases scope.get? x <;> rfl
  rw [hscopes]
  generalize (openAt es k).head? = innermost at hinnermost
  generalize r.scopes.head? = scope at hinnermost
  cases hinnermost with
  | none => exact ⟨nofun, nofun⟩
  | @some s scope htracks =>
    have hname := htracks.locals x hx
    rw [Option.bind_some]
    generalize scope.get? x = o at hname
    cases hname with
    | none hnone =>
      refine ⟨nofun, ?_⟩
      rintro ⟨s', i, hs, hi, -⟩
      cases hs
      exact absurd hi (hnone i)
    | @some l i hnames hdeclared hdefined hused =>
      constructor
      · intro hnot
        have hfalse : ¬ l.defined = true := by simpa using hnot
        exact ⟨s, i, rfl, hnames, fun hready => hfalse (hdefined.mpr hready)⟩
      · rintro ⟨s', i', hs, hi', hready⟩
        cases hs
        rw [hnames.eq hi'] at hready
        simpa using fun hl => hready (hdefined.mp hl)

/-- Where a variable is found that can mean whatever has its name. -/
theorem Tracked.index?_eq_some_of_means (h : Tracked es k r) {ref : Ref}
    (href : IsFree ref.word.text)
    (hmeans : ∀ s i, Means es k s i ↔ Names es k s ref.word.text i) {hops : Nat} :
    r.index? ref 0 = some hops ↔ ∃ i, Resolves es k i hops := by
  rw [h.index?_eq_some href]
  constructor
  · rintro ⟨-, ⟨s, i, hs, hi⟩, hfirst⟩
    exact ⟨i, ⟨s, hs, (hmeans s i).mpr hi⟩,
      fun n s' j hn hs' hj => hfirst n s' j (Nat.zero_le n) hn hs' ((hmeans s' j).mp hj)⟩
  · rintro ⟨i, ⟨s, hs, hi⟩, hnearest⟩
    exact ⟨Nat.zero_le hops, ⟨s, i, hs, (hmeans s i).mp hi⟩,
      fun n s' j _ hn hs' hj => hnearest n s' j hn hs' ((hmeans s' j).mpr hj)⟩

/-- **The walk binds variables to the locals that they belong to by position.** -/
theorem Tracked.hops?_eq_some (h : Tracked es k r) (he : es[k]? = some e) (hproper : e.Proper)
    {hops : Nat} : r.hops? e = some hops ↔ ∃ i, Resolves es k i hops := by
  cases e with
  | assigns ref =>
    exact h.index?_eq_some_of_means hproper fun s i =>
      ⟨(·.names_looksUp he rfl), .assigned he⟩
  | reads ref =>
    have hmeans (s i : Nat) : Means es k s i ↔ Names es k s ref.word.text i ∧
        ((openAt es k).head? = some s → Ready es k s ref.word.text i) :=
      ⟨(·.names_read he), fun hi => .read he hi.1 hi.2⟩
    unfold hops? reads?
    dsimp only
    by_cases hinit : r.initializing ref.word.text = true
    · obtain ⟨s₀, i₀, hs₀, hi₀, hnot⟩ := (h.initializing_iff hproper).mp hinit
      -- The local that is initialized is out of the question.
      have hinner (j : Nat) : ¬ Means es k s₀ j := by
        intro hj
        obtain ⟨hnames, hready⟩ := (hmeans s₀ j).mp hj
        rw [hi₀.eq hnames] at hready
        exact hnot (hready hs₀)
      rw [List.head?_eq_getElem?] at hs₀
      rw [if_pos hinit, h.index?_eq_some hproper]
      constructor
      · rintro ⟨hpos, ⟨s, i, hs, hi⟩, hfirst⟩
        refine ⟨i, ⟨s, hs, (hmeans s i).mpr ⟨hi, fun hhead => ?_⟩⟩, fun n s' j hn hs' hj => ?_⟩
        · exact absurd hhead (not_innermost (Nat.ne_of_gt hpos) hs)
        · rcases Nat.eq_zero_or_pos n with rfl | hn₀
          · rw [hs₀] at hs'
            cases hs'
            exact hinner j hj
          · exact hfirst n s' j hn₀ hn hs' ((hmeans s' j).mp hj).1
      · rintro ⟨i, ⟨s, hs, hi⟩, hnearest⟩
        refine ⟨Nat.pos_of_ne_zero ?_, ⟨s, i, hs, ((hmeans s i).mp hi).1⟩,
          fun n s' j hn₀ hn hs' hj => ?_⟩
        · rintro rfl
          rw [hs₀] at hs
          cases hs
          exact hinner i hi
        · refine hnearest n s' j hn hs' ((hmeans s' j).mpr ⟨hj, fun hhead => ?_⟩)
          exact absurd hhead (not_innermost (Nat.ne_of_gt hn₀) hs')
    · rw [if_neg hinit]
      refine h.index?_eq_some_of_means hproper fun s i => ?_
      rw [hmeans, and_iff_left_iff_imp]
      intro hnames hhead
      by_contra hnot
      exact hinit ((h.initializing_iff hproper).mpr ⟨s, i, hhead, hnames, hnot⟩)
  | _ => exact ⟨nofun, fun ⟨_, hi⟩ => absurd hi (Event.not_resolves_of_other he rfl)⟩

/-- A variable that belongs to no local leaves all scopes as they are. -/
theorem tracked_unbound {ref : Ref} (h : Tracked es k r) (he : es[k]? = some e)
    (href : e.looksUp? = some ref) (hproper : e.Proper) (hnone : r.hops? e = none) :
    Tracked es (k + 1) r := by
  unfold Tracked
  rw [Event.openAt_of_stays he (Event.movesScope_of_looksUp href)]
  refine h.imp fun s scope htracks => htracks.keep
    (fun _ => Event.not_declares_of_looksUp he href)
    (fun _ => Event.not_defines_of_looksUp he href) fun x i hops _ hi => ?_
  rw [(h.hops?_eq_some he hproper).mpr ⟨i, hi⟩] at hnone
  cases hnone

/-- A variable marks the local that it belongs to. -/
theorem tracked_bound {ref : Ref} (h : Tracked es k r) (he : es[k]? = some e)
    (href : e.looksUp? = some ref) (hproper : e.Proper) {hops : Nat}
    (hsome : r.hops? e = some hops) : Tracked es (k + 1) (r.bound ref hops) := by
  have hdeclares (word : Lexeme) (s : Nat) : ¬ Declares es k word s :=
    Event.not_declares_of_looksUp he href
  have hdefines (word : Lexeme) (s : Nat) : ¬ Defines es k word s :=
    Event.not_defines_of_looksUp he href
  have hsuccessor {s i : Nat} {x : String} : Names es (k + 1) s x i ↔ Names es k s x i :=
    Event.names_succ fun word hword => absurd hword (hdeclares word s)
  obtain ⟨i, hi⟩ := (h.hops?_eq_some he hproper).mp hsome
  obtain ⟨s₀, hs₀, hi₀⟩ := hi.means
  have hnames₀ := hi₀.names_looksUp he href
  unfold Tracked
  rw [Event.openAt_of_stays he (Event.movesScope_of_looksUp href)]
  refine forall₂_modify h (fun s scope hs htracks => ?_) fun n s scope hn hs htracks => ?_
  · cases hs₀.symm.trans hs
    refine htracks.modify (fun _ hname => ?_) (fun x hx hne hname => ?_) fun _ _ _ => rfl
    · generalize scope.get? ref.word.text = o at hname
      cases hname with
      | none hnone => exact absurd hnames₀ (hnone i)
      | @some l i' hnames hword hdefined hused =>
        cases hnames₀.eq hnames
        refine .some (hsuccessor.mpr hnames) hword ?_ ⟨fun _ => ?_, fun _ => rfl⟩
        · rw [Event.ready_succ fun word hword => absurd hword (hdefines word s₀)]
          exact hdefined
        · exact Event.used_succ.mpr (.inr ⟨hops, hi⟩)
    · refine hname.keep (fun word hword => absurd hword (hdeclares word s₀))
        (fun word hword => absurd hword (hdefines word s₀)) fun j hops' hnames hj => ?_
      obtain ⟨word, hword, htext⟩ := hnames.declares
      obtain ⟨s', -, hj'⟩ := hj.means
      exact hne (htext.symm.trans ((hj'.names_looksUp he href).text_eq hword))
  · refine htracks.keep (hdeclares · s) (hdefines · s) fun x j hops' hnames hj => ?_
    obtain ⟨word, hword, -⟩ := hnames.declares
    have hs' := hj.scope hword
    rw [hi.hops_eq hj, ← hs] at hs'
    have hlt := (List.getElem?_eq_some_iff.mp hs).1
    exact hn ((List.getElem?_inj hlt (Event.nodup_openAt es k)).mp hs'.symm)

theorem tracked_refer {ref : Ref} (h : Tracked es k r) (he : es[k]? = some (.assigns ref))
    (href : IsFree ref.word.text) : Tracked es (k + 1) (r.refer ref) := by
  rw [refer_eq]
  cases hhops : r.refers? ref with
  | none => exact tracked_unbound h he rfl href hhops
  | some hops => exact tracked_bound h he rfl href hhops

theorem tracked_read {ref : Ref} (h : Tracked es k r) (he : es[k]? = some (.reads ref))
    (href : IsFree ref.word.text) : Tracked es (k + 1) (r.read ref) := by
  rw [read_eq]
  cases hhops : r.reads? ref with
  | none =>
    have hkeep : Tracked es (k + 1) r := tracked_unbound h he rfl href hhops
    dsimp only
    split
    · exact hkeep
    · exact hkeep
  | some hops => exact tracked_bound h he rfl href hhops

/-- `this` and `super` mark no locals. -/
theorem tracked_keyword {ref : Ref} {path : Path} {node : Node} (h : Tracked es k r)
    (he : es[k]? = some (.stands path node)) (href : ¬ IsFree ref.word.text) :
    Tracked es (k + 1) (r.refer ref) := by
  have hquiet (s : Nat) (scope : Scope) (htracks : Tracks es k s scope) :
      Tracks es (k + 1) s scope := htracks.quiet he nofun nofun rfl
  unfold Tracked
  rw [Event.openAt_of_stays he rfl, refer_eq]
  cases r.refers? ref with
  | none => exact h.imp hquiet
  | some hops =>
    refine forall₂_modify h (fun s scope _ htracks => ?_) fun _ s scope _ _ => hquiet s scope
    refine htracks.modify (fun hfree => absurd hfree href) (fun x hx _ _ => ?_) fun _ _ _ => rfl
    exact (hquiet s scope htracks).locals x hx

/-- **A step of the walk keeps track of all locals.** -/
theorem tracked_take (h : Tracked es k r) (he : es[k]? = some e) (hproper : e.Proper) :
    Tracked es (k + 1) (r.take e) := by
  cases e with
  | opens =>
    exact tracked_enter h (Event.openAt_opens he) tracks_empty fun s scope htracks =>
      htracks.quiet he nofun nofun rfl
  | opensFor special name =>
    exact tracked_enter h (Event.openAt_opensFor he) (tracks_implicitly hproper) fun s scope htracks =>
      htracks.quiet he nofun nofun rfl
  | closes => exact tracked_leave h he
  | declares word => exact tracked_declare h he hproper
  | defines word => exact tracked_define h he hproper
  | reads ref => exact tracked_read h he hproper
  | assigns ref => exact tracked_refer h he hproper
  | stands path node =>
    have hreported : Tracked es k { r with found := r.found ++ (node.fault? path).toList } := h
    unfold take
    dsimp only
    split
    · rename_i ref href
      exact tracked_keyword hreported he (hproper ref href)
    · unfold Tracked
      rw [Event.openAt_of_stays he rfl]
      exact h.imp fun s scope htracks => htracks.quiet he nofun nofun rfl

/-- The walk before event `k`. -/
def before (globals : List String) (es : List Event) (k : Nat) : Resolution :=
  (start globals).takeAll (es.take k)

theorem before_succ {globals : List String} (he : es[k]? = some e) :
    before globals es (k + 1) = (before globals es k).take e := by
  unfold before
  rw [List.take_add_one, he, takeAll_append]
  rfl

/-- The walk keeps track of all locals. -/
theorem tracked_before (globals : List String) (hproper : Event.AllProper es)
    (hk : k ≤ es.length) : Tracked es k (before globals es k) := by
  induction k with
  | zero => exact .nil
  | succ k ih =>
    have he : es[k]? = some es[k] := List.getElem?_eq_getElem hk
    rw [before_succ he]
    exact tracked_take (ih (Nat.le_of_succ_le hk)) he (hproper _ (List.getElem_mem hk))

end Resolution

end Scoping

/-- After all events, the walk is done. -/
theorem Program.before_length (p : Program) (globals : List String) :
    Scoping.Resolution.before globals p.events p.events.length = p.walked globals := by
  unfold Scoping.Resolution.before
  rw [List.take_length]
  rfl

end ScriptLang
