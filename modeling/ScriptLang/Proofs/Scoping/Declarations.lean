import ScriptLang.Proofs.Scoping.Contexts
import ScriptLang.Proofs.Scoping.EventNumbers

/-!
# Repeated and unused locals

A declaration that repeats a name of its scope is a fault, and so is a local to which no variable
belongs that is read or assigned. By position these are facts about the list of events alone
(`Event.Repeats`, `Event.Forgotten`). The walk finds the first when the name is declared and the
second when the scope is left, and each exactly once (`Event.OneForEach`).
-/

namespace ScriptLang

/-- The diagnostic is about a name that is declared again. -/
def Diagnostic.isAlreadyDeclared (d : Diagnostic) : Bool :=
  match d.fault with
  | .scope (.alreadyDeclared _) => true
  | _ => false

/-- The diagnostic is about a local that nothing uses. -/
def Diagnostic.isUnusedLocal (d : Diagnostic) : Bool :=
  match d.fault with
  | .scope (.unusedLocal _) => true
  | _ => false

theorem Diagnostic.not_of_context {d : Diagnostic} (h : d.isOfContext = true) :
    d.isAlreadyDeclared = false ∧ d.isUnusedLocal = false := by
  obtain ⟨line, spot, fault⟩ := d
  cases fault with
  | scope fault => cases fault <;> first | exact ⟨rfl, rfl⟩ | cases h
  | _ => cases h

namespace Scoping

namespace Event

/-! ## One fault for each declaration -/

/-- The fault of the name that event `i` declares, at its word. -/
def faultAt (es : List Event) (fault : String → ScopeFault) (i : Nat) : Option Diagnostic :=
  match es[i]? with
  | some (.declares word) => some (.scope word (fault word.text))
  | _ => none

/-- The diagnostics are one for each declaration with the property, in whatever order. -/
def OneForEach (es : List Event) (fault : String → ScopeFault) (P : Nat → Prop)
    (ds : List Diagnostic) : Prop :=
  ∃ L : List Nat, L.Nodup ∧ (∀ i, i ∈ L ↔ P i) ∧ ds.Perm (L.filterMap (faultAt es fault))

namespace OneForEach

variable {es : List Event} {fault : String → ScopeFault} {P Q : Nat → Prop}
  {ds ds' : List Diagnostic}

theorem none (h : ∀ i, ¬ P i) : OneForEach es fault P [] :=
  ⟨[], .nil, fun i => by simpa using h i, .refl _⟩

theorem one {i : Nat} {word : Lexeme} (h : es[i]? = some (.declares word)) :
    OneForEach es fault (· = i) [.scope word (fault word.text)] := by
  refine ⟨[i], List.nodup_singleton i, fun j => List.mem_singleton, ?_⟩
  simp [faultAt, h]

theorem congr (h : OneForEach es fault P ds) (hiff : ∀ i, Q i ↔ P i) :
    OneForEach es fault Q ds := by
  obtain ⟨L, hdistinct, hmem, hds⟩ := h
  exact ⟨L, hdistinct, fun i => (hmem i).trans (hiff i).symm, hds⟩

theorem perm (h : OneForEach es fault P ds) (hperm : ds'.Perm ds) :
    OneForEach es fault P ds' := by
  obtain ⟨L, hdistinct, hmem, hds⟩ := h
  exact ⟨L, hdistinct, hmem, hperm.trans hds⟩

theorem append (h : OneForEach es fault P ds) (h' : OneForEach es fault Q ds')
    (hdisjoint : ∀ i, P i → ¬ Q i) : OneForEach es fault (fun i => P i ∨ Q i) (ds ++ ds') := by
  obtain ⟨L, hdistinct, hmem, hds⟩ := h
  obtain ⟨L', hdistinct', hmem', hds'⟩ := h'
  refine ⟨L ++ L', List.nodup_append'.mpr ⟨hdistinct, hdistinct', fun i hi hi' => ?_⟩, fun i => ?_,
    ?_⟩
  · exact hdisjoint i ((hmem i).mp hi) ((hmem' i).mp hi')
  · rw [List.mem_append, hmem, hmem']
  · rw [List.filterMap_append]
    exact hds.append hds'

/-- Each of the diagnostics is the fault of a declared name. -/
theorem of_mem (h : OneForEach es fault P ds) {d : Diagnostic} (hd : d ∈ ds) :
    ∃ i word, P i ∧ es[i]? = some (.declares word) ∧ d = .scope word (fault word.text) := by
  obtain ⟨L, -, hmem, hds⟩ := h
  obtain ⟨i, hi, hfault⟩ := List.mem_filterMap.mp (hds.mem_iff.mp hd)
  unfold faultAt at hfault
  split at hfault
  · rename_i word hword
    cases hfault
    exact ⟨i, word, (hmem i).mp hi, hword, rfl⟩
  · cases hfault

/-- Without diagnostics there are no such declarations. -/
theorem not_of_nil (h : OneForEach es fault P [])
    (hdeclares : ∀ i, P i → ∃ word, es[i]? = some (.declares word)) (i : Nat) : ¬ P i := by
  obtain ⟨L, -, hmem, hds⟩ := h
  intro hi
  obtain ⟨word, hword⟩ := hdeclares i hi
  have hfault : Diagnostic.scope word (fault word.text) ∈ L.filterMap (faultAt es fault) :=
    List.mem_filterMap.mpr ⟨i, (hmem i).mpr hi, by simp [faultAt, hword]⟩
  rw [← hds.mem_iff] at hfault
  cases hfault

end OneForEach

/-! ## Forgotten locals -/

/-- Before event `k`, the local declared by event `i` is the last one of its name in its scope, the
scope has ended, and no variable belonged to the local. -/
def Forgotten (es : List Event) (k i : Nat) : Prop :=
  ∃ s x, Names es k s x i ∧ s ∉ openAt es k ∧ ¬ Used es k i

section Forgotten

variable {es : List Event} {k i s : Nat}

/-- No scope in which a name is declared ends at once. -/
theorem Declares.mem_succ {word : Lexeme} (h : Declares es k word s) : s ∈ openAt es (k + 1) := by
  rw [openAt_of_stays h.event rfl]
  exact h.mem

/-- Locals are forgotten when their scopes end. -/
theorem forgotten_succ : Forgotten es (k + 1) i ↔ Forgotten es k i ∨
    (es[k]? = some .closes ∧ ∃ s x, (openAt es k).head? = some s ∧ Names es k s x i ∧
      ¬ Used es k i) := by
  constructor
  · rintro ⟨s, x, hnames, hs, hunused⟩
    have hother : ∀ word, Declares es k word s → word.text ≠ x :=
      fun word hword => absurd hword.mem_succ hs
    rw [names_succ hother] at hnames
    rw [used_succ, not_or] at hunused
    by_cases hopen : s ∈ openAt es k
    · right
      rcases openAt_cases es k with hcases | ⟨hcloses, hcases⟩ | hcases <;> rw [hcases] at hs
      · exact absurd (List.mem_cons_of_mem k hopen) hs
      · refine ⟨hcloses, s, x, ?_, hnames, hunused.1⟩
        cases hstack : openAt es k with
        | nil =>
          rw [hstack] at hopen
          cases hopen
        | cons s₀ rest =>
          rw [hstack] at hopen hs
          rw [(List.mem_cons.mp hopen).resolve_right hs]
          rfl
      · exact absurd hopen hs
    · exact .inl ⟨s, x, hnames, hopen, hunused.1⟩
  · rintro (⟨s, x, hnames, hs, hunused⟩ | ⟨hcloses, s, x, hs, hnames, hunused⟩)
    · obtain ⟨word, hword, -⟩ := hnames.declares
      refine ⟨s, x, (names_succ fun word' hword' => absurd hword'.mem hs).mpr hnames, ?_, ?_⟩
      · rcases openAt_cases es k with hcases | ⟨-, hcases⟩ | hcases <;> rw [hcases]
        · refine List.not_mem_cons_of_ne_of_not_mem ?_ hs
          have hlt := Nat.lt_trans (lt_of_mem_openAt hword.mem) hnames.before
          exact Nat.ne_of_lt hlt
        · exact fun hmem => hs (List.mem_of_mem_tail hmem)
        · exact hs
      · rw [used_succ, not_or]
        refine ⟨hunused, fun ⟨hops, hi⟩ => hs ?_⟩
        exact List.mem_of_getElem? (hi.scope hword)
    · refine ⟨s, x, (names_succ fun word' hword' => ?_).mpr hnames, ?_, ?_⟩
      · cases hword'.event_eq hcloses
      · rw [openAt_closes hcloses]
        have hdistinct := nodup_openAt es k
        obtain ⟨rest, hstack⟩ := List.head?_eq_some_iff.mp hs
        rw [hstack] at hdistinct ⊢
        exact (List.nodup_cons.mp hdistinct).1
      · rw [used_succ, not_or]
        exact ⟨hunused, fun ⟨hops, hi⟩ => not_resolves_of_other hcloses rfl hi⟩

end Forgotten

end Event

open Event (AllProper Declares Forgotten Names OneForEach Repeats Used openAt)

/-! ## What is found about locals -/

section Found

variable {es : List Event} {k s : Nat} {e : Event} {scope : Scope} {r : Resolution}

/-- The entries of a scope that nothing refers to are the locals that no variable belongs to. -/
theorem Tracks.oneForEach_entries (h : Tracks es k s scope) {entries : List (String × Local)}
    (hdistinct : (entries.map (·.1)).Nodup)
    (hentries : ∀ entry ∈ entries, scope.get? entry.1 = some entry.2 ∧ IsFree entry.1) :
    OneForEach es .unusedLocal (fun i => ∃ entry ∈ entries, Names es k s entry.1 i)
      (entries.map fun entry => Resolution.unusedFault entry.2) := by
  induction entries with
  | nil => exact .none fun i ⟨_, hentry, _⟩ => nomatch hentry
  | cons entry entries ih =>
    obtain ⟨hnew, hrest⟩ := List.nodup_cons.mp hdistinct
    obtain ⟨hentry, hothers⟩ := List.forall_mem_cons.mp hentries
    have hname := h.locals entry.1 hentry.2
    rw [hentry.1] at hname
    cases hname with
    | @some _ i hnames hword =>
      have hone : OneForEach es .unusedLocal (· = i) [Resolution.unusedFault entry.2] :=
        .one hword.event
      refine (hone.append (ih hrest hothers) ?_).congr fun j => ?_
      · rintro j rfl ⟨entry', hentry', hnames'⟩
        have hsame : entry'.1 = entry.1 := (hnames'.text_eq hword).symm.trans (hnames.text_eq hword)
        exact hnew (List.mem_map.mpr ⟨entry', hentry', hsame⟩)
      · simp only [List.mem_cons, exists_eq_or_imp]
        exact or_congr_left ⟨fun hj => hnames.eq hj, fun hj => hj ▸ hnames⟩

theorem Tracks.oneForEach_unused (h : Tracks es k s scope) (hproper : AllProper es) :
    OneForEach es .unusedLocal (fun i => ∃ x, Names es k s x i ∧ ¬ Used es k i)
      ((Resolution.unused scope).map Resolution.unusedFault) := by
  let entries := scope.entries.filter (!·.2.used)
  have hget : ∀ entry ∈ entries, scope.get? entry.1 = some entry.2 ∧ entry.2.used = false := by
    intro entry hentry
    obtain ⟨hmem, hunused⟩ := List.mem_filter.mp hentry
    exact ⟨Slots.get?_of_mem h.distinct hmem, by simpa using hunused⟩
  have hfree : ∀ entry ∈ entries, IsFree entry.1 := by
    intro entry hentry
    obtain ⟨hentry, hunused⟩ := hget entry hentry
    by_contra hkeyword
    exact Bool.false_ne_true (hunused.symm.trans (h.keywords _ _ hkeyword hentry))
  have hdistinct : (entries.map (·.1)).Nodup :=
    h.distinct.sublist (List.filter_sublist.map Prod.fst)
  have hall := h.oneForEach_entries hdistinct fun entry hentry =>
    ⟨(hget entry hentry).1, hfree entry hentry⟩
  refine (hall.perm ?_).congr fun i => ⟨?_, ?_⟩
  · have hlocals : entries.map (·.2) = (scope.entries.map (·.2)).filter (!·.used) := by
      rw [List.filter_map]
      rfl
    have hsorted : (Resolution.unused scope).Perm (entries.map (·.2)) := by
      rw [hlocals]
      exact sortByNumber_perm Local.order _
    have hmap := hsorted.map Resolution.unusedFault
    rw [List.map_map] at hmap
    exact hmap
  · rintro ⟨x, hnames, hunused⟩
    obtain ⟨word, hword, hx⟩ := hnames.declares
    have hxfree : IsFree x := hx ▸ hproper _ (List.mem_of_getElem? hword.event)
    have hname := h.locals x hxfree
    cases hl : scope.get? x with
    | none =>
      rw [hl] at hname
      cases hname with
      | none hnone => exact absurd hnames (hnone i)
    | some l =>
      rw [hl] at hname
      cases hname with
      | @some _ i' hnames' _ _ hused =>
        cases hnames.eq hnames'
        refine ⟨(x, l), List.mem_filter.mpr ⟨Slots.mem_of_get? hl, ?_⟩, hnames⟩
        simpa using fun hl => hunused (hused.mp hl)
  · rintro ⟨entry, hentry, hnames⟩
    refine ⟨entry.1, hnames, ?_⟩
    have hname := h.locals entry.1 (hfree entry hentry)
    rw [(hget entry hentry).1] at hname
    cases hname with
    | @some _ i' hnames' _ _ hused =>
      cases hnames.eq hnames'
      rw [← hused, (hget entry hentry).2]
      exact Bool.false_ne_true

namespace Resolution

theorem finds_reads_filter (r : Resolution) (ref : Ref) {p : Diagnostic → Bool}
    (hp : p (.scope ref.word (.ownInitializer ref.word.text)) = false) :
    (r.finds (.reads ref)).filter p = [] := by
  change (if _ then [Diagnostic.scope ref.word _] else []).filter p = []
  split
  · simp [hp]
  · rfl

theorem finds_stands_filter (r : Resolution) (path : Path) (node : Node) {p : Diagnostic → Bool}
    (hp : ∀ d, d.isOfContext = true → p d = false) :
    (r.finds (.stands path node)).filter p = [] := by
  change (node.fault? path).toList.filter p = []
  cases hfault : node.fault? path with
  | none => rfl
  | some d => simp [hp d (Node.isOfContext_fault? hfault)]

theorem finds_closes_filter (r : Resolution) {p : Diagnostic → Bool} (b : Bool)
    (hp : ∀ l, p (unusedFault l) = b) :
    (r.finds .closes).filter p = if b then r.finds .closes else [] := by
  have hall : ∀ d ∈ r.finds .closes, p d = b := by
    intro d hd
    unfold finds at hd
    cases hscope : r.scopes.head? with
    | none =>
      rw [hscope] at hd
      cases hd
    | some scope =>
      rw [hscope] at hd
      obtain ⟨l, -, rfl⟩ := List.mem_map.mp hd
      exact hp l
  cases b with
  | true => exact List.filter_eq_self.mpr hall
  | false => exact List.filter_eq_nil_iff.mpr fun d hd => by simp [hall d hd]

/-- A declaration finds a fault if it repeats a name, and no other step does. -/
theorem finds_alreadyDeclared (h : Tracked es k r) (he : es[k]? = some e) (hproper : e.Proper) :
    OneForEach es .alreadyDeclared (fun i => i = k ∧ Repeats es i)
      ((r.finds e).filter Diagnostic.isAlreadyDeclared) := by
  have hother (hne : ∀ word, e ≠ .declares word) :
      OneForEach es .alreadyDeclared (fun i => i = k ∧ Repeats es i) [] := by
    refine .none ?_
    rintro i ⟨rfl, j, word, word', s, -, -, hword, -⟩
    exact hne word (hword.event_eq he)
  cases e with
  | declares word =>
    have hcontains : r.scopes.head?.any (·.contains word.text) = true ↔ Repeats es k := by
      have hinnermost := h.innermost
      generalize hs : (openAt es k).head? = innermost at hinnermost
      generalize r.scopes.head? = scope at hinnermost
      cases hinnermost with
      | none =>
        refine ⟨nofun, ?_⟩
        rintro ⟨j, word, word', s, -, -, hword, -⟩
        have hscope := hword.scope
        rw [hs] at hscope
        cases hscope
      | some htracks =>
        have hword : Declares es k word _ := ⟨he, hs⟩
        rw [hword.repeats_iff, Option.any_some]
        exact htracks.contains_iff hproper
    change OneForEach es .alreadyDeclared _ ((if _ then [Diagnostic.scope word _] else []).filter _)
    split
    · rename_i hcond
      refine (OneForEach.one he).congr fun i => ⟨And.left, ?_⟩
      rintro rfl
      exact ⟨rfl, hcontains.mp hcond⟩
    · rename_i hcond
      refine .none ?_
      rintro i ⟨rfl, hrepeats⟩
      exact hcond (hcontains.mpr hrepeats)
  | reads ref =>
    rw [finds_reads_filter r ref rfl]
    exact hother nofun
  | closes =>
    rw [finds_closes_filter r false fun _ => rfl]
    exact hother nofun
  | stands path node =>
    rw [finds_stands_filter r path node fun d hd => (d.not_of_context hd).1]
    exact hother nofun
  | _ => exact hother nofun

/-- The end of a scope finds its unused locals, and no other step finds any. -/
theorem finds_unusedLocal (h : Tracked es k r) (he : es[k]? = some e) (hproper : AllProper es) :
    OneForEach es .unusedLocal (fun i => es[k]? = some .closes ∧
        ∃ s x, (openAt es k).head? = some s ∧ Names es k s x i ∧ ¬ Used es k i)
      ((r.finds e).filter Diagnostic.isUnusedLocal) := by
  have hother (hne : e ≠ .closes) : OneForEach es .unusedLocal (fun i => es[k]? = some .closes ∧
      ∃ s x, (openAt es k).head? = some s ∧ Names es k s x i ∧ ¬ Used es k i) [] := by
    refine .none fun i hi => hne ?_
    have hcloses := hi.1
    rw [he] at hcloses
    exact Option.some.inj hcloses
  cases e with
  | closes =>
    rw [finds_closes_filter r true fun _ => rfl, if_pos rfl]
    change OneForEach es .unusedLocal _
      ((r.scopes.head?.map fun scope => (unused scope).map unusedFault).getD [])
    have hinnermost := h.innermost
    generalize (openAt es k).head? = innermost at hinnermost
    generalize r.scopes.head? = scope at hinnermost
    cases hinnermost with
    | none =>
      refine .none ?_
      rintro i ⟨-, s, x, hs, -⟩
      cases hs
    | @some s scope htracks =>
      refine (htracks.oneForEach_unused hproper).congr fun i => ⟨?_, ?_⟩
      · rintro ⟨-, s', x, hs, hi⟩
        cases hs
        exact ⟨x, hi⟩
      · rintro ⟨x, hi⟩
        exact ⟨he, s, x, rfl, hi⟩
  | declares word =>
    change OneForEach es .unusedLocal _ ((if _ then [Diagnostic.scope word _] else []).filter _)
    split <;> exact hother nofun
  | reads ref =>
    rw [finds_reads_filter r ref rfl]
    exact hother nofun
  | stands path node =>
    rw [finds_stands_filter r path node fun d hd => (d.not_of_context hd).2]
    exact hother nofun
  | _ => exact hother nofun

/-- Before event `k`, the walk has found each repetition once. -/
theorem found_alreadyDeclared (globals : List String) (hproper : AllProper es)
    (hk : k ≤ es.length) : OneForEach es .alreadyDeclared (fun i => i < k ∧ Repeats es i)
      ((before globals es k).found.filter Diagnostic.isAlreadyDeclared) := by
  induction k with
  | zero => exact .none fun i hi => Nat.not_lt_zero i hi.1
  | succ k ih =>
    have he : es[k]? = some es[k] := List.getElem?_eq_getElem hk
    have hbefore := ih (Nat.le_of_succ_le hk)
    have hstep := finds_alreadyDeclared (tracked_before globals hproper (Nat.le_of_succ_le hk)) he
      (hproper _ (List.getElem_mem hk))
    rw [before_succ he, found_take, List.filter_append]
    refine (hbefore.append hstep fun i hi hi' => Nat.ne_of_lt hi.1 hi'.1).congr fun i => ?_
    rw [Nat.lt_succ_iff_lt_or_eq, or_and_right]

/-- Before event `k`, the walk has found each forgotten local once. -/
theorem found_unusedLocal (globals : List String) (hproper : AllProper es) (hk : k ≤ es.length) :
    OneForEach es .unusedLocal (Forgotten es k)
      ((before globals es k).found.filter Diagnostic.isUnusedLocal) := by
  induction k with
  | zero =>
    refine .none ?_
    rintro i ⟨s, x, hnames, -⟩
    exact Nat.not_lt_zero i hnames.before
  | succ k ih =>
    have he : es[k]? = some es[k] := List.getElem?_eq_getElem hk
    have hbefore := ih (Nat.le_of_succ_le hk)
    have hstep := finds_unusedLocal (tracked_before globals hproper (Nat.le_of_succ_le hk)) he hproper
    rw [before_succ he, found_take, List.filter_append]
    refine (hbefore.append hstep ?_).congr fun i => Event.forgotten_succ
    -- A scope that ends now was open before.
    rintro i ⟨s, x, hnames, hclosed, -⟩ ⟨-, s', x', hs', hnames', -⟩
    obtain ⟨word, hword, -⟩ := hnames.declares
    rw [← hnames'.scope_eq hword] at hs'
    exact hclosed (List.mem_of_mem_head? hs')

end Resolution

end Found

end Scoping

/-! ## Whole programs -/

open Scoping.Event (Declares Forgotten Names OneForEach Repeats Resolves Used openAt)

namespace Program

/-- The walk leaves all scopes that it enters. -/
theorem scopes_walked (p : Program) (globals : List String) : (p.walked globals).scopes = [] := by
  rw [walked, ← Scoping.program_eq_takeAll]
  obtain ⟨body, trailing⟩ := p
  have hbody := Scoping.statements_grows {} body (.start globals)
  cases trailing with
  | none => exact hbody.scopes.nil_iff.mpr rfl
  | some e => exact (hbody.trans (Scoping.expression_grows {} e _)).scopes.nil_iff.mpr rfl

theorem openAt_length {p : Program} (hproper : Scoping.Event.AllProper p.events) :
    openAt p.events p.events.length = [] := by
  have hend := Scoping.Resolution.tracked_before [] hproper (Nat.le_refl p.events.length)
  unfold Scoping.Resolution.Tracked at hend
  rw [before_length, scopes_walked] at hend
  exact List.forall₂_nil_right_iff.mp hend

/-- Where no name is repeated, the forgotten locals are those to which no variable belongs. -/
theorem forgotten_iff {p : Program} (hproper : Scoping.Event.AllProper p.events)
    (hdistinct : ∀ i, ¬ Repeats p.events i) (i : Nat) : Forgotten p.events p.events.length i ↔
      (∃ word s, Declares p.events i word s) ∧ ∀ k hops, ¬ Resolves p.events k i hops := by
  have hused : Used p.events p.events.length i ↔ ∃ k hops, Resolves p.events k i hops := by
    constructor
    · exact fun ⟨k, hops, _, h⟩ => ⟨k, hops, h⟩
    · rintro ⟨k, hops, h⟩
      exact ⟨k, hops, h.lt_length, h⟩
  unfold Forgotten
  rw [openAt_length hproper, hused]
  constructor
  · rintro ⟨s, x, hnames, -, hunused⟩
    obtain ⟨word, hword, -⟩ := hnames.declares
    exact ⟨⟨word, s, hword⟩, fun k hops h => hunused ⟨k, hops, h⟩⟩
  · rintro ⟨⟨word, s, hword⟩, hunused⟩
    have hlt := (List.getElem?_eq_some_iff.mp hword.event).1
    refine ⟨s, word.text, ⟨hlt, ⟨word, hword, rfl⟩, fun j word' hj _ hword' htext => ?_⟩,
      List.not_mem_nil, fun ⟨k, hops, h⟩ => hunused k hops h⟩
    exact hdistinct j ⟨i, word', word, s, hj, hword, hword', htext.symm⟩

end Program

/-- **Repeated and unused locals are reported exactly.** For a program of well-formed trees, among
whatever globals:

* There is one fault of a name that is already declared for each declaration whose name an earlier
  declaration of the same scope has.
* If there is no such declaration, there is one fault of an unused local, at the word that declares
  it, for each local to which no variable belongs that is read or assigned.
* No fault of either kind is about `this` or `super`.
* If no two references have the same number, the table of bindings has each variable bound to the
  local that it belongs to, and no other variable. -/
theorem locals_are_reported_exactly (p : Program) (globals : List String)
    (hstatements : Stmt.AllWellFormed p.statements)
    (htrailing : Expr.AllWellFormed p.trailing.toList) :
    OneForEach p.events .alreadyDeclared (Repeats p.events)
      ((p.scopeFaults globals).filter Diagnostic.isAlreadyDeclared) ∧
    ((∀ i, ¬ Repeats p.events i) →
      OneForEach p.events .unusedLocal
        (fun i => (∃ word s, Declares p.events i word s) ∧ ∀ k hops, ¬ Resolves p.events k i hops)
        ((p.scopeFaults globals).filter Diagnostic.isUnusedLocal)) ∧
    (∀ d ∈ p.scopeFaults globals, ∀ name,
      d.fault = .scope (.alreadyDeclared name) ∨ d.fault = .scope (.unusedLocal name) →
        name ≠ "this" ∧ name ≠ "super") ∧
    (((Scoping.Phrase.statements p.statements).ids ++
        (Scoping.Phrase.expressions p.trailing.toList).ids).Nodup →
      ∀ k e ref hops, p.events[k]? = some e → e.looksUp? = some ref →
        ((p.walked globals).bindings.hops? ref.id = some hops ↔
          ∃ i, Resolves p.events k i hops)) := by
  have hproper := Program.allProper_events hstatements htrailing
  have hsorted (q : Diagnostic → Bool) : ((p.scopeFaults globals).filter q).Perm
      ((p.walked globals).found.filter q) := by
    rw [Program.scopeFaults_eq, filter_sortByNumber]
    exact sortByNumber_perm _ _
  have hrepeated := Scoping.Resolution.found_alreadyDeclared globals hproper
    (Nat.le_refl p.events.length)
  have hunused := Scoping.Resolution.found_unusedLocal globals hproper
    (Nat.le_refl p.events.length)
  rw [Program.before_length] at hrepeated hunused
  replace hrepeated := hrepeated.perm (hsorted _)
  replace hunused := hunused.perm (hsorted _)
  refine ⟨hrepeated.congr fun i => ⟨fun hi => ⟨hi.lt_length, hi⟩, And.right⟩,
    fun hdistinct => hunused.congr fun i => (Program.forgotten_iff hproper hdistinct i).symm,
    fun d hd name hfault => ?_, fun hids k e ref hops he href =>
      Program.hops?_walked globals hproper (Program.nodup_numbers hids) he href⟩
  have hfree : IsFree name := by
    rcases hfault with hfault | hfault
    · have hmem : d ∈ (p.scopeFaults globals).filter Diagnostic.isAlreadyDeclared :=
        List.mem_filter.mpr ⟨hd, by unfold Diagnostic.isAlreadyDeclared; rw [hfault]⟩
      obtain ⟨i, word, -, hword, rfl⟩ := hrepeated.of_mem hmem
      cases hfault
      exact hproper _ (List.mem_of_getElem? hword)
    · have hmem : d ∈ (p.scopeFaults globals).filter Diagnostic.isUnusedLocal :=
        List.mem_filter.mpr ⟨hd, by unfold Diagnostic.isUnusedLocal; rw [hfault]⟩
      obtain ⟨i, word, -, hword, rfl⟩ := hunused.of_mem hmem
      cases hfault
      exact hproper _ (List.mem_of_getElem? hword)
  constructor
  · rintro rfl
    exact this_not_free hfree
  · rintro rfl
    exact super_not_free hfree

/-- A block with a local that is used by a function in it, one that is not, and a `break` besides. -/
theorem unused_parameter_is_reported : ∃ p : Program, Stmt.AllWellFormed p.statements ∧
    Expr.AllWellFormed p.trailing.toList ∧
      p.scopeFaults [] =
        [.scope ⟨"x", 2⟩ (.unusedLocal "x"), .scope ⟨"break", 3⟩ .breakOutsideLoop] ∧
      (∀ i, ¬ Repeats p.events i) ∧
      OneForEach p.events .unusedLocal
        (fun i => (∃ word s, Declares p.events i word s) ∧ ∀ k hops, ¬ Resolves p.events k i hops)
        [.scope ⟨"x", 2⟩ (.unusedLocal "x")] ∧
      p.events[8]? = some (.reads ⟨0, ⟨"a", 2⟩⟩) ∧ ∃ i, Resolves p.events 8 i 1 := by
  let use (id : Nat) (text : String) (line : Nat) : Stmt :=
    .expression (.variable ⟨id, ⟨text, line⟩⟩)
  let p : Program := ⟨[.block [.vars [⟨⟨"a", 1⟩, none⟩],
    .function ⟨"f", 2⟩ ⟨[⟨"x", 2⟩], [use 0 "a" 2]⟩, use 1 "f" 3, .breakLoop ⟨"break", 3⟩]], none⟩
  have hstatements : Stmt.AllWellFormed p.statements := by
    simp only [p, use, Stmt.AllWellFormed, Stmt.WellFormed, Declarator.AllWellFormed,
      Expr.WellFormed]
    decide
  have hfaults : p.scopeFaults [] =
      [.scope ⟨"x", 2⟩ (.unusedLocal "x"), .scope ⟨"break", 3⟩ .breakOutsideLoop] := by
    decide +kernel
  obtain ⟨hrepeated, hunused, -, hbound⟩ := locals_are_reported_exactly p [] hstatements trivial
  rw [hfaults] at hrepeated hunused
  have hnone : List.filter Diagnostic.isAlreadyDeclared
      [.scope ⟨"x", 2⟩ (.unusedLocal "x"), .scope ⟨"break", 3⟩ .breakOutsideLoop] = [] := rfl
  rw [hnone] at hrepeated
  have hdistinct : ∀ i, ¬ Repeats p.events i := hrepeated.not_of_nil fun _ => Repeats.event
  have hread : p.events[8]? = some (.reads ⟨0, ⟨"a", 2⟩⟩) := rfl
  have hhops : (p.walked []).bindings.hops? 0 = some 1 := by decide +kernel
  exact ⟨p, hstatements, trivial, hfaults, hdistinct, hunused hdistinct, hread,
    (hbound (by decide) 8 _ ⟨0, ⟨"a", 2⟩⟩ 1 hread rfl).mp hhops⟩

end ScriptLang
