import ScriptLang.Proofs.Program.Lines

/-!
# Lines of scoping faults

A scoping fault is at a word of the program: the reference or the jump that is at fault, or the word
that declared a local, which its scope remembers until it is left. So if `P` holds of the lines of
all words of a phrase, the walk over it keeps to such lines (`Resolution.On`), and so do the faults
of a program (`Program.lines_of_resolve`).
-/

namespace ScriptLang

/-! ## Sorting -/

section Sorting

variable {α : Type} {x y : α} {xs : List α}

theorem mem_insertBy {before : α → α → Bool} (h : y ∈ insertBy before x xs) : y = x ∨ y ∈ xs := by
  induction xs with
  | nil => exact .inl (List.mem_singleton.mp h)
  | cons z xs ih =>
    unfold insertBy at h
    split at h
    · exact List.mem_cons.mp h
    · rcases List.mem_cons.mp h with rfl | h
      · exact .inr List.mem_cons_self
      · exact (ih h).imp_right (List.mem_cons_of_mem _)

/-- Sorting adds nothing. -/
theorem mem_of_mem_sortByNumber {number : α → Nat} (h : x ∈ sortByNumber number xs) : x ∈ xs := by
  unfold sortByNumber sortBy at h
  induction xs with
  | nil => exact h
  | cons y xs ih =>
    rw [List.foldr_cons] at h
    rcases mem_insertBy h with rfl | h
    · exact List.mem_cons_self
    · exact List.mem_cons_of_mem _ (ih h)

end Sorting

/-! ## Tables -/

namespace Slots

variable {α : Type} {s : Slots α} {name : String} {v : α} {entry : String × α}

theorem mem_set (h : entry ∈ (s.set name v).entries) : entry.2 = v ∨ entry ∈ s.entries := by
  obtain ⟨entries⟩ := s
  change entry ∈ write name v entries at h
  change _ ∨ entry ∈ entries
  induction entries with
  | nil =>
    rw [List.mem_singleton.mp h]
    exact .inl rfl
  | cons first entries ih =>
    obtain ⟨n, w⟩ := first
    unfold write at h
    split at h
    · rcases List.mem_cons.mp h with rfl | h
      · exact .inl rfl
      · exact .inr (List.mem_cons_of_mem _ h)
    · rcases List.mem_cons.mp h with rfl | h
      · exact .inr List.mem_cons_self
      · exact (ih h).imp_right (List.mem_cons_of_mem _)

theorem mem_modify {f : α → α} (h : entry ∈ (s.modify name f).entries) :
    (∃ other ∈ s.entries, entry.2 = f other.2) ∨ entry ∈ s.entries := by
  unfold modify at h
  cases hv : s.get? name with
  | none =>
    rw [hv] at h
    exact .inr h
  | some v =>
    rw [hv] at h
    exact (mem_set h).imp_left fun heq => ⟨(name, v), mem_of_get? hv, heq⟩

end Slots

namespace Scoping

variable {P : Nat → Prop}

/-! ## Scopes -/

/-- The words that declared the names of the scope are on lines of which `P` holds. -/
def Scope.On (P : Nat → Prop) (s : Scope) : Prop := ∀ entry ∈ s.entries, P entry.2.word.line

theorem Scope.on_empty : Scope.On P Slots.empty := nofun

theorem Scope.On.set {s : Scope} (h : Scope.On P s) {name : String} {l : Local}
    (hl : P l.word.line) : Scope.On P (s.set name l) := by
  intro entry hentry
  rcases Slots.mem_set hentry with heq | hmem
  · rwa [heq]
  · exact h entry hmem

theorem Scope.On.modify {s : Scope} (h : Scope.On P s) {name : String} {f : Local → Local}
    (hf : ∀ l, (f l).word = l.word) : Scope.On P (s.modify name f) := by
  intro entry hentry
  rcases Slots.mem_modify hentry with ⟨other, hother, heq⟩ | hmem
  · rw [heq, hf]
    exact h other hother
  · exact h entry hmem

/-- What is never used in a scope was declared by one of its words. -/
theorem Scope.On.unused {s : Scope} (h : Scope.On P s) :
    ∀ l ∈ Resolution.unused s, P l.word.line := by
  intro l hl
  obtain ⟨hmem, -⟩ := List.mem_filter.mp (mem_of_mem_sortByNumber hl)
  obtain ⟨entry, hentry, rfl⟩ := List.mem_map.mp hmem
  exact h entry hentry

/-! ## Resolutions -/

namespace Resolution

/-- `P` holds of the lines of the faults and of the words that declared the names in scope. -/
structure On (P : Nat → Prop) (r : Resolution) : Prop where
  scopes : ∀ s ∈ r.scopes, Scope.On P s
  found : ∀ d ∈ r.found, P d.line

namespace On

variable {r r' : Resolution} {word name : Lexeme} {ref : Ref}

theorem start (globals : List String) : (Resolution.start globals).On P := ⟨nofun, nofun⟩

theorem report (h : r.On P) (hword : P word.line) {fault : ScopeFault} :
    (r.report word fault).On P := by
  refine ⟨h.scopes, fun d hd => ?_⟩
  rcases List.mem_append.mp hd with hd | hd
  · exact h.found d hd
  · rwa [List.mem_singleton.mp hd]

theorem enter (h : r.On P) {s : Scope} (hs : Scope.On P s) : (r.enter s).On P :=
  ⟨List.forall_mem_cons.mpr ⟨hs, h.scopes⟩, h.found⟩

theorem leave (h : r.On P) : r.leave.On P := by
  have hreports (ls : List Local) (hls : ∀ l ∈ ls, P l.word.line) (r : Resolution) (hr : r.On P) :
      (ls.foldl (fun r l => r.report l.word (.unusedLocal l.word.text)) r).On P := by
    induction ls generalizing r with
    | nil => exact hr
    | cons l ls ih =>
      obtain ⟨hl, hrest⟩ := List.forall_mem_cons.mp hls
      exact ih hrest _ (hr.report hl)
  unfold Resolution.leave
  cases hscopes : r.scopes with
  | nil => exact h
  | cons s ss =>
    obtain ⟨hs, hss⟩ := List.forall_mem_cons.mp (hscopes ▸ h.scopes)
    exact hreports _ hs.unused _ ⟨hss, h.found⟩

theorem declare (h : r.On P) (hword : P word.line) : (r.declare word).On P := by
  unfold Resolution.declare
  cases hscopes : r.scopes with
  | nil => exact ⟨by simp, h.found⟩
  | cons s ss =>
    obtain ⟨hs, hss⟩ := List.forall_mem_cons.mp (hscopes ▸ h.scopes)
    have hmore : ∀ s' ∈ s.set word.text ⟨word, false, false, s.size⟩ :: ss, Scope.On P s' :=
      List.forall_mem_cons.mpr ⟨hs.set hword, hss⟩
    dsimp only
    split
    · exact ⟨hmore, (h.report hword).found⟩
    · exact ⟨hmore, h.found⟩

theorem define (h : r.On P) : (r.define word).On P := by
  unfold Resolution.define
  cases hscopes : r.scopes with
  | nil => exact h
  | cons s ss =>
    obtain ⟨hs, hss⟩ := List.forall_mem_cons.mp (hscopes ▸ h.scopes)
    exact ⟨List.forall_mem_cons.mpr ⟨hs.modify fun _ => rfl, hss⟩, h.found⟩

theorem declareAll (h : r.On P) {words : List Lexeme} (hwords : ∀ word ∈ words, P word.line) :
    (r.declareAll words).On P := by
  induction words generalizing r with
  | nil => exact h
  | cons word words ih =>
    obtain ⟨hword, hrest⟩ := List.forall_mem_cons.mp hwords
    exact ih (h.declare hword).define hrest

theorem bind? (h : r.On P) {skipped : Nat} (hr' : r.bind? ref skipped = some r') : r'.On P := by
  unfold Resolution.bind? at hr'
  split at hr'
  · cases hr'
  · cases hr'
    refine ⟨fun s hs => ?_, h.found⟩
    obtain ⟨i, hi⟩ := List.mem_iff_getElem?.mp hs
    rw [List.getElem?_modify] at hi
    obtain ⟨s₀, hs₀, hmodified⟩ := Option.map_eq_some_iff.mp hi
    have hs₀ := h.scopes s₀ (List.mem_of_getElem? hs₀)
    split at hmodified
    · exact hmodified ▸ hs₀.modify fun _ => rfl
    · exact hmodified ▸ hs₀

theorem refer (h : r.On P) : (r.refer ref).On P := by
  unfold Resolution.refer
  cases hr' : r.bind? ref with
  | none => exact h
  | some r' => exact h.bind? hr'

theorem read (h : r.On P) (href : P ref.word.line) : (r.read ref).On P := by
  unfold Resolution.read
  split
  · split
    · rename_i r' hr'
      exact h.bind? hr'
    · split
      · exact h
      · exact h.report href
  · exact h.refer

theorem referThis (h : r.On P) {around : Surroundings} (href : P ref.word.line) :
    (r.referThis around ref).On P := by
  unfold Resolution.referThis
  split
  · exact h.report href
  · exact h.refer

theorem referSuper (h : r.On P) {around : Surroundings} (href : P ref.word.line) :
    (r.referSuper around ref).On P := by
  unfold Resolution.referSuper
  split
  · exact (h.report href).refer
  · exact (h.report href).refer
  · exact h.refer

theorem checkBreak (h : r.On P) {around : Surroundings} (hword : P word.line) :
    (r.checkBreak around word).On P := by
  unfold Resolution.checkBreak
  split
  · exact h
  · exact h.report hword

theorem checkReturn (h : r.On P) {around : Surroundings} (hword : P word.line) {hasValue : Bool} :
    (r.checkReturn around word hasValue).On P := by
  unfold Resolution.checkReturn
  split
  · exact h.report hword
  · split
    · exact h.report hword
    · exact h
  · exact h

theorem implicitly {x : String} (hname : P name.line) : Scope.On P (Resolution.implicitly x name) :=
  Scope.on_empty.set hname

theorem enterClass (h : r.On P) (hname : P name.line) {superclass : Option Ref}
    (href : ∀ ref ∈ superclass, P ref.word.line) : (r.enterClass name superclass).On P := by
  unfold Resolution.enterClass
  cases superclass with
  | none => exact h.enter (implicitly hname)
  | some ref =>
    have href := href ref rfl
    refine ((read ?_ href).enter (implicitly hname)).enter (implicitly hname)
    split
    · exact h.report href
    · exact h

theorem leaveClass (h : r.On P) {superclass : Option Ref} : (r.leaveClass superclass).On P := by
  unfold Resolution.leaveClass
  split
  · exact h.leave.leave
  · exact h.leave

end On

end Resolution

/-! ## The walk -/

mutual

theorem expression_on (around : Surroundings) :
    ∀ e r, e.On P → r.On P → (expression around e r).On P
  | .literal _, _, _, hr => hr
  | .variable _, _, h, hr => hr.read h
  | .assign _ value, r, h, hr => (expression_on around value r h.2 hr).refer
  | .unary _ _ operand, r, h, hr => expression_on around operand r h.2 hr
  | .binary _ _ left right, r, h, hr =>
    expression_on around right _ h.2.2 (expression_on around left r h.2.1 hr)
  | .logical _ _ left right, r, h, hr =>
    expression_on around right _ h.2.2 (expression_on around left r h.2.1 hr)
  | .comma left right, r, h, hr =>
    expression_on around right _ h.2 (expression_on around left r h.1 hr)
  | .conditional condition whenTrue whenFalse, r, h, hr =>
    expression_on around whenFalse _ h.2.2
      (expression_on around whenTrue _ h.2.1 (expression_on around condition r h.1 hr))
  | .grouping inner, r, h, hr => expression_on around inner r h hr
  | .call callee arguments _, r, h, hr =>
    expressions_on around arguments _ h.2.1 (expression_on around callee r h.1 hr)
  | .get object _, r, h, hr => expression_on around object r h.1 hr
  | .set object _ value, r, h, hr =>
    expression_on around object _ h.1 (expression_on around value r h.2.2 hr)
  | .this _, _, h, hr => hr.referThis h
  | .super _ _, _, h, hr => hr.referSuper h.1
  | .function ⟨params, body⟩, r, h, hr =>
    routineBody_on (around.within .function) ⟨params, body⟩ r h hr

theorem expressions_on (around : Surroundings) :
    ∀ es r, Expr.AllOn P es → r.On P → (expressions around es r).On P
  | [], _, _, hr => hr
  | e :: es, r, h, hr => expressions_on around es _ h.2 (expression_on around e r h.1 hr)

theorem statement_on (around : Surroundings) :
    ∀ s r, s.On P → r.On P → (statement around s r).On P
  | .expression e, r, h, hr => expression_on around e r h hr
  | .print e, r, h, hr => expression_on around e r h hr
  | .vars ds, r, h, hr => declarators_on around ds r h hr
  | .block body, _, h, hr => (statements_on around body _ h (hr.enter Scope.on_empty)).leave
  | .ifElse condition whenTrue none, r, h, hr =>
    statement_on around whenTrue _ h.2 (expression_on around condition r h.1 hr)
  | .ifElse condition whenTrue (some whenFalse), r, h, hr =>
    statement_on around whenFalse _ h.2.2
      (statement_on around whenTrue _ h.2.1 (expression_on around condition r h.1 hr))
  | .whileLoop condition body, r, h, hr =>
    statement_on { around with inLoop := true } body _ h.2 (expression_on around condition r h.1 hr)
  | .breakLoop _, _, h, hr => hr.checkBreak h
  | .returnFrom _ none, _, h, hr => hr.checkReturn h
  | .returnFrom _ (some e), _, h, hr => expression_on around e _ h.2 (hr.checkReturn h.1)
  | .function _ ⟨params, body⟩, _, h, hr =>
    routineBody_on (around.within .function) ⟨params, body⟩ _ h.2 (hr.declare h.1).define
  | .class _ _ members, _, h, hr =>
    (methods_on _ members _ h.2.2 ((hr.declare h.1).define.enterClass h.1 h.2.1)).leaveClass

theorem statements_on (around : Surroundings) :
    ∀ body r, Stmt.AllOn P body → r.On P → (statements around body r).On P
  | [], _, _, hr => hr
  | s :: rest, r, h, hr => statements_on around rest _ h.2 (statement_on around s r h.1 hr)

theorem declarators_on (around : Surroundings) :
    ∀ ds r, Declarator.AllOn P ds → r.On P → (declarators around ds r).On P
  | [], _, _, hr => hr
  | ⟨_, none⟩ :: rest, _, h, hr => declarators_on around rest _ h.2 (hr.declare h.1).define
  | ⟨_, some e⟩ :: rest, _, h, hr =>
    declarators_on around rest _ h.2.2 (expression_on around e _ h.2.1 (hr.declare h.1)).define

theorem methods_on (around : Surroundings) :
    ∀ members r, Method.AllOn P members → r.On P → (methods around members r).On P
  | [], _, _, hr => hr
  | ⟨name, ⟨params, body⟩⟩ :: rest, r, h, hr =>
    methods_on around rest _ h.2.2
      (routineBody_on (around.within (.ofMethod name.text)) ⟨params, body⟩ r h.2.1 hr)

theorem routineBody_on (around : Surroundings) :
    ∀ routine r, routine.On P → r.On P → (routineBody around routine r).On P
  | ⟨_, body⟩, _, h, hr =>
    (statements_on around body _ h.2 ((hr.enter Scope.on_empty).declareAll h.1)).leave

end

end Scoping

/-- The scoping faults of a program are on lines of its words. -/
theorem Program.lines_of_resolve {P : Nat → Prop} {p : Program} {globals : List String}
    {ds : List Diagnostic} (hp : p.On P) (h : p.resolve globals = .error ds) :
    ∀ d ∈ ds, P d.line := by
  have hstatements := Scoping.statements_on {} p.statements _ hp.statements
    (Scoping.Resolution.On.start globals)
  have hprogram : (Scoping.program p (.start globals)).On P := by
    unfold Scoping.program
    cases htrailing : p.trailing with
    | none => exact hstatements
    | some e => exact Scoping.expression_on {} e _ (hp.trailing e htrailing) hstatements
  unfold resolve at h
  dsimp only at h
  split at h
  · cases h
  · cases h
    exact fun d hd => hprogram.found d (mem_of_mem_sortByNumber hd)

end ScriptLang
