import Mathlib.Data.List.Nodup
import ScriptLang.Grammar.Statement
import ScriptLang.Proofs.Program.WellFormed
import ScriptLang.Source.Tokens

/-!
# What parsers read

The words of a source are honest: what is an identifier is no keyword, and what is a keyword
is written like it (`Source.tokens_honest`). `Reads act c good` says that a parser that starts
at an honest position ends at one, that the numbers of references only go up, and that a
result is as `good` asks. The rules for it follow the way parsers are built.

A phrase is `Fresh` between two numbers if it is well-formed and its references are numbered
between them, each with a number of its own. What one parser reads after another is fresh
between later numbers, so trees can be put together (`Numbered.append`).
-/

namespace ScriptLang

/-! ## Honest tokens -/

/-- The word of a token is what its kind says. -/
structure Token.Honest (t : Token) : Prop where
  identifier : t.kind = .identifier → IsFree t.lexeme.text
  keyword : ∀ k, t.kind = .keyword k → t.lexeme.text = String.ofList k.spelling

theorem Token.honest_of_other {t : Token} (hidentifier : t.kind ≠ .identifier)
    (hkeyword : ∀ k, t.kind ≠ .keyword k) : t.Honest :=
  ⟨fun h => absurd h hidentifier, fun k h => absurd h (hkeyword k)⟩

theorem Keyword.spelling_of_ofSpelling {cs : List Char} {k : Keyword}
    (h : Keyword.ofSpelling cs = some k) : k.spelling = cs := by
  have hfound := List.find?_some h
  simpa using hfound

namespace Source

theorem Segment.word_eq_ok {s : Segment} {kind : Kind} {t : Token} (h : s.word kind = .ok t) :
    t.kind = kind ∧ t.lexeme.text = String.ofList s.text := by
  unfold Segment.word at h
  dsimp only at h
  split at h
  · cases h
    exact ⟨rfl, rfl⟩
  · split at h
    · cases h
      exact ⟨rfl, rfl⟩
    · cases h
  · cases h
    exact ⟨rfl, rfl⟩

/-- A word of a segment is of the kind that the form of the segment asks for. -/
theorem Segment.token?_cases {s : Segment} {t : Token} (h : s.token? = some t) :
    t.lexeme.text = String.ofList s.text ∧
      ((t.kind ≠ .identifier ∧ ∀ k, t.kind ≠ .keyword k) ∨
        (t.kind = .identifier ∧ Keyword.ofSpelling s.text = none) ∨
        ∃ k, t.kind = .keyword k ∧ Keyword.ofSpelling s.text = some k) := by
  have hword (kind : Kind) (hk : ((s.word kind).mapError (Diagnostic.lexical s.lastLine)).toOption = some t) :
      t.kind = kind ∧ t.lexeme.text = String.ofList s.text := by
    cases hw : s.word kind with
    | ok t' =>
      rw [hw] at hk
      cases hk
      exact word_eq_ok hw
    | error fault =>
      rw [hw] at hk
      cases hk
  unfold Segment.token? Segment.yield at h
  cases hform : s.form with
  | word =>
    rw [hform] at h
    cases hspelling : Keyword.ofSpelling s.text with
    | none =>
      rw [hspelling] at h
      obtain ⟨hkind, htext⟩ := hword .identifier h
      exact ⟨htext, .inr (.inl ⟨hkind, rfl⟩)⟩
    | some k =>
      rw [hspelling] at h
      obtain ⟨hkind, htext⟩ := hword (.keyword k) h
      exact ⟨htext, .inr (.inr ⟨k, hkind, rfl⟩)⟩
  | symbol symbol =>
    rw [hform] at h
    obtain ⟨hkind, htext⟩ := hword (.symbol symbol) h
    exact ⟨htext, .inl (by simp [hkind])⟩
  | string =>
    rw [hform] at h
    obtain ⟨hkind, htext⟩ := hword .string h
    exact ⟨htext, .inl (by simp [hkind])⟩
  | number =>
    rw [hform] at h
    obtain ⟨hkind, htext⟩ := hword .number h
    exact ⟨htext, .inl (by simp [hkind])⟩
  | blank => simp [hform] at h
  | lineComment => simp [hform] at h
  | blockComment => simp [hform] at h
  | unexpected => simp [hform, Except.toOption] at h
  | openString => simp [hform, Except.toOption] at h
  | openComment => simp [hform, Except.toOption] at h

theorem Segment.honest_of_token? {s : Segment} {t : Token} (h : s.token? = some t) :
    t.Honest := by
  obtain ⟨htext, ⟨hidentifier, hkeyword⟩ | ⟨hkind, hspelling⟩ | ⟨k, hkind, hspelling⟩⟩ :=
    token?_cases h
  · exact Token.honest_of_other hidentifier hkeyword
  · refine ⟨fun _ => ?_, fun k hk => ?_⟩
    · unfold IsFree
      rw [htext, String.toList_ofList]
      exact hspelling
    · rw [hkind] at hk
      cases hk
  · refine ⟨fun hk => ?_, fun k' hk' => ?_⟩
    · rw [hkind] at hk
      cases hk
    · rw [hkind] at hk'
      cases hk'
      rw [htext, Keyword.spelling_of_ofSpelling hspelling]

theorem tokens_honest (source : String) : ∀ t ∈ tokens source, t.Honest := by
  intro t ht
  rcases List.mem_append.mp ht with ht | ht
  · obtain ⟨s, -, hs⟩ := List.mem_filterMap.mp ht
    exact Segment.honest_of_token? hs
  · rw [List.mem_singleton] at ht
    subst ht
    exact Token.honest_of_other nofun nofun

end Source

/-! ## Numbers of references -/

/-- Different numbers, from `lo` on and below `hi`. -/
structure Numbered (lo hi : Nat) (ids : List Nat) : Prop where
  le : lo ≤ hi
  nodup : ids.Nodup
  bounds : ∀ id ∈ ids, lo ≤ id ∧ id < hi

namespace Numbered

variable {lo mid hi lo' hi' : Nat} {ids ids' : List Nat}

theorem nil (h : lo ≤ hi) : Numbered lo hi [] := ⟨h, List.nodup_nil, by simp⟩

theorem single (lo : Nat) : Numbered lo (lo + 1) [lo] :=
  ⟨Nat.le_succ lo, by simp, by simp⟩

theorem widen (h : Numbered lo hi ids) (hlo : lo' ≤ lo) (hhi : hi ≤ hi') :
    Numbered lo' hi' ids := by
  refine ⟨by have := h.le; omega, h.nodup, fun id hid => ?_⟩
  have := h.bounds id hid
  omega

theorem perm (h : Numbered lo hi ids) (hp : ids.Perm ids') : Numbered lo hi ids' :=
  ⟨h.le, hp.nodup_iff.mp h.nodup, fun id hid => h.bounds id (hp.mem_iff.mpr hid)⟩

theorem append (h : Numbered lo mid ids) (h' : Numbered mid hi ids') :
    Numbered lo hi (ids ++ ids') := by
  refine ⟨Nat.le_trans h.le h'.le, ?_, fun id hid => ?_⟩
  · refine List.Nodup.append h.nodup h'.nodup fun id hid hid' => ?_
    have := h.bounds id hid
    have := h'.bounds id hid'
    omega
  · have := h.le
    have := h'.le
    rcases List.mem_append.mp hid with hid | hid
    · have := h.bounds id hid
      omega
    · have := h'.bounds id hid
      omega

end Numbered

/-! ## Lists of declarators and methods -/

theorem Declarator.allWellFormed_append {ds ds' : List Declarator}
    (h : Declarator.AllWellFormed ds) (h' : Declarator.AllWellFormed ds') :
    Declarator.AllWellFormed (ds ++ ds') := by
  induction ds with
  | nil => exact h'
  | cons d ds ih =>
    obtain ⟨name, initializer⟩ := d
    cases initializer with
    | none => exact ⟨h.1, ih h.2⟩
    | some e => exact ⟨h.1, h.2.1, ih h.2.2⟩

theorem Method.allWellFormed_append {members members' : List Method}
    (h : Method.AllWellFormed members) (h' : Method.AllWellFormed members') :
    Method.AllWellFormed (members ++ members') := by
  induction members with
  | nil => exact h'
  | cons first members ih =>
    obtain ⟨name, params, body⟩ := first
    exact ⟨h.1, ih h.2⟩

/-! ## Fresh phrases -/

namespace Scoping.Phrase

variable {lo mid hi lo' hi' : Nat} {t : Phrase}

/-- A well-formed phrase whose references have numbers of their own, from `lo` on and below
`hi`. -/
structure Fresh (lo hi : Nat) (t : Phrase) : Prop where
  wellFormed : t.WellFormed
  numbered : Numbered lo hi t.ids

theorem Fresh.widen (h : t.Fresh lo hi) (hlo : lo' ≤ lo) (hhi : hi ≤ hi') : t.Fresh lo' hi' :=
  ⟨h.wellFormed, h.numbered.widen hlo hhi⟩

theorem fresh_noExpressions (h : lo ≤ hi) : (expressions []).Fresh lo hi :=
  ⟨trivial, .nil h⟩

theorem fresh_noStatements (h : lo ≤ hi) : (statements []).Fresh lo hi := ⟨trivial, .nil h⟩

theorem fresh_noDeclarators (h : lo ≤ hi) : (declarators []).Fresh lo hi := ⟨trivial, .nil h⟩

theorem fresh_noMethods (h : lo ≤ hi) : (methods []).Fresh lo hi := ⟨trivial, .nil h⟩

theorem ids_expressions_concat (es : List Expr) (e : Expr) :
    (expressions (es ++ [e])).ids = (expressions es).ids ++ (expression e).ids := by
  induction es with
  | nil => simp
  | cons first es ih => simp [ih]

theorem ids_statements_append (body body' : List Stmt) :
    (statements (body ++ body')).ids = (statements body).ids ++ (statements body').ids := by
  induction body with
  | nil => simp
  | cons s body ih => simp [ih]

theorem ids_declarators_append (ds ds' : List Declarator) :
    (declarators (ds ++ ds')).ids = (declarators ds).ids ++ (declarators ds').ids := by
  induction ds with
  | nil => simp
  | cons d ds ih =>
    obtain ⟨name, initializer⟩ := d
    cases initializer <;> simp [ih]

theorem ids_methods_append (members members' : List Method) :
    (methods (members ++ members')).ids = (methods members).ids ++ (methods members').ids := by
  induction members with
  | nil => simp
  | cons first members ih =>
    obtain ⟨name, routine⟩ := first
    simp only [List.cons_append, ids_methods, ih, List.append_assoc]

theorem Fresh.concatExpression {es : List Expr} {e : Expr} (h : (expressions es).Fresh lo mid)
    (he : (expression e).Fresh mid hi) : (expressions (es ++ [e])).Fresh lo hi := by
  refine ⟨Expr.allWellFormed_iff.mpr fun x hx => ?_, ?_⟩
  · rcases List.mem_append.mp hx with hx | hx
    · exact Expr.allWellFormed_iff.mp h.wellFormed x hx
    · rw [List.mem_singleton] at hx
      subst hx
      exact he.wellFormed
  · rw [ids_expressions_concat]
    exact h.numbered.append he.numbered

theorem Fresh.appendStatements {body body' : List Stmt} (h : (statements body).Fresh lo mid)
    (h' : (statements body').Fresh mid hi) : (statements (body ++ body')).Fresh lo hi := by
  refine ⟨Stmt.allWellFormed_iff.mpr fun s hs => ?_, ?_⟩
  · rcases List.mem_append.mp hs with hs | hs
    · exact Stmt.allWellFormed_iff.mp h.wellFormed s hs
    · exact Stmt.allWellFormed_iff.mp h'.wellFormed s hs
  · rw [ids_statements_append]
    exact h.numbered.append h'.numbered

theorem Fresh.appendDeclarators {ds ds' : List Declarator} (h : (declarators ds).Fresh lo mid)
    (h' : (declarators ds').Fresh mid hi) : (declarators (ds ++ ds')).Fresh lo hi := by
  refine ⟨Declarator.allWellFormed_append h.wellFormed h'.wellFormed, ?_⟩
  rw [ids_declarators_append]
  exact h.numbered.append h'.numbered

theorem Fresh.appendMethods {members members' : List Method} (h : (methods members).Fresh lo mid)
    (h' : (methods members').Fresh mid hi) : (methods (members ++ members')).Fresh lo hi := by
  refine ⟨Method.allWellFormed_append h.wellFormed h'.wellFormed, ?_⟩
  rw [ids_methods_append]
  exact h.numbered.append h'.numbered

end Scoping.Phrase

/-! ## Reading -/

namespace Grammar

variable {α β : Type}

/-- Every token that is still to be read is honest. -/
def Cursor.Honest (c : Cursor) : Prop := ∀ t ∈ c.rest, t.Honest

/-- However a parser ends, the tokens left are honest and no number is used twice, and a
result is as `good` asks. -/
def Reads (act : Parser α) (c : Cursor) (good : α → Cursor → Prop) : Prop :=
  match act c with
  | .ok a c' => c'.Honest ∧ c.nextRef ≤ c'.nextRef ∧ good a c'
  | .error _ c' => c'.Honest ∧ c.nextRef ≤ c'.nextRef

section Rules

variable {act : Parser α} {next : α → Parser β} {c : Cursor}
variable {good good' : α → Cursor → Prop} {after : β → Cursor → Prop}

theorem Reads.of_ok (h : Reads act c good) {a : α} {c' : Cursor} (hact : act c = .ok a c') :
    c'.Honest ∧ c.nextRef ≤ c'.nextRef ∧ good a c' := by
  unfold Reads at h
  rwa [hact] at h

theorem Reads.of_error (h : Reads act c good) {stop : Stop} {c' : Cursor}
    (hact : act c = .error stop c') : c'.Honest ∧ c.nextRef ≤ c'.nextRef := by
  unfold Reads at h
  rwa [hact] at h

theorem reads_of_ok {a : α} {c' : Cursor} (hact : act c = .ok a c') (hc' : c'.Honest)
    (hle : c.nextRef ≤ c'.nextRef) (hgood : good a c') : Reads act c good := by
  unfold Reads
  rw [hact]
  exact ⟨hc', hle, hgood⟩

/-- A parser that does what another one does from a later position on. -/
theorem Reads.of_eq {act' : Parser α} {c' : Cursor} (h : Reads act' c' good)
    (heq : act c = act' c') (hle : c.nextRef ≤ c'.nextRef) : Reads act c good := by
  unfold Reads
  rw [heq]
  cases hend : act' c' with
  | ok a c'' =>
    obtain ⟨hc'', hle', hgood⟩ := h.of_ok hend
    exact ⟨hc'', Nat.le_trans hle hle', hgood⟩
  | error stop c'' =>
    obtain ⟨hc'', hle'⟩ := h.of_error hend
    exact ⟨hc'', Nat.le_trans hle hle'⟩

theorem bind_eq_match (act : Parser α) (next : α → Parser β) (c : Cursor) :
    (act >>= next) c = match act c with
      | .ok a c' => next a c'
      | .error stop c' => .error stop c' := by
  change EStateM.bind act next c = _
  unfold EStateM.bind
  cases act c <;> rfl

theorem Reads.mono (h : Reads act c good) (hgood : ∀ a c', good a c' → good' a c') :
    Reads act c good' := by
  unfold Reads
  cases hend : act c with
  | ok a c' =>
    obtain ⟨hc', hle, ha⟩ := h.of_ok hend
    exact ⟨hc', hle, hgood a c' ha⟩
  | error stop c' => exact h.of_error hend

theorem reads_pure {a : α} (hc : c.Honest) (h : good a c) : Reads (pure a) c good :=
  ⟨hc, Nat.le_refl _, h⟩

theorem reads_bind (hact : Reads act c good)
    (hnext : ∀ a c', c'.Honest → c.nextRef ≤ c'.nextRef → good a c' →
      Reads (next a) c' after) : Reads (act >>= next) c after := by
  cases hend : act c with
  | ok a c' =>
    obtain ⟨hc', hle, hgood⟩ := hact.of_ok hend
    refine (hnext a c' hc' hle hgood).of_eq ?_ hle
    rw [bind_eq_match, hend]
  | error stop c' =>
    unfold Reads
    rw [bind_eq_match, hend]
    exact hact.of_error hend

theorem reads_map {f : α → β} (hact : Reads act c good) :
    Reads (f <$> act) c fun b c' => ∃ a, b = f a ∧ good a c' := by
  change Reads (act >>= fun a => pure (f a)) c _
  exact reads_bind hact fun a c' hc' _ ha => reads_pure hc' ⟨a, rfl, ha⟩

end Rules

/-! ## Single tokens -/

section Tokens

variable {c : Cursor} {good : α → Cursor → Prop}

theorem Cursor.Honest.next (hc : c.Honest) : c.next.Honest := by
  unfold Cursor.next
  cases hrest : c.rest with
  | nil => exact Token.honest_of_other nofun nofun
  | cons t rest =>
    refine hc t ?_
    rw [hrest]
    exact List.mem_cons_self

theorem Cursor.Honest.advance (hc : c.Honest) : c.advance.Honest :=
  fun t ht => hc t (List.mem_of_mem_tail ht)

theorem reads_exhausted (hc : c.Honest) : Reads (exhausted : Parser α) c good :=
  ⟨hc, Nat.le_refl _⟩

theorem reads_failHere {fault : GrammarFault} (hc : c.Honest) :
    Reads (failHere fault : Parser α) c good := ⟨hc, Nat.le_refl _⟩

theorem reads_reportAt {token : Token} {fault : GrammarFault} (hc : c.Honest) :
    Reads (reportAt token fault) c fun _ _ => True := ⟨hc, Nat.le_refl _, trivial⟩

theorem reads_reportHere {fault : GrammarFault} (hc : c.Honest) :
    Reads (reportHere fault) c fun _ _ => True := ⟨hc, Nat.le_refl _, trivial⟩

theorem reads_take (hc : c.Honest) : Reads take c fun t _ => t = c.next :=
  ⟨hc.advance, Nat.le_refl _, rfl⟩

theorem reads_peek (hc : c.Honest) : Reads peek c fun _ _ => True := ⟨hc, Nat.le_refl _, trivial⟩

theorem reads_looksAt {kind : Kind} (hc : c.Honest) : Reads (looksAt kind) c fun _ _ => True :=
  ⟨hc, Nat.le_refl _, trivial⟩

theorem reads_skip {kind : Kind} (hc : c.Honest) : Reads (skip kind) c fun _ _ => True := by
  unfold Reads skip
  by_cases hkind : c.kind = kind
  · simp only [hkind, if_true]
    exact ⟨hc.advance, Nat.le_refl _, trivial⟩
  · simp only [hkind, if_false]
    exact ⟨hc, Nat.le_refl _, trivial⟩

theorem reads_symbol {place : SymbolPlace} (hc : c.Honest) :
    Reads (symbol place) c fun _ _ => True := by
  unfold Reads symbol
  by_cases hkind : c.kind = .symbol place.symbol
  · simp only [hkind, if_true]
    exact ⟨hc.advance, Nat.le_refl _, trivial⟩
  · simp only [hkind, if_false]
    exact ⟨hc, Nat.le_refl _⟩

/-- What is read as an identifier is no keyword. -/
theorem reads_identifier {place : NamePlace} (hc : c.Honest) :
    Reads (identifier place) c fun word _ => IsFree word.text := by
  unfold Reads identifier
  by_cases hkind : c.kind = .identifier
  · simp only [hkind, if_true]
    exact ⟨hc.advance, Nat.le_refl _, hc.next.identifier hkind⟩
  · simp only [hkind, if_false]
    exact ⟨hc, Nat.le_refl _⟩

theorem reads_fresh {word : Lexeme} (hc : c.Honest) :
    Reads (fresh word) c fun ref c' =>
      ref.word = word ∧ Numbered c.nextRef c'.nextRef [ref.id] :=
  ⟨hc, Nat.le_succ _, rfl, .single _⟩

end Tokens

end Grammar

end ScriptLang
