import ScriptLang.Proofs.Grammar.Reading
import ScriptLang.Proofs.Grammar.Words

/-!
# Spelling

A symbol in a source is spelled like that symbol, and a token for a constant stands for a
constant of its kind. With what is known of identifiers and keywords, a token is as exact as it
can be: its kind says how it is spelled, unless it is an identifier or a constant
(`Source.tokens_exact`).
-/

namespace ScriptLang

/-- The token is spelled as its kind says, and stands for a constant of its kind. -/
structure Token.Exact (t : Token) : Prop extends t.Honest where
  symbol : ∀ s, t.kind = .symbol s → t.lexeme.text = String.ofList s.spelling
  number : t.kind = .number → ∃ x, t.literal = .number x
  string : t.kind = .string → ∃ s, t.literal = .string s

theorem Token.Exact.word_symbol {t : Token} {s : Symbol} (ht : t.Exact)
    (hkind : t.kind = .symbol s) : t.word = s.word := by
  unfold Token.word Symbol.word
  rw [hkind, ht.symbol s hkind]

theorem Token.Exact.word_keyword {t : Token} {k : Keyword} (ht : t.Exact)
    (hkind : t.kind = .keyword k) : t.word = k.word := by
  unfold Token.word Keyword.word
  rw [hkind, ht.keyword k hkind]

theorem Symbol.spelling_of_ofSpelling {cs : List Char} {s : Symbol}
    (h : Symbol.ofSpelling cs = some s) : s.spelling = cs := by
  have hfound := List.find?_some h
  simpa using hfound

namespace Source

/-! ## Segments -/

/-- A segment that is a symbol is spelled like it. -/
def Segment.Spelled (s : Segment) : Prop := ∀ symbol, s.form = .symbol symbol → s.text = symbol.spelling

theorem spelled_measureSlash {cs : List Char} {symbol : Symbol}
    (h : (measureSlash cs).1 = .symbol symbol) :
    '/' :: cs.take (measureSlash cs).2 = symbol.spelling := by
  unfold measureSlash at h ⊢
  split at h
  · cases h
  · split at h <;> cases h
  · cases h
    rfl

theorem spelled_measureSymbol {c : Char} {cs : List Char} {symbol : Symbol}
    (h : (measureSymbol c cs).1 = .symbol symbol) :
    c :: cs.take (measureSymbol c cs).2 = symbol.spelling := by
  unfold measureSymbol at h ⊢
  cases hlong : cs.head?.bind (fun d => Symbol.ofSpelling [c, d]) with
  | some s =>
    simp only [hlong] at h ⊢
    cases h
    obtain ⟨d, hd, hs⟩ := Option.bind_eq_some_iff.mp hlong
    obtain ⟨cs', rfl⟩ := List.head?_eq_some_iff.mp hd
    exact (Symbol.spelling_of_ofSpelling hs).symm
  | none =>
    simp only [hlong] at h ⊢
    cases hshort : Symbol.ofSpelling [c] with
    | none => simp [hshort] at h
    | some s =>
      simp only [hshort] at h ⊢
      cases h
      exact (Symbol.spelling_of_ofSpelling hshort).symm

theorem spelled_measure {c : Char} {cs : List Char} {line : Nat} :
    Segment.Spelled ⟨(measure c cs).1, line, c :: cs.take (measure c cs).2⟩ := by
  intro symbol
  change (measure c cs).1 = .symbol symbol → c :: cs.take (measure c cs).2 = symbol.spelling
  unfold measure
  split
  · exact nofun
  · split
    · rename_i hslash
      subst hslash
      exact spelled_measureSlash
    · split
      · unfold measureQuote
        dsimp only
        split <;> exact nofun
      · split
        · exact nofun
        · split
          · exact nofun
          · exact spelled_measureSymbol

theorem spelled_segmentsFrom {fuel line : Nat} {cs : List Char} {done : List Segment}
    (hdone : ∀ s ∈ done, s.Spelled) : ∀ s ∈ segmentsFrom fuel line cs done, s.Spelled := by
  induction fuel generalizing line cs done with
  | zero => simpa [segmentsFrom] using hdone
  | succ fuel ih =>
    cases cs with
    | nil => simpa [segmentsFrom] using hdone
    | cons c cs =>
      rw [segmentsFrom]
      refine ih fun s hs => ?_
      rcases List.mem_cons.mp hs with rfl | hs
      · exact spelled_measure
      · exact hdone s hs

/-! ## Tokens -/

theorem Segment.literal_of_word {s : Segment} {kind : Kind} {t : Token}
    (h : s.word kind = .ok t) :
    (kind = .number → ∃ x, t.literal = .number x) ∧
      (kind = .string → ∃ x, t.literal = .string x) := by
  unfold Segment.word at h
  dsimp only at h
  split at h
  · cases h
    exact ⟨nofun, fun _ => ⟨_, rfl⟩⟩
  · split at h
    · cases h
      exact ⟨fun _ => ⟨_, rfl⟩, nofun⟩
    · cases h
  · rename_i hstring hnumber
    exact ⟨fun hk => absurd hk hnumber, fun hk => absurd hk hstring⟩

/-- The kind of token that a segment of a form makes. -/
def Segment.kind? (s : Segment) : Option Kind :=
  match s.form with
  | .symbol symbol => some (.symbol symbol)
  | .string => some .string
  | .number => some .number
  | .word => some (match Keyword.ofSpelling s.text with
    | some keyword => .keyword keyword
    | none => .identifier)
  | _ => none

/-- A token is the word of a segment, of the kind that the form of the segment asks for. -/
theorem Segment.word_of_token? {s : Segment} {t : Token} (h : s.token? = some t) :
    s.kind? = some t.kind ∧ s.word t.kind = .ok t := by
  have hword (kind : Kind)
      (hk : ((s.word kind).mapError (Diagnostic.lexical s.lastLine)).toOption = some t) :
      some kind = some t.kind ∧ s.word t.kind = .ok t := by
    cases hw : s.word kind with
    | ok t' =>
      rw [hw] at hk
      cases hk
      rw [(word_eq_ok hw).1]
      exact ⟨rfl, hw⟩
    | error fault =>
      rw [hw] at hk
      cases hk
  unfold Segment.token? Segment.yield at h
  unfold Segment.kind?
  cases hform : s.form with
  | word =>
    rw [hform] at h
    exact hword _ h
  | symbol symbol =>
    rw [hform] at h
    exact hword _ h
  | string =>
    rw [hform] at h
    exact hword _ h
  | number =>
    rw [hform] at h
    exact hword _ h
  | blank => simp [hform] at h
  | lineComment => simp [hform] at h
  | blockComment => simp [hform] at h
  | unexpected => simp [hform, Except.toOption] at h
  | openString => simp [hform, Except.toOption] at h
  | openComment => simp [hform, Except.toOption] at h

theorem Segment.form_of_kind? {s : Segment} {symbol : Symbol}
    (h : s.kind? = some (.symbol symbol)) : s.form = .symbol symbol := by
  unfold Segment.kind? at h
  split at h
  · cases h
    assumption
  · cases h
  · cases h
  · split at h <;> cases h
  · cases h

theorem Segment.kind?_ne_end {s : Segment} : s.kind? ≠ some .endOfInput := by
  unfold Segment.kind?
  split
  · simp
  · simp
  · simp
  · split <;> simp
  · simp

theorem tokens_exact (source : String) : ∀ t ∈ tokens source, t.Exact := by
  intro t ht
  have hhonest := tokens_honest source t ht
  rcases List.mem_append.mp ht with ht | ht
  · obtain ⟨s, hs, hst⟩ := List.mem_filterMap.mp ht
    obtain ⟨hkind, hword⟩ := Segment.word_of_token? hst
    obtain ⟨hnumber, hstring⟩ := Segment.literal_of_word hword
    refine ⟨hhonest, fun symbol hk => ?_, hnumber, hstring⟩
    have hspelled : s.Spelled := spelled_segmentsFrom (by simp) s hs
    rw [hk] at hkind
    rw [(Segment.word_eq_ok hword).2, hspelled symbol (Segment.form_of_kind? hkind)]
  · rw [List.mem_singleton] at ht
    subst ht
    exact ⟨hhonest, nofun, nofun, nofun⟩

/-- The mark of the end is the last token, and no other. -/
theorem ne_end_of_mem_dropLast (source : String) :
    ∀ t ∈ (tokens source).dropLast, t.kind ≠ .endOfInput := by
  intro t ht hend
  rw [tokens, List.dropLast_concat] at ht
  obtain ⟨s, -, hs⟩ := List.mem_filterMap.mp ht
  obtain ⟨hkind, -⟩ := Segment.word_of_token? hs
  rw [hend] at hkind
  exact Segment.kind?_ne_end hkind

end Source

end ScriptLang
