import ScriptLang.Proofs.Source.Lexical

/-!
# Scanning

A source has one division into segments (`Splits`), and nothing of it is left out. The tokens and
the lexical diagnostics of the source come from these segments, in their order: a symbol, a
string, a number or a word is one token with the segment as its lexeme, a fault is one diagnostic,
and blanks and comments are neither (`Scans`). This is `scan_follows_grammar`.
-/

namespace ScriptLang

/-! ## Numbers -/

/-- Digits, or digits, a point and digits. -/
inductive IsNumeral : List Char → Prop
  | integer {digits} (hdigits : digits ≠ []) (h : ∀ c ∈ digits, c.isDigit) : IsNumeral digits
  | fraction {digits places} (hdigits : digits ≠ []) (h : ∀ c ∈ digits, c.isDigit)
    (hplaces : places ≠ []) (hall : ∀ c ∈ places, c.isDigit) :
    IsNumeral (digits ++ '.' :: places)

namespace Decimal

theorem exists_read_integer {digits : List Char} (hdigits : digits ≠ [])
    (h : ∀ c ∈ digits, c.isDigit) : ∃ x, read digits = some x := by
  have hwhole : digits.takeWhile Char.isDigit = digits := List.takeWhile_eq_self_iff.mpr h
  have hrest : digits.dropWhile Char.isDigit = [] := List.dropWhile_eq_nil_iff.mpr h
  obtain ⟨c, cs, rfl⟩ := List.exists_cons_of_ne_nil hdigits
  unfold read
  rw [hwhole, hrest]
  exact ⟨_, rfl⟩

theorem exists_read_fraction {digits places : List Char} (hdigits : digits ≠ [])
    (h : ∀ c ∈ digits, c.isDigit) (hplaces : places ≠ []) (hall : ∀ c ∈ places, c.isDigit) :
    ∃ x, read (digits ++ '.' :: places) = some x := by
  have hwhole : (digits ++ '.' :: places).takeWhile Char.isDigit = digits := by
    rw [List.takeWhile_append_of_pos h]
    simp
  have hrest : (digits ++ '.' :: places).dropWhile Char.isDigit = '.' :: places := by
    rw [List.dropWhile_append_of_pos h]
    simp
  obtain ⟨c, cs, rfl⟩ := List.exists_cons_of_ne_nil hdigits
  unfold read
  rw [hwhole, hrest]
  exact ⟨_, if_pos ⟨rfl, hplaces, List.all_eq_true.mpr hall⟩⟩

end Decimal

namespace Source

/-- The text of a number can be read. -/
theorem Lexes.exists_read {text rest : List Char} (h : Lexes .number text rest) :
    ∃ x, Decimal.read text = some x := by
  cases h with
  | integer hdigits hlongest _ => exact Decimal.exists_read_integer hdigits hlongest.1
  | fraction hdigits hall hplaces hlongest =>
    exact Decimal.exists_read_fraction hdigits hall hplaces hlongest.1

/-! ## The division of a source -/

/-- A stretch of a source and what it is. -/
structure Piece where
  form : Form
  text : List Char

/-- The text is divided into the pieces, from the left. -/
inductive Splits : List Char → List Piece → Prop
  | nil : Splits [] []
  | cons {form text rest pieces} (h : Lexes form text rest) (hrest : Splits rest pieces) :
    Splits (text ++ rest) (⟨form, text⟩ :: pieces)

/-- The pieces together are the text. -/
theorem Splits.flatten_eq {cs : List Char} {pieces : List Piece} (h : Splits cs pieces) :
    (pieces.map Piece.text).flatten = cs := by
  induction h with
  | nil => rfl
  | cons _ _ ih => rw [List.map_cons, List.flatten_cons, ih]

/-- There is one division only. -/
theorem Splits.unique {cs : List Char} {pieces pieces' : List Piece} (h : Splits cs pieces)
    (h' : Splits cs pieces') : pieces = pieces' := by
  generalize hcs : cs = cs' at h'
  induction h generalizing pieces' cs' with
  | nil =>
    cases h' with
    | nil => rfl
    | cons hlexes _ =>
      obtain ⟨c, body, rfl, -⟩ := hlexes.measure_eq
      cases hcs
  | cons hlexes _ ih =>
    cases h' with
    | nil =>
      obtain ⟨c, body, rfl, -⟩ := hlexes.measure_eq
      cases hcs
    | cons hlexes' hrest' =>
      obtain ⟨rfl, rfl, rfl⟩ := hlexes.unique hlexes' hcs
      rw [ih _ rfl hrest']

theorem length_takeWhile_le {p : Char → Bool} {cs : List Char} :
    (cs.takeWhile p).length ≤ cs.length :=
  (List.takeWhile_prefix p).length_le

theorem measureSlash_le (cs : List Char) : (measureSlash cs).2 ≤ cs.length := by
  unfold measureSlash
  split
  · rw [List.length_cons, Nat.add_comm]
    exact Nat.succ_le_succ length_takeWhile_le
  · split
    · rename_i hclosed
      obtain ⟨body, rest, -, rfl, rfl, -⟩ := Comment.closed_of_commentLength hclosed
      simp
      omega
    · rw [List.length_cons, Nat.add_comm]
  · exact Nat.zero_le _

theorem measureQuote_le (cs : List Char) : (measureQuote cs).2 ≤ cs.length := by
  unfold measureQuote
  dsimp only
  split
  · assumption
  · exact length_takeWhile_le

theorem numberLength_le (cs : List Char) : numberLength cs ≤ cs.length := by
  rcases numberLength_cases cs with ⟨digits, rest, rfl, hlength, -⟩ |
    ⟨digits, places, rest, rfl, hlength, -⟩
  · rw [hlength]
    exact (List.prefix_append _ _).length_le
  · rw [hlength]
    exact (List.prefix_append _ _).length_le

theorem measureSymbol_le (c : Char) (cs : List Char) : (measureSymbol c cs).2 ≤ cs.length := by
  unfold measureSymbol
  cases cs with
  | nil =>
    dsimp only [List.head?_nil, Option.bind_none]
    split <;> exact Nat.le_refl 0
  | cons d cs =>
    split
    · exact Nat.le_add_left 1 _
    · split <;> exact Nat.zero_le _

/-- A segment ends within the text. -/
theorem measure_le (c : Char) (cs : List Char) : (measure c cs).2 ≤ cs.length := by
  unfold measure
  split
  · exact Nat.zero_le _
  · split
    · exact measureSlash_le cs
    · split
      · exact measureQuote_le cs
      · split
        · exact numberLength_le cs
        · split
          · exact length_takeWhile_le
          · exact measureSymbol_le c cs

/-- Whatever a text is, it starts with a segment. -/
theorem exists_lexes (c : Char) (cs : List Char) :
    ∃ form body rest, cs = body ++ rest ∧ Lexes form (c :: body) rest := by
  refine ⟨(measure c cs).1, cs.take (measure c cs).2, cs.drop (measure c cs).2,
    (List.take_append_drop _ cs).symm, lexes_measure ?_⟩
  rw [List.take_append_drop, List.length_take_of_le (measure_le c cs)]

theorem exists_splits (cs : List Char) : ∃ pieces, Splits cs pieces := by
  induction hn : cs.length using Nat.strong_induction_on generalizing cs with
  | _ n ih =>
    cases cs with
    | nil => exact ⟨[], .nil⟩
    | cons c cs =>
      obtain ⟨form, body, rest, rfl, hlexes⟩ := exists_lexes c cs
      obtain ⟨pieces, hrest⟩ := ih rest.length (by simp at hn; omega) rest rfl
      exact ⟨_, .cons hlexes hrest⟩

/-! ### What the segments are -/

/-- The pieces with the lines they start on, from a line on. -/
def located : Nat → List Piece → List Segment
  | _, [] => []
  | line, piece :: pieces =>
    ⟨piece.form, line, piece.text⟩ :: located (line + newlines piece.text) pieces

/-- The segments of a source are the pieces of its division. -/
theorem segmentsFrom_eq {cs : List Char} {pieces : List Piece} (h : Splits cs pieces)
    {fuel line : Nat} {done : List Segment} (hfuel : cs.length ≤ fuel) :
    segmentsFrom fuel line cs done = done.reverse ++ located line pieces := by
  induction h generalizing fuel line done with
  | nil => cases fuel <;> simp [segmentsFrom, located]
  | @cons form text rest pieces hlexes _ ih =>
    obtain ⟨c, body, rfl, hmeasure⟩ := hlexes.measure_eq
    cases fuel with
    | zero => simp at hfuel
    | succ fuel =>
      rw [List.cons_append, segmentsFrom, hmeasure]
      dsimp only
      rw [List.take_left, List.drop_left, ih (by simp at hfuel; omega)]
      simp [located, Segment.lastLine]

theorem segments_eq {cs : List Char} {pieces : List Piece} (h : Splits cs pieces) :
    segments cs = located 1 pieces := by
  rw [segments, segmentsFrom_eq h le_rfl]
  rfl

/-! ## What the pieces give -/

/-- The token that a piece makes, if it ends on the line. -/
inductive IsToken : Piece → Nat → Token → Prop
  | symbol {s text line} :
    IsToken ⟨.symbol s, text⟩ line ⟨.symbol s, ⟨String.ofList text, line⟩, .nil⟩
  | string {inside line} :
    IsToken ⟨.string, '"' :: (inside ++ ['"'])⟩ line
      ⟨.string, ⟨String.ofList ('"' :: (inside ++ ['"'])), line⟩, .string (String.ofList inside)⟩
  | number {text line x} (hread : Decimal.read text = some x) :
    IsToken ⟨.number, text⟩ line ⟨.number, ⟨String.ofList text, line⟩, .number x⟩
  | keyword {k : Keyword} {line} :
    IsToken ⟨.word, k.spelling⟩ line ⟨.keyword k, ⟨String.ofList k.spelling, line⟩, .nil⟩
  | identifier {text line} (hkeyword : ∀ k : Keyword, k.spelling ≠ text) :
    IsToken ⟨.word, text⟩ line ⟨.identifier, ⟨String.ofList text, line⟩, .nil⟩

/-- The diagnostic for a piece of the source that comes after the text `before`. -/
inductive IsFault (source before : List Char) : Piece → Diagnostic → Prop
  | unexpected {c} : IsFault source before ⟨.unexpected, [c]⟩
      (.lexical (1 + newlines before) (.unexpectedCharacter c))
  | openString {text} : IsFault source before ⟨.openString, text⟩
      (.lexical (1 + newlines source) .unterminatedString)
  | openComment {text} : IsFault source before ⟨.openComment, text⟩
      (.lexical (1 + newlines before) .unterminatedComment)

/-- The pieces of the source that come after the text `before` make the tokens and the
diagnostics, each piece one of them unless it is a blank or a comment. -/
inductive Scans (source : List Char) :
    List Char → List Piece → List Token → List Diagnostic → Prop
  | nil {before} : Scans source before [] [] []
  | silent {before piece pieces ts ds} (h : piece.form ∈ [.blank, .lineComment, .blockComment])
    (hrest : Scans source (before ++ piece.text) pieces ts ds) :
    Scans source before (piece :: pieces) ts ds
  | token {before piece pieces t ts ds} (h : IsToken piece (1 + newlines (before ++ piece.text)) t)
    (hrest : Scans source (before ++ piece.text) pieces ts ds) :
    Scans source before (piece :: pieces) (t :: ts) ds
  | fault {before piece pieces ts d ds} (h : IsFault source before piece d)
    (hrest : Scans source (before ++ piece.text) pieces ts ds) :
    Scans source before (piece :: pieces) ts (d :: ds)

theorem newlines_append (cs cs' : List Char) :
    newlines (cs ++ cs') = newlines cs + newlines cs' := List.count_append

/-- A piece gives what it should. -/
theorem Lexes.yields {source before text rest : List Char} {form : Form}
    (h : Lexes form text rest) (hsource : source = before ++ text ++ rest) :
    (form ∈ [.blank, .lineComment, .blockComment] ∧
      (⟨form, 1 + newlines before, text⟩ : Segment).yield = none) ∨
    (∃ t, IsToken ⟨form, text⟩ (1 + newlines (before ++ text)) t ∧
      (⟨form, 1 + newlines before, text⟩ : Segment).yield = some (.ok t)) ∨
    ∃ d, IsFault source before ⟨form, text⟩ d ∧
      (⟨form, 1 + newlines before, text⟩ : Segment).yield = some (.error d) := by
  have hline : 1 + newlines (before ++ text) =
      (⟨form, 1 + newlines before, text⟩ : Segment).lastLine := by
    rw [newlines_append, Segment.lastLine, Nat.add_assoc]
  rw [hline]
  cases form with
  | blank => exact .inl ⟨by simp, rfl⟩
  | lineComment => exact .inl ⟨by simp, rfl⟩
  | blockComment => exact .inl ⟨by simp, rfl⟩
  | symbol s => exact .inr (.inl ⟨_, .symbol, rfl⟩)
  | string =>
    cases h with
    | string hquote =>
      refine .inr (.inl ⟨_, .string, ?_⟩)
      simp [Segment.yield, Segment.word, Except.mapError]
  | number =>
    obtain ⟨x, hread⟩ := h.exists_read
    refine .inr (.inl ⟨_, .number hread, ?_⟩)
    simp [Segment.yield, Segment.word, Except.mapError, hread]
  | word =>
    cases hkeyword : Keyword.ofSpelling text with
    | some k =>
      obtain rfl : k.spelling = text := by simpa using List.find?_some hkeyword
      refine .inr (.inl ⟨_, .keyword, ?_⟩)
      simp [Segment.yield, hkeyword]
      rfl
    | none =>
      refine .inr (.inl ⟨_, .identifier fun k hk => ?_, ?_⟩)
      · rw [← hk, Keyword.ofSpelling_spelling] at hkeyword
        cases hkeyword
      · simp [Segment.yield, hkeyword]
        rfl
  | unexpected =>
    cases h with
    | unexpected => exact .inr (.inr ⟨_, .unexpected, rfl⟩)
  | openString =>
    cases h with
    | openString hquote =>
      rw [List.append_nil] at hsource
      refine .inr (.inr ⟨_, .openString, ?_⟩)
      rw [hsource, hline]
      rfl
  | openComment => exact .inr (.inr ⟨_, .openComment, rfl⟩)

/-- The segments of the rest of a source give what its pieces should. -/
theorem scans_located {source cs : List Char} {pieces : List Piece} (h : Splits cs pieces) :
    ∀ before, source = before ++ cs → Scans source before pieces
      ((located (1 + newlines before) pieces).filterMap Segment.token?)
      ((located (1 + newlines before) pieces).filterMap Segment.diagnostic?) := by
  induction h with
  | nil => exact fun _ _ => .nil
  | @cons form text rest pieces hlexes _ ih =>
    intro before hsource
    rw [← List.append_assoc] at hsource
    have hrest := ih (before ++ text) hsource
    rw [newlines_append, ← Nat.add_assoc] at hrest
    rw [located, List.filterMap_cons, List.filterMap_cons, Segment.token?, Segment.diagnostic?]
    rcases hlexes.yields hsource with ⟨hform, hyield⟩ | ⟨t, ht, hyield⟩ | ⟨d, hd, hyield⟩
    · rw [hyield]
      exact .silent hform hrest
    · rw [hyield]
      exact .token ht hrest
    · rw [hyield]
      exact .fault hd hrest

/-- The pieces of a source make its tokens, before the mark of the end, and its diagnostics. -/
theorem exists_scans (source : String) :
    ∃ pieces ts, Splits source.toList pieces ∧
      tokens source = ts ++ [.endOfInput (1 + newlines source.toList)] ∧
      Scans source.toList [] pieces ts (diagnostics source) := by
  obtain ⟨pieces, hsplits⟩ := exists_splits source.toList
  refine ⟨pieces, (segments source.toList).filterMap Segment.token?, hsplits, rfl, ?_⟩
  rw [diagnostics, segments_eq hsplits]
  exact scans_located hsplits [] rfl

/-- The scanner follows the lexical grammar and leaves nothing out: a source has one division into
segments, and its tokens, before the mark of the end, and its lexical diagnostics are what these
segments make. -/
theorem scan_follows_grammar (source : String) :
    ∃ pieces ts, Splits source.toList pieces ∧
      (∀ pieces', Splits source.toList pieces' → pieces' = pieces) ∧
      (pieces.map Piece.text).flatten = source.toList ∧
      tokens source = ts ++ [.endOfInput (1 + newlines source.toList)] ∧
      Scans source.toList [] pieces ts (diagnostics source) := by
  obtain ⟨pieces, ts, hsplits, htokens, hscans⟩ := exists_scans source
  exact ⟨pieces, ts, hsplits, fun _ h => h.unique hsplits, hsplits.flatten_eq, htokens, hscans⟩

/-! ### What a token or a diagnostic comes from -/

variable {source before : List Char} {pieces : List Piece} {ts : List Token} {ds : List Diagnostic}

theorem Splits.lexes {cs : List Char} (h : Splits cs pieces) {piece : Piece}
    (hpiece : piece ∈ pieces) : ∃ rest, Lexes piece.form piece.text rest := by
  induction h with
  | nil => cases hpiece
  | cons hlexes _ ih =>
    rcases List.mem_cons.mp hpiece with rfl | hpiece
    · exact ⟨_, hlexes⟩
    · exact ih hpiece

theorem Scans.exists_token (h : Scans source before pieces ts ds) {t : Token} (ht : t ∈ ts) :
    ∃ piece ∈ pieces, ∃ line, IsToken piece line t := by
  induction h with
  | nil => cases ht
  | silent _ _ ih =>
    obtain ⟨piece, hpiece, hline⟩ := ih ht
    exact ⟨piece, List.mem_cons_of_mem _ hpiece, hline⟩
  | token htoken _ ih =>
    rcases List.mem_cons.mp ht with rfl | ht
    · exact ⟨_, List.mem_cons_self, _, htoken⟩
    · obtain ⟨piece, hpiece, hline⟩ := ih ht
      exact ⟨piece, List.mem_cons_of_mem _ hpiece, hline⟩
  | fault _ _ ih =>
    obtain ⟨piece, hpiece, hline⟩ := ih ht
    exact ⟨piece, List.mem_cons_of_mem _ hpiece, hline⟩

theorem Scans.exists_fault (h : Scans source before pieces ts ds) {d : Diagnostic} (hd : d ∈ ds) :
    ∃ before' piece, IsFault source before' piece d := by
  induction h with
  | nil => cases hd
  | silent _ _ ih => exact ih hd
  | token _ _ ih => exact ih hd
  | fault hfault _ ih =>
    rcases List.mem_cons.mp hd with rfl | hd
    · exact ⟨_, _, hfault⟩
    · exact ih hd

/-- A token is made of a segment, unless it is the mark of the end. -/
theorem exists_lexes_of_token {source : String} {t : Token} (ht : t ∈ tokens source)
    (hkind : t.kind ≠ .endOfInput) :
    ∃ form text rest line, Lexes form text rest ∧ IsToken ⟨form, text⟩ line t := by
  obtain ⟨pieces, ts, hsplits, htokens, hscans⟩ := exists_scans source
  rw [htokens] at ht
  rcases List.mem_append.mp ht with ht | ht
  · obtain ⟨piece, hpiece, line, htoken⟩ := hscans.exists_token ht
    obtain ⟨rest, hlexes⟩ := hsplits.lexes hpiece
    exact ⟨piece.form, piece.text, rest, line, hlexes, htoken⟩
  · rw [List.mem_singleton.mp ht] at hkind
    exact absurd rfl hkind

/-- No number is invalid. -/
theorem ne_invalidNumber {source : String} {d : Diagnostic} (hd : d ∈ diagnostics source)
    (text : String) : d.fault ≠ .lexical (.invalidNumber text) := by
  obtain ⟨pieces, ts, -, -, hscans⟩ := exists_scans source
  obtain ⟨before, piece, hfault⟩ := hscans.exists_fault hd
  cases hfault <;> exact nofun

end Source

end ScriptLang
