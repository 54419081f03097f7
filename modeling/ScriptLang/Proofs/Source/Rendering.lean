import ScriptLang.Proofs.Source.Scanning
import ScriptLang.Proofs.Source.Spelling

/-!
# Rendering

Tokens can be written down and read again. `render` puts the lexemes of a list of tokens side by
side with one blank between them. If the tokens are such as sources have (`Genuine`), scanning the
text finds these tokens and no fault: a blank ends every word, so that no two of them fuse, and what
a string has inside is neither a comment nor a word (`Genuine.lexes`). Only the lines are lost
(`Token.content`).

Tokens of a source are genuine, even if the source has faults. So a source that is rendered from its
tokens has them again.
-/

namespace ScriptLang

/-- What a token is, whatever its line: its kind, its spelling and its constant. -/
def Token.content (t : Token) : Kind × String × Literal := (t.kind, t.lexeme.text, t.literal)

/-- No symbol has a blank in it. -/
theorem Symbol.blank_notMem_spelling (s : Symbol) : ' ' ∉ s.spelling := by
  cases s <;> decide

/-- Keywords are made of letters. -/
theorem Keyword.isAlpha_of_mem_spelling (k : Keyword) : ∀ c ∈ k.spelling, c.isAlpha :=
  List.all_eq_true.mp (by cases k <;> decide)

theorem Keyword.spelling_ne_nil (k : Keyword) : k.spelling ≠ [] := by
  cases k <;> decide

namespace Source

/-! ## Tokens of sources -/

/-- The token is one that a source can have before its end: a symbol or a keyword that is spelled as
it should be, an identifier that is no keyword, a string in quotes with no quote inside, or a
number. -/
inductive Genuine : Token → Prop
  | symbol (s : Symbol) {line} : Genuine ⟨.symbol s, ⟨String.ofList s.spelling, line⟩, .nil⟩
  | keyword (k : Keyword) {line} : Genuine ⟨.keyword k, ⟨String.ofList k.spelling, line⟩, .nil⟩
  | identifier {c body line} (hstart : c.isAlpha ∨ c = '_')
    (hparts : ∀ d ∈ body, d.isAlpha ∨ d = '_' ∨ d.isDigit)
    (hkeyword : ∀ k : Keyword, k.spelling ≠ c :: body) :
    Genuine ⟨.identifier, ⟨String.ofList (c :: body), line⟩, .nil⟩
  | string {inside line} (hquote : '"' ∉ inside) :
    Genuine ⟨.string, ⟨String.ofList ('"' :: (inside ++ ['"'])), line⟩,
      .string (String.ofList inside)⟩
  | number {text line x} (hnumeral : IsNumeral text) (hread : Decimal.read text = some x) :
    Genuine ⟨.number, ⟨String.ofList text, line⟩, .number x⟩

/-- The tokens of a source, but for the mark of its end, are genuine. -/
theorem genuine_of_mem {source : String} {t : Token} (ht : t ∈ tokens source)
    (hkind : t.kind ≠ .endOfInput) : Genuine t := by
  obtain ⟨form, text, rest, line, hlexes, htoken⟩ := exists_lexes_of_token ht hkind
  cases htoken with
  | symbol =>
    cases hlexes with
    | symbol _ _ => exact .symbol _
  | @string inside =>
    generalize htext : '"' :: (inside ++ ['"']) = text at hlexes
    cases hlexes with
    | @string body _ hquote =>
      obtain rfl : inside = body := by simpa using htext
      rw [← htext]
      exact .string hquote
  | number hread =>
    refine .number ?_ hread
    cases hlexes with
    | integer hdigits hlongest _ => exact .integer hdigits hlongest.1
    | fraction hdigits hall hplaces hlongest => exact .fraction hdigits hall hplaces hlongest.1
  | keyword => exact .keyword _
  | identifier hkeyword =>
    cases hlexes with
    | word hstart hlongest => exact .identifier hstart hlongest.1 hkeyword

/-! ## One token -/

/-- The text ends, or a blank is next. -/
def Separated (rest : List Char) : Prop := ∀ c ∈ rest.head?, c = ' '

theorem Separated.longest {rest body : List Char} (h : Separated rest) {p : Char → Prop}
    (hbody : ∀ c ∈ body, p c) (hblank : ¬ p ' ') : Longest p body rest :=
  ⟨hbody, fun c hc => h c hc ▸ hblank⟩

/-- A symbol that starts as the text does ends before the blank. -/
theorem Separated.spelling_length_le {rest : List Char} (h : Separated rest) {s s' : Symbol}
    (hspelled : s'.spelling <+: s.spelling ++ rest) :
    s'.spelling.length ≤ s.spelling.length := by
  cases rest with
  | nil =>
    rw [List.append_nil] at hspelled
    exact hspelled.length_le
  | cons c rest =>
    obtain rfl : c = ' ' := h c rfl
    exact (prefix_of_notMem hspelled s'.blank_notMem_spelling).length_le

theorem Separated.lexes_numeral {rest text : List Char} (h : Separated rest)
    (hnumeral : IsNumeral text) : Lexes .number text rest := by
  cases hnumeral with
  | integer hdigits hall =>
    refine .integer hdigits (h.longest hall (by decide)) fun d rest' hpoint => ?_
    rw [hpoint] at h
    exact absurd (h '.' rfl) (by decide)
  | fraction hdigits hall hplaces hall' =>
    exact .fraction hdigits hall hplaces (h.longest hall' (by decide))

/-- Before a blank, and at the end of a text, the lexeme of a genuine token is one segment, which
makes that token. -/
theorem Genuine.lexes {t : Token} (h : Genuine t) : ∃ form,
    IsToken ⟨form, t.lexeme.text.toList⟩ t.line t ∧
      ∀ rest, Separated rest → Lexes form t.lexeme.text.toList rest := by
  cases h with
  | symbol s =>
    rw [String.toList_ofList]
    refine ⟨.symbol s, .symbol, fun rest hrest => ?_⟩
    refine .symbol (fun s' => hrest.spelling_length_le) fun _ c hc => ?_
    rw [hrest c hc]
    decide
  | keyword k =>
    rw [String.toList_ofList]
    refine ⟨.word, .keyword, fun rest hrest => ?_⟩
    have halpha := k.isAlpha_of_mem_spelling
    obtain ⟨c, body, hk⟩ := List.exists_cons_of_ne_nil k.spelling_ne_nil
    rw [hk] at halpha ⊢
    exact .word (.inl (halpha c List.mem_cons_self))
      (hrest.longest (fun d hd => .inl (halpha d (List.mem_cons_of_mem _ hd))) (by decide))
  | identifier hstart hparts hkeyword =>
    rw [String.toList_ofList]
    exact ⟨.word, .identifier hkeyword, fun rest hrest =>
      .word hstart (hrest.longest hparts (by decide))⟩
  | string hquote =>
    rw [String.toList_ofList]
    exact ⟨.string, .string, fun rest _ => .string hquote⟩
  | number hnumeral hread =>
    rw [String.toList_ofList]
    exact ⟨.number, .number hread, fun rest hrest => hrest.lexes_numeral hnumeral⟩

/-- A piece makes one token, up to its line. -/
theorem IsToken.content_eq {piece : Piece} {line line' : Nat} {t t' : Token}
    (h : IsToken piece line t) (h' : IsToken piece line' t') : t.content = t'.content := by
  cases h with
  | symbol =>
    cases h'
    rfl
  | @string inside _ =>
    generalize htext : '"' :: (inside ++ ['"']) = text at h'
    cases h' with
    | @string inside' =>
      obtain rfl : inside = inside' := by simpa using htext
      rfl
  | number hread =>
    cases h' with
    | number hread' =>
      rw [hread] at hread'
      cases hread'
      rfl
  | @keyword k _ =>
    generalize htext : k.spelling = text at h'
    cases h' with
    | @keyword k' =>
      have hk : k = k' := by
        simpa [Keyword.ofSpelling_spelling] using congrArg Keyword.ofSpelling htext
      rw [hk]
      rfl
    | identifier hkeyword => exact absurd htext (hkeyword k)
  | identifier hkeyword =>
    cases h' with
    | keyword => exact absurd rfl (hkeyword _)
    | identifier => rfl

/-! ## Lists of tokens -/

/-- The lexemes of the tokens, side by side with a blank between them. -/
def render (ts : List Token) : String := " ".intercalate (ts.map (·.lexeme.text))

section

variable {source before : List Char} {piece : Piece} {pieces : List Piece} {line : Nat}
  {t : Token} {ts : List Token} {ds : List Diagnostic}

theorem Scans.of_token (htoken : IsToken piece line t)
    (h : Scans source before (piece :: pieces) ts ds) :
    ∃ t' ts', ts = t' :: ts' ∧ t'.content = t.content ∧
      Scans source (before ++ piece.text) pieces ts' ds := by
  cases h with
  | silent hform _ => cases htoken <;> simp at hform
  | token htoken' hrest => exact ⟨_, _, rfl, htoken'.content_eq htoken, hrest⟩
  | fault hfault _ => cases hfault <;> cases htoken

theorem Scans.of_blank (hform : piece.form = .blank)
    (h : Scans source before (piece :: pieces) ts ds) :
    Scans source (before ++ piece.text) pieces ts ds := by
  cases h with
  | silent _ hrest => exact hrest
  | token htoken _ => cases htoken <;> cases hform
  | fault hfault _ => cases hfault <;> cases hform

end

/-- A text that is rendered from genuine tokens divides into pieces that make these tokens and no
fault. -/
theorem splits_render {ts : List Token} (h : ∀ t ∈ ts, Genuine t) :
    ∃ pieces, Splits (render ts).toList pieces ∧
      ∀ source before ts' ds, Scans source before pieces ts' ds →
        ts'.map Token.content = ts.map Token.content ∧ ds = [] := by
  rw [render, String.toList_intercalate, List.map_map, show " ".toList = [' '] from rfl]
  induction ts with
  | nil =>
    refine ⟨[], .nil, fun source before ts' ds hscans => ?_⟩
    cases hscans
    exact ⟨rfl, rfl⟩
  | cons t ts ih =>
    obtain ⟨form, htoken, hlexes⟩ := (h t List.mem_cons_self).lexes
    obtain ⟨pieces, hsplits, hmade⟩ := ih fun u hu => h u (List.mem_cons_of_mem _ hu)
    cases ts with
    | nil =>
      refine ⟨[⟨form, t.lexeme.text.toList⟩], ?_, fun source before ts' ds hscans => ?_⟩
      · simpa using Splits.cons (hlexes [] nofun) .nil
      · obtain ⟨t', ts', rfl, hcontent, hrest⟩ := hscans.of_token htoken
        cases hrest
        exact ⟨by simp [hcontent], rfl⟩
    | cons u ts =>
      rw [List.map_cons, List.map_cons, List.intercalate_cons_cons, List.append_assoc,
        ← List.map_cons]
      refine ⟨⟨form, t.lexeme.text.toList⟩ :: ⟨.blank, [' ']⟩ :: pieces,
        .cons (hlexes _ (by simp [Separated])) (.cons (.blank (by simp)) hsplits),
        fun source before ts' ds hscans => ?_⟩
      obtain ⟨t', ts', rfl, hcontent, hrest⟩ := hscans.of_token htoken
      obtain ⟨htail, hds⟩ := hmade _ _ _ _ (hrest.of_blank rfl)
      exact ⟨by rw [List.map_cons, hcontent, htail, ← List.map_cons], hds⟩

/-- Scanning what is rendered from genuine tokens gives them back. -/
theorem scan_render {ts : List Token} (h : ∀ t ∈ ts, Genuine t) :
    diagnostics (render ts) = [] ∧
      (tokens (render ts)).map Token.content = (ts ++ [Token.endOfInput 0]).map Token.content := by
  obtain ⟨pieces, hsplits, hmade⟩ := splits_render h
  obtain ⟨pieces', ts', hsplits', htokens, hscans⟩ := exists_scans (render ts)
  rw [hsplits'.unique hsplits] at hscans
  obtain ⟨hcontent, hds⟩ := hmade _ _ _ _ hscans
  refine ⟨hds, ?_⟩
  rw [htokens, List.map_append, List.map_append, hcontent]
  rfl

/-- Rendering and scanning is a round trip. Genuine tokens that are rendered are found again, with
the mark of the end behind them and without a fault; and a source that is rendered from its tokens
has these tokens, whatever else the source holds. -/
theorem rendering_round_trips :
    (∀ ts : List Token, (∀ t ∈ ts, Genuine t) → diagnostics (render ts) = [] ∧
      (tokens (render ts)).map Token.content = (ts ++ [Token.endOfInput 0]).map Token.content) ∧
    ∀ source : String, diagnostics (render (tokens source).dropLast) = [] ∧
      (tokens (render (tokens source).dropLast)).map Token.content =
        (tokens source).map Token.content := by
  refine ⟨fun ts h => scan_render h, fun source => ?_⟩
  obtain ⟨-, ts, -, htokens, -⟩ := exists_scans source
  have hgenuine : ∀ t ∈ (tokens source).dropLast, Genuine t := fun t ht =>
    genuine_of_mem (List.mem_of_mem_dropLast ht) (ne_end_of_mem_dropLast source t ht)
  obtain ⟨hds, hcontent⟩ := scan_render hgenuine
  refine ⟨hds, hcontent.trans ?_⟩
  rw [htokens, List.dropLast_concat, List.map_append, List.map_append]
  rfl

/-- A string of comment marks and a line end, two slashes, a number and a point: none of them runs
into its neighbour. -/
theorem rendered_neighbours :
    let ts : List Token := [
      ⟨.string, ⟨String.ofList ('"' :: (['/', '*', '\n', '/', '/'] ++ ['"'])), 2⟩,
        .string (String.ofList ['/', '*', '\n', '/', '/'])⟩,
      ⟨.symbol .slash, ⟨String.ofList ['/'], 2⟩, .nil⟩,
      ⟨.symbol .slash, ⟨String.ofList ['/'], 2⟩, .nil⟩,
      ⟨.number, ⟨String.ofList ['1', '2'], 3⟩, .number (Float.ofScientific 12 true 0)⟩,
      ⟨.symbol .dot, ⟨String.ofList ['.'], 3⟩, .nil⟩,
      ⟨.identifier, ⟨String.ofList ['o', 'r', '_'], 4⟩, .nil⟩]
    diagnostics (render ts) = [] ∧
      (tokens (render ts)).map Token.content = (ts ++ [Token.endOfInput 0]).map Token.content :=
  rendering_round_trips.1 _ (by
    simp only [List.forall_mem_cons]
    exact ⟨.string (by decide), .symbol .slash, .symbol .slash,
      .number (.integer (by decide) (by simp)) rfl, .symbol .dot,
      .identifier (by decide) (by simp) (fun k => by cases k <;> decide), nofun⟩)

end Source

end ScriptLang
