import ScriptLang.Proofs.Source.Scanning

/-!
# Sources put together

Scanning starts afresh at the end of a line, unless a string or a comment is open there. So two
texts with a line end between them have the tokens and the faults of the first one, and then those
of the second one, further down by the lines of the first (`scan_append`).

No segment other than a string or a block comment goes past the end of a line, and these two end
with a mark of their own. So a segment at the end of the first text is the same segment with more
behind it (`Lexes.before_newline`), although an operator, a number, a word and a line comment all
depend on what follows them.
-/

namespace ScriptLang

/-! ## Further down -/

/-- The token on a line further down. -/
def Token.down (n : Nat) (t : Token) : Token :=
  { t with lexeme := { t.lexeme with line := t.lexeme.line + n } }

/-- The diagnostic on a line further down. -/
def Diagnostic.down (n : Nat) (d : Diagnostic) : Diagnostic := { d with line := d.line + n }

/-- No symbol goes past the end of a line. -/
theorem Symbol.newline_notMem_spelling (s : Symbol) : '\n' ∉ s.spelling := by
  cases s <;> decide

namespace Source

/-- The segment on a line further down. -/
def Segment.down (n : Nat) (s : Segment) : Segment := { s with line := s.line + n }

/-- What a segment gives, on a line further down. -/
def yieldDown (n : Nat) : Except Diagnostic Token → Except Diagnostic Token
  | .ok t => .ok (t.down n)
  | .error d => .error (d.down n)

variable {n line : Nat} {s : Segment}

theorem Segment.lastLine_down : (s.down n).lastLine = s.lastLine + n := by
  simp only [Segment.lastLine, Segment.down]
  omega

theorem Segment.word_down (kind : Kind) :
    ((s.down n).word kind).mapError (.lexical (s.down n).lastLine) =
      yieldDown n ((s.word kind).mapError (.lexical s.lastLine)) := by
  have hline := Segment.lastLine_down (n := n) (s := s)
  have htext : (s.down n).text = s.text := rfl
  unfold Segment.word
  rw [hline, htext]
  cases kind with
  | number => cases Decimal.read s.text <;> rfl
  | symbol _ => rfl
  | keyword _ => rfl
  | identifier => rfl
  | string => rfl
  | endOfInput => rfl

/-- The line of a segment is nothing but the line of what it gives. -/
theorem Segment.yield_down : (s.down n).yield = s.yield.map (yieldDown n) := by
  have hword (kind : Kind) : some (((s.down n).word kind).mapError (.lexical (s.down n).lastLine)) =
      (some ((s.word kind).mapError (.lexical s.lastLine))).map (yieldDown n) :=
    congrArg some (Segment.word_down kind)
  obtain ⟨form, line, text⟩ := s
  cases form with
  | blank => rfl
  | lineComment => rfl
  | blockComment => rfl
  | symbol symbol => exact hword _
  | string => exact hword _
  | number => exact hword _
  | word => exact hword _
  | unexpected => rfl
  | openString =>
    simp only [Segment.yield, Segment.lastLine_down]
    rfl
  | openComment => rfl

theorem Segment.token?_down : (s.down n).token? = s.token?.map (Token.down n) := by
  unfold Segment.token?
  rw [Segment.yield_down]
  rcases s.yield with - | (d | t) <;> rfl

theorem Segment.diagnostic?_down :
    (s.down n).diagnostic? = s.diagnostic?.map (Diagnostic.down n) := by
  unfold Segment.diagnostic?
  rw [Segment.yield_down]
  rcases s.yield with - | (d | t) <;> rfl

theorem filterMap_down {α : Type} {f : Segment → Option α} {g : α → α}
    (h : ∀ s : Segment, f (s.down n) = (f s).map g) (segments : List Segment) :
    (segments.map (Segment.down n)).filterMap f = (segments.filterMap f).map g := by
  rw [List.filterMap_map, List.map_filterMap]
  exact congrArg (List.filterMap · segments) (funext h)

theorem located_down (pieces : List Piece) :
    located (line + n) pieces = (located line pieces).map (Segment.down n) := by
  induction pieces generalizing line with
  | nil => rfl
  | cons piece pieces ih =>
    have hnext : line + n + newlines piece.text = line + newlines piece.text + n := by omega
    rw [located, located, hnext, ih]
    rfl

theorem located_append (pieces pieces' : List Piece) :
    located line (pieces ++ pieces') =
      located line pieces ++ located (line + newlines (pieces.map Piece.text).flatten) pieces' := by
  induction pieces generalizing line with
  | nil => rfl
  | cons piece pieces ih =>
    simp only [List.cons_append, located, ih, List.map_cons, List.flatten_cons, newlines_append,
      Nat.add_assoc]

/-! ## At the end of a line -/

section

variable {text rest cs cs' : List Char} {form : Form}

/-- A longest stretch stays one if a line end follows the text. -/
theorem Longest.before_newline {p : Char → Prop} {body : List Char} (h : Longest p body rest)
    (hnewline : ¬ p '\n') : Longest p body (rest ++ '\n' :: cs) := by
  refine ⟨h.1, ?_⟩
  cases rest with
  | nil =>
    rintro c ⟨⟩
    exact hnewline
  | cons c rest => exact h.2

/-- The segment is not one that only the end of a source leaves open. -/
def Form.IsClosed (form : Form) : Prop := form ≠ .openString ∧ form ≠ .openComment

/-- A segment is the same with a line end behind the text. -/
theorem Lexes.before_newline (h : Lexes form text rest) (hclosed : form.IsClosed) :
    Lexes form text (rest ++ '\n' :: cs) := by
  cases h with
  | blank hc => exact .blank hc
  | lineComment hlongest => exact .lineComment (hlongest.before_newline (by simp))
  | blockComment hcloses => exact .blockComment hcloses
  | symbol hlongest hcomment =>
    refine .symbol (fun s' hs' => ?_) fun hslash c hc => ?_
    · rw [← List.append_assoc] at hs'
      exact hlongest s' (prefix_of_notMem hs' s'.newline_notMem_spelling)
    · cases rest with
      | nil =>
        cases hc
        decide
      | cons d rest => exact hcomment hslash c hc
  | string hquote => exact .string hquote
  | integer hdigits hlongest hpoint =>
    refine .integer hdigits (hlongest.before_newline (by decide)) fun d rest' heq => ?_
    -- the point is at the end of the text, or the next character is one of the text too
    rcases rest with - | ⟨c, - | ⟨d', rest⟩⟩
    · cases heq
    · cases heq
      decide
    · cases heq
      exact hpoint d rest rfl
  | fraction hdigits hall hplaces hlongest =>
    exact .fraction hdigits hall hplaces (hlongest.before_newline (by decide))
  | word hstart hlongest => exact .word hstart (hlongest.before_newline (by decide))
  | unexpected hblank hsymbol hquote hdigit hstart =>
    exact .unexpected hblank hsymbol hquote hdigit hstart
  | openString => exact absurd rfl hclosed.1
  | openComment => exact absurd rfl hclosed.2

/-- The line end between two texts. -/
def newline : Piece := ⟨.blank, ['\n']⟩

/-- Two texts with a line end between them are divided as each of them is. -/
theorem Splits.join {pieces pieces' : List Piece} (h : Splits cs pieces)
    (hclosed : ∀ piece ∈ pieces, piece.form.IsClosed) (h' : Splits cs' pieces') :
    Splits (cs ++ '\n' :: cs') (pieces ++ newline :: pieces') := by
  induction h with
  | nil =>
    have hblank : Lexes .blank ['\n'] cs' := .blank (by simp)
    exact .cons hblank h'
  | cons hlexes _ ih =>
    obtain ⟨hfirst, hlater⟩ := List.forall_mem_cons.mp hclosed
    rw [List.append_assoc]
    exact .cons (hlexes.before_newline hfirst) (ih hlater)

theorem mem_located (line : Nat) {piece : Piece} {pieces : List Piece} (h : piece ∈ pieces) :
    ∃ line', ⟨piece.form, line', piece.text⟩ ∈ located line pieces := by
  induction pieces generalizing line with
  | nil => cases h
  | cons first pieces ih =>
    rw [located]
    rcases List.mem_cons.mp h with rfl | h
    · exact ⟨line, List.mem_cons_self⟩
    · obtain ⟨line', hmem⟩ := ih _ h
      exact ⟨line', List.mem_cons_of_mem _ hmem⟩

end

/-- The fault is a string or a block comment that is still open where the source ends. -/
def Unterminated (d : Diagnostic) : Prop :=
  d.fault = .lexical .unterminatedString ∨ d.fault = .lexical .unterminatedComment

/-- What is left open is reported. -/
theorem isClosed_of_diagnostics {source : String} {pieces : List Piece}
    (hsplits : Splits source.toList pieces) (h : ∀ d ∈ diagnostics source, ¬ Unterminated d)
    {piece : Piece} (hpiece : piece ∈ pieces) : piece.form.IsClosed := by
  obtain ⟨line, hmem⟩ := mem_located 1 hpiece
  rw [← segments_eq hsplits] at hmem
  obtain ⟨form, text⟩ := piece
  have hreported {d : Diagnostic} (hd : (⟨form, line, text⟩ : Segment).diagnostic? = some d) :
      ¬ Unterminated d := h d (List.mem_filterMap.mpr ⟨_, hmem, hd⟩)
  constructor
  · rintro rfl
    exact hreported rfl (.inl rfl)
  · rintro rfl
    exact hreported rfl (.inr rfl)

/-- **Scanning starts afresh on a new line.** If no string and no comment is left open in the first
text, then two texts with a line end between them have the tokens of the first one without the mark
of its end and then those of the second one, and the faults of the first one and then those of the
second one. What comes from the second text is further down by the lines of the first. -/
theorem scan_append (first second : String) (hclosed : ∀ d ∈ diagnostics first, ¬ Unterminated d) :
    tokens (first ++ "\n" ++ second) = (tokens first).dropLast ++
        (tokens second).map (Token.down (newlines first.toList + 1)) ∧
      diagnostics (first ++ "\n" ++ second) = diagnostics first ++
        (diagnostics second).map (Diagnostic.down (newlines first.toList + 1)) := by
  obtain ⟨pieces, hpieces⟩ := exists_splits first.toList
  obtain ⟨pieces', hpieces'⟩ := exists_splits second.toList
  have htext : (first ++ "\n" ++ second).toList = first.toList ++ '\n' :: second.toList := by
    simp
  have hsplits : Splits (first ++ "\n" ++ second).toList (pieces ++ newline :: pieces') := by
    rw [htext]
    exact hpieces.join (fun _ => isClosed_of_diagnostics hpieces hclosed) hpieces'
  have hnewline : newlines newline.text = 1 := rfl
  have hsegments : segments (first ++ "\n" ++ second).toList = segments first.toList ++
      (⟨.blank, 1 + newlines first.toList, ['\n']⟩ ::
        (segments second.toList).map (Segment.down (newlines first.toList + 1))) := by
    rw [segments_eq hsplits, segments_eq hpieces, segments_eq hpieces', located_append,
      hpieces.flatten_eq, located, hnewline, Nat.add_assoc, located_down]
    rfl
  have hsilent (line : Nat) : (⟨.blank, line, ['\n']⟩ : Segment).yield = none := rfl
  have hlast : Token.endOfInput (1 + newlines (first.toList ++ '\n' :: second.toList)) =
      (Token.endOfInput (1 + newlines second.toList)).down (newlines first.toList + 1) := by
    have hlines : 1 + newlines (first.toList ++ '\n' :: second.toList) =
        1 + newlines second.toList + (newlines first.toList + 1) := by
      simp only [newlines, List.count_append, List.count_cons_self]
      omega
    rw [hlines]
    rfl
  constructor
  · have hdropped : (tokens first).dropLast = (segments first.toList).filterMap Segment.token? :=
      List.dropLast_concat
    rw [hdropped, tokens, hsegments, List.filterMap_append, List.filterMap_cons,
      Segment.token?, hsilent, filterMap_down fun _ => Segment.token?_down, htext, hlast, tokens,
      List.map_append, List.append_assoc]
    rfl
  · rw [diagnostics, hsegments, List.filterMap_append, List.filterMap_cons, Segment.diagnostic?,
      hsilent, filterMap_down fun _ => Segment.diagnostic?_down]
    rfl

/-- The number `12` and the point after it are not read together with the `5` on the next line, and
the unexpected character there is on line 2. -/
theorem point_before_newline :
    (∀ d ∈ diagnostics "12.", ¬ Unterminated d) ∧
      (tokens ("12." ++ "\n" ++ "5 @")).map (fun t => (t.kind, t.line)) =
        [(.number, 1), (.symbol .dot, 1), (.number, 2), (.endOfInput, 2)] ∧
      diagnostics ("12." ++ "\n" ++ "5 @") = [.lexical 2 (.unexpectedCharacter '@')] := by
  have hclosed : ∀ d ∈ diagnostics "12.", ¬ Unterminated d := by
    have hnone : diagnostics "12." = [] := by decide
    rw [hnone]
    exact nofun
  obtain ⟨htokens, hfaults⟩ := scan_append "12." "5 @" hclosed
  refine ⟨hclosed, ?_, ?_⟩
  · rw [htokens]
    decide
  · rw [hfaults]
    decide

end Source

end ScriptLang
