import ScriptLang.Proofs.Source.Scanning

/-!
# Lines of tokens

Tokens and lexical diagnostics are on lines of the source (`IsLineOf`), and the lines of the tokens
never go down. The line of a segment depends only on what is before it, so both follow the division
of the source (`Scans.lines`). A diagnostic is on one of the lines of its segment, so these lines do
not go down either (`pairwise_diagnostics`).
-/

namespace ScriptLang

/-- The source has a line with the number. -/
def IsLineOf (source : String) (line : Nat) : Prop :=
  1 ≤ line ∧ line ≤ Source.newlines source.toList + 1

namespace Source

section

variable {source before : List Char} {pieces : List Piece} {ts : List Token} {ds : List Diagnostic}

/-- The line is one of the source, and not one that ends in the text `before`. -/
structure Spans (source before : List Char) (line : Nat) : Prop where
  le : 1 + newlines before ≤ line
  line_le : line ≤ 1 + newlines source

theorem Spans.earlier {cs : List Char} {line : Nat} (h : Spans source (before ++ cs) line) :
    Spans source before line := by
  refine ⟨Nat.le_trans ?_ h.le, h.line_le⟩
  rw [newlines_append]
  omega

/-- The line on which a text of the source ends. -/
theorem Spans.of_append {cs : List Char} (h : before ++ cs = source) :
    Spans source before (1 + newlines before) := by
  refine ⟨Nat.le_refl _, ?_⟩
  rw [← h, newlines_append]
  omega

theorem IsToken.line_eq {piece : Piece} {line : Nat} {t : Token} (h : IsToken piece line t) :
    t.line = line := by
  cases h <;> rfl

/-- A fault is on the line where its segment starts, or where the source ends. -/
theorem IsFault.spans {piece : Piece} {d : Diagnostic} {cs : List Char}
    (h : IsFault source before piece d) (hsource : before ++ cs = source) :
    Spans source before d.line := by
  have hhere := Spans.of_append hsource
  cases h with
  | unexpected => exact hhere
  | openString => exact ⟨hhere.line_le, Nat.le_refl _⟩
  | openComment => exact hhere

/-- What the pieces after the text `before` make is on the lines from there on, and the lines of
the tokens never go down. -/
theorem Scans.lines (h : Scans source before pieces ts ds)
    (hsource : before ++ (pieces.map Piece.text).flatten = source) :
    ts.Pairwise (·.line ≤ ·.line) ∧ (∀ t ∈ ts, Spans source before t.line) ∧
      ∀ d ∈ ds, Spans source before d.line := by
  induction h with
  | nil => simp
  | silent _ _ ih =>
    obtain ⟨hmono, htokens, hfaults⟩ := ih (by rw [← hsource]; simp)
    exact ⟨hmono, fun t ht => (htokens t ht).earlier, fun d hd => (hfaults d hd).earlier⟩
  | @token before piece pieces t ts ds htoken _ ih =>
    have hrest : before ++ piece.text ++ (pieces.map Piece.text).flatten = source := by
      rw [← hsource]
      simp
    obtain ⟨hmono, htokens, hfaults⟩ := ih hrest
    have ht : Spans source (before ++ piece.text) t.line := by
      rw [htoken.line_eq]
      exact .of_append hrest
    refine ⟨List.pairwise_cons.mpr ⟨fun u hu => ?_, hmono⟩,
      List.forall_mem_cons.mpr ⟨ht.earlier, fun u hu => (htokens u hu).earlier⟩,
      fun d hd => (hfaults d hd).earlier⟩
    rw [htoken.line_eq]
    exact (htokens u hu).le
  | fault hfault _ ih =>
    obtain ⟨hmono, htokens, hfaults⟩ := ih (by rw [← hsource]; simp)
    exact ⟨hmono, fun t ht => (htokens t ht).earlier,
      List.forall_mem_cons.mpr ⟨hfault.spans hsource, fun d hd => (hfaults d hd).earlier⟩⟩

end

variable {source : String}

theorem Spans.isLineOf {line : Nat} (h : Spans source.toList [] line) : IsLineOf source line :=
  ⟨h.le, Nat.le_trans h.line_le (Nat.le_of_eq (Nat.add_comm _ _))⟩

/-- The mark of the end is on the last line. -/
theorem getLast?_tokens (source : String) :
    (tokens source).getLast? = some (.endOfInput (newlines source.toList + 1)) := by
  rw [tokens, List.getLast?_concat, Nat.add_comm]

/-- The lines of the tokens never go down, and they and those of the diagnostics are lines of the
source. -/
theorem lines_scanned (source : String) :
    (tokens source).Pairwise (·.line ≤ ·.line) ∧ (∀ t ∈ tokens source, IsLineOf source t.line) ∧
      ∀ d ∈ diagnostics source, IsLineOf source d.line := by
  obtain ⟨pieces, ts, hsplits, htokens, hscans⟩ := exists_scans source
  obtain ⟨hmono, hlines, hfaults⟩ := hscans.lines hsplits.flatten_eq
  have hlast : Spans source.toList [] (1 + newlines source.toList) :=
    ⟨Nat.add_le_add_left (Nat.zero_le _) 1, Nat.le_refl _⟩
  rw [htokens]
  refine ⟨List.pairwise_append.mpr ⟨hmono, List.pairwise_singleton _ _, fun t ht u hu => ?_⟩,
    fun t ht => ?_, fun d hd => (hfaults d hd).isLineOf⟩
  · rw [List.mem_singleton.mp hu]
    exact (hlines t ht).line_le
  · rcases List.mem_append.mp ht with ht | ht
    · exact (hlines t ht).isLineOf
    · rw [List.mem_singleton.mp ht]
      exact hlast.isLineOf

/-- A lexical fault is on a line of its segment. -/
theorem Segment.line_of_diagnostic? {s : Segment} {d : Diagnostic} (h : s.diagnostic? = some d) :
    s.line ≤ d.line ∧ d.line ≤ s.lastLine := by
  have hspan : s.line ≤ s.lastLine := Nat.le_add_right _ _
  have hyield : s.yield = some (.error d) := by
    unfold Segment.diagnostic? at h
    split at h
    · next hyield =>
      cases h
      exact hyield
    · cases h
  have hword {kind : Kind} (hw : (s.word kind).mapError (.lexical s.lastLine) = .error d) :
      d.line = s.lastLine := by
    cases hresult : s.word kind with
    | ok t =>
      rw [hresult] at hw
      cases hw
    | error fault =>
      rw [hresult] at hw
      cases hw
      rfl
  have hline : d.line = s.line ∨ d.line = s.lastLine := by
    unfold Segment.yield at hyield
    split at hyield <;> first
      | exact .inr (hword (Option.some.inj hyield))
      | (cases hyield <;> first | exact .inl rfl | exact .inr rfl)
  omega

/-- What is reported of pieces is in the order of the lines, from the first one on. -/
theorem diagnostics_located (line : Nat) (pieces : List Piece) :
    ((located line pieces).filterMap Segment.diagnostic?).Pairwise (·.line ≤ ·.line) ∧
      ∀ d ∈ (located line pieces).filterMap Segment.diagnostic?, line ≤ d.line := by
  induction pieces generalizing line with
  | nil => exact ⟨.nil, nofun⟩
  | cons piece pieces ih =>
    obtain ⟨hmono, hlater⟩ := ih (line + newlines piece.text)
    have hrest (d : Diagnostic)
        (hd : d ∈ (located (line + newlines piece.text) pieces).filterMap Segment.diagnostic?) :
        line ≤ d.line := Nat.le_trans (Nat.le_add_right _ _) (hlater d hd)
    rw [located]
    cases hfirst : Segment.diagnostic? ⟨piece.form, line, piece.text⟩ with
    | none =>
      rw [List.filterMap_cons_none hfirst]
      exact ⟨hmono, hrest⟩
    | some d =>
      obtain ⟨hle, hle'⟩ := Segment.line_of_diagnostic? hfirst
      rw [List.filterMap_cons_some hfirst]
      exact ⟨List.pairwise_cons.mpr ⟨fun d' hd' => Nat.le_trans hle' (hlater d' hd'), hmono⟩,
        List.forall_mem_cons.mpr ⟨hle, hrest⟩⟩

/-- Lexical faults are reported in the order of their lines. -/
theorem pairwise_diagnostics (source : String) :
    (diagnostics source).Pairwise (·.line ≤ ·.line) := by
  obtain ⟨pieces, hsplits⟩ := exists_splits source.toList
  rw [diagnostics, segments_eq hsplits]
  exact (diagnostics_located 1 pieces).1

end Source

end ScriptLang
