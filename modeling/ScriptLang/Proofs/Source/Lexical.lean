import Mathlib.Data.List.Infix
import Mathlib.Data.List.TakeWhile
import ScriptLang.Proofs.Source.Spelling

/-!
# The lexical grammar

What a segment of a source text may be, said without a procedure: `Lexes form text rest` says that
a segment of the form has the text, if `rest` is what follows it. Comments, numbers and words go on
as long as they can (`Longest`), an operator is the longest one that can be read, and a nested
comment ends with the mark that first balances the marks before it, when these are read from the
left (`Comment.Closes`).

At every place of a source there is one segment only, and `measure` finds it (`lexes_iff`).
-/

namespace ScriptLang

/-! ## Symbols -/

/-- A symbol has one or two characters. -/
theorem Symbol.length_spelling_le (s : Symbol) : 0 < s.spelling.length ∧ s.spelling.length ≤ 2 := by
  cases s <;> decide

theorem Symbol.eq_slash {s : Symbol} {cs : List Char} (h : s.spelling = '/' :: cs) :
    s = .slash := by
  cases s <;> first | rfl | cases h

/-- The slash is the only symbol that starts with a slash. -/
theorem Symbol.length_le_of_slash {s : Symbol} {cs : List Char} (h : s.spelling <+: '/' :: cs) :
    s.spelling.length ≤ 1 := by
  rcases List.prefix_cons_iff.mp h with hnil | ⟨t, ht, -⟩
  · simp [hnil]
  · obtain rfl := Symbol.eq_slash ht
    exact Nat.le_refl 1

theorem Symbol.ofSpelling_ne_none {s : Symbol} {cs : List Char} (h : s.spelling = cs) :
    Symbol.ofSpelling cs ≠ none := by
  rw [← h, Symbol.ofSpelling_spelling]
  simp

/-- The first character of a symbol is a symbol too. -/
theorem Symbol.ofSpelling_head {s : Symbol} {c : Char} (h : s.spelling.head? = some c) :
    Symbol.ofSpelling [c] ≠ none := by
  cases s <;> cases h <;> decide

namespace Source

/-! ## Stretches of characters -/

/-- The stretch has characters of one class, and what follows it does not go on with one. -/
def Longest (p : Char → Prop) (body rest : List Char) : Prop :=
  (∀ c ∈ body, p c) ∧ ∀ c ∈ rest.head?, ¬ p c

theorem Longest.takeWhile_eq {p : Char → Bool} {body rest : List Char}
    (h : Longest (p · = true) body rest) : (body ++ rest).takeWhile p = body := by
  rw [List.takeWhile_append_of_pos h.1]
  cases rest with
  | nil => simp
  | cons c rest => simp [h.2 c rfl]

theorem Longest.congr {p q : Char → Prop} {body rest : List Char} (h : Longest p body rest)
    (hpq : ∀ c, p c ↔ q c) : Longest q body rest :=
  ⟨fun c hc => (hpq c).mp (h.1 c hc), fun c hc hq => h.2 c hc ((hpq c).mpr hq)⟩

/-- A text starts with a longest stretch of a class of characters. -/
theorem exists_longest (p : Char → Bool) (cs : List Char) :
    ∃ body rest, cs = body ++ rest ∧ Longest (p · = true) body rest := by
  refine ⟨cs.takeWhile p, cs.dropWhile p, List.takeWhile_append_dropWhile.symm,
    fun c hc => List.mem_takeWhile_imp hc, fun c hc => ?_⟩
  have hstop := List.head?_dropWhile_not p cs
  rw [Option.mem_def.mp hc] at hstop
  simpa using hstop

/-- A prefix that does not have the character in it ends before the character. -/
theorem prefix_of_notMem {cs text rest : List Char} {c : Char} (h : cs <+: text ++ c :: rest)
    (hc : c ∉ cs) : cs <+: text := by
  rcases List.prefix_or_prefix_of_prefix h (List.prefix_append text _) with hshort | hlong
  · exact hshort
  · obtain ⟨more, hmore⟩ := hlong
    cases more with
    | nil => rw [← hmore, List.append_nil]
    | cons d more =>
      -- the longer text would have the character in it
      rw [← hmore, List.prefix_append_right_inj] at h
      obtain rfl : d = c := (List.cons_prefix_cons.mp h).1
      exact absurd (hmore ▸ by simp) hc

/-! ## Nested comments -/

namespace Comment

/-- What the inside of a comment is made of: marks that open and close comments, and other
characters. -/
inductive Part
  | opening
  | closing
  | other (c : Char)
  deriving DecidableEq

/-- The text is divided into parts from the left: wherever there is a mark, it is taken as one. -/
inductive Divides : List Char → List Part → Prop
  | nil : Divides [] []
  | opening {cs ps} (h : Divides cs ps) : Divides ('/' :: '*' :: cs) (.opening :: ps)
  | closing {cs ps} (h : Divides cs ps) : Divides ('*' :: '/' :: cs) (.closing :: ps)
  | other {c cs ps} (hopening : ¬ ['/', '*'] <+: c :: cs) (hclosing : ¬ ['*', '/'] <+: c :: cs)
    (h : Divides cs ps) : Divides (c :: cs) (.other c :: ps)

/-- The comment that is `depth + 1` comments deep is nowhere closed by the parts. -/
def Open (depth : Nat) (ps : List Part) : Prop :=
  ∀ qs, qs <+: ps → qs.count .closing ≤ qs.count .opening + depth

/-- It is closed by the last part, and not before. -/
def Closed (depth : Nat) (ps : List Part) : Prop :=
  ∃ qs, ps = qs ++ [.closing] ∧ Open depth qs ∧ qs.count .closing = qs.count .opening + depth

variable {depth seen n : Nat} {ps : List Part} {cs body rest : List Char} {c : Char}

theorem open_nil : Open depth [] := by
  intro qs hqs
  rw [List.prefix_nil.mp hqs]
  simp

theorem open_cons {p : Part} : Open depth (p :: ps) ↔
    ∀ qs, qs <+: ps → (p :: qs).count .closing ≤ (p :: qs).count .opening + depth := by
  refine ⟨fun h qs hqs => h _ (List.cons_prefix_cons.mpr ⟨rfl, hqs⟩), fun h qs hqs => ?_⟩
  rcases List.prefix_cons_iff.mp hqs with rfl | ⟨qs, rfl, hrest⟩
  · simp
  · exact h qs hrest

theorem open_opening : Open depth (.opening :: ps) ↔ Open (depth + 1) ps := by
  rw [open_cons]
  refine forall₂_congr fun qs _ => ?_
  rw [List.count_cons_self, List.count_cons_of_ne (by decide)]
  omega

theorem open_closing : Open (depth + 1) (.closing :: ps) ↔ Open depth ps := by
  rw [open_cons]
  refine forall₂_congr fun qs _ => ?_
  rw [List.count_cons_self, List.count_cons_of_ne (by decide)]
  omega

theorem open_other : Open depth (.other c :: ps) ↔ Open depth ps := by
  rw [open_cons]
  refine forall₂_congr fun qs _ => ?_
  rw [List.count_cons_of_ne (by simp), List.count_cons_of_ne (by simp)]

/-- A mark that closes the outermost comment ends it. -/
theorem not_open_zero : ¬ Open 0 (.closing :: ps) := by
  intro h
  have hfirst := h [.closing] (List.cons_prefix_cons.mpr ⟨rfl, List.nil_prefix⟩)
  simp at hfirst

theorem closed_opening : Closed depth (.opening :: ps) ↔ Closed (depth + 1) ps := by
  constructor
  · rintro ⟨qs, heq, hopen, hcount⟩
    cases qs with
    | nil => cases heq
    | cons q qs =>
      cases heq
      refine ⟨qs, rfl, open_opening.mp hopen, ?_⟩
      simp at hcount
      omega
  · rintro ⟨qs, rfl, hopen, hcount⟩
    refine ⟨.opening :: qs, rfl, open_opening.mpr hopen, ?_⟩
    simp
    omega

theorem closed_closing : Closed (depth + 1) (.closing :: ps) ↔ Closed depth ps := by
  constructor
  · rintro ⟨qs, heq, hopen, hcount⟩
    cases qs with
    | nil => simp at hcount
    | cons q qs =>
      cases heq
      refine ⟨qs, rfl, open_closing.mp hopen, ?_⟩
      simp at hcount
      omega
  · rintro ⟨qs, rfl, hopen, hcount⟩
    refine ⟨.closing :: qs, rfl, open_closing.mpr hopen, ?_⟩
    simp
    omega

theorem closed_zero : Closed 0 (.closing :: ps) ↔ ps = [] := by
  constructor
  · rintro ⟨qs, heq, hopen, -⟩
    cases qs with
    | nil =>
      cases heq
      rfl
    | cons q qs =>
      cases heq
      exact absurd hopen not_open_zero
  · rintro rfl
    exact ⟨[], rfl, open_nil, rfl⟩

theorem closed_other : Closed depth (.other c :: ps) ↔ Closed depth ps := by
  constructor
  · rintro ⟨qs, heq, hopen, hcount⟩
    cases qs with
    | nil => cases heq
    | cons q qs =>
      cases heq
      exact ⟨qs, rfl, open_other.mp hopen, by simpa using hcount⟩
  · rintro ⟨qs, rfl, hopen, hcount⟩
    exact ⟨.other c :: qs, rfl, open_other.mpr hopen, by simpa using hcount⟩

theorem not_closed_nil : ¬ Closed depth [] := by
  rintro ⟨qs, heq, -⟩
  simp at heq

/-- The inside of a comment, with the mark that closes it. -/
def Closes (body : List Char) : Prop := ∃ ps, Divides body ps ∧ Closed 0 ps

/-- The inside of a comment that is not closed. -/
def StaysOpen (body : List Char) : Prop := ∃ ps, Divides body ps ∧ Open 0 ps

/-! ### Reading comments -/

theorem commentLength_closing_zero : commentLength 0 seen ('*' :: '/' :: cs) = some (seen + 2) := rfl

theorem commentLength_closing_succ :
    commentLength (depth + 1) seen ('*' :: '/' :: cs) = commentLength depth (seen + 2) cs := rfl

/-- A comment that is closed is as long as it is found to be. -/
theorem commentLength_of_closed (h : Divides body ps) (hclosed : Closed depth ps) :
    commentLength depth seen (body ++ rest) = some (seen + body.length) := by
  induction h generalizing depth seen with
  | nil => exact absurd hclosed not_closed_nil
  | opening _ ih =>
    rw [List.cons_append, List.cons_append, commentLength, ih (closed_opening.mp hclosed)]
    simp only [List.length_cons]
    congr 1
    omega
  | @closing cs ps h ih =>
    rw [List.cons_append, List.cons_append]
    cases depth with
    | zero =>
      cases closed_zero.mp hclosed
      cases h
      exact commentLength_closing_zero
    | succ depth =>
      rw [commentLength_closing_succ, ih (closed_closing.mp hclosed)]
      simp only [List.length_cons]
      congr 1
      omega
  | @other c cs ps hopening hclosing h ih =>
    have hps := closed_other.mp hclosed
    -- the mark that closes is still to come, so the next character is one of the comment
    obtain ⟨d, cs', rfl⟩ : ∃ d cs', cs = d :: cs' := by
      cases h with
      | nil => exact absurd hps not_closed_nil
      | opening _ => exact ⟨_, _, rfl⟩
      | closing _ => exact ⟨_, _, rfl⟩
      | other _ _ _ => exact ⟨_, _, rfl⟩
    rw [List.cons_append, commentLength, ih hps]
    · simp only [List.length_cons]
      congr 1
      omega
    · rintro cs'' rfl heq
      cases heq
      exact hopening (by simp)
    · rintro cs'' rfl heq
      cases heq
      exact hclosing (by simp)

/-- A comment that is not closed has no end. -/
theorem commentLength_of_open (h : Divides cs ps) (hopen : Open depth ps) :
    commentLength depth seen cs = none := by
  induction h generalizing depth seen with
  | nil => rfl
  | opening _ ih => rw [commentLength, ih (open_opening.mp hopen)]
  | closing _ ih =>
    cases depth with
    | zero => exact absurd hopen not_open_zero
    | succ depth => rw [commentLength_closing_succ, ih (open_closing.mp hopen)]
  | @other c cs ps hopening hclosing _ ih =>
    rw [commentLength, ih (open_other.mp hopen)]
    · rintro cs' rfl rfl
      exact hopening (by simp)
    · rintro cs' rfl rfl
      exact hclosing (by simp)

theorem not_prefix_of_forall {a b : Char} (h : ∀ cs', c = a → cs = b :: cs' → False) :
    ¬ [a, b] <+: c :: cs := by
  rintro ⟨tail, htail⟩
  cases htail
  exact h _ rfl rfl

/-- What is found to close a comment closes it. -/
theorem closed_of_commentLength (h : commentLength depth seen cs = some n) :
    ∃ body rest ps, cs = body ++ rest ∧ n = seen + body.length ∧ Divides body ps ∧
      Closed depth ps := by
  fun_induction commentLength depth seen cs with
  | case1 depth seen cs ih =>
    obtain ⟨body, rest, ps, rfl, rfl, hdivides, hclosed⟩ := ih h
    exact ⟨'/' :: '*' :: body, rest, .opening :: ps, rfl, by simp; omega, .opening hdivides,
      closed_opening.mpr hclosed⟩
  | case2 seen cs =>
    cases h
    exact ⟨['*', '/'], cs, [.closing], rfl, rfl, .closing .nil, closed_zero.mpr rfl⟩
  | case3 seen cs depth ih =>
    obtain ⟨body, rest, ps, rfl, rfl, hdivides, hclosed⟩ := ih h
    exact ⟨'*' :: '/' :: body, rest, .closing :: ps, rfl, by simp; omega, .closing hdivides,
      closed_closing.mpr hclosed⟩
  | case4 depth seen c cs hopening hclosing ih =>
    obtain ⟨body, rest, ps, rfl, rfl, hdivides, hclosed⟩ := ih h
    refine ⟨c :: body, rest, .other c :: ps, rfl, by simp; omega, .other ?_ ?_ hdivides,
      closed_other.mpr hclosed⟩
    · exact not_prefix_of_forall fun cs' hc hcs => hopening (cs' ++ rest) hc (by rw [hcs]; rfl)
    · exact not_prefix_of_forall fun cs' hc hcs => hclosing (cs' ++ rest) hc (by rw [hcs]; rfl)
  | case5 => cases h

/-- Where no end is found, the comment is not closed. -/
theorem open_of_commentLength (h : commentLength depth seen cs = none) :
    ∃ ps, Divides cs ps ∧ Open depth ps := by
  fun_induction commentLength depth seen cs with
  | case1 depth seen cs ih =>
    obtain ⟨ps, hdivides, hopen⟩ := ih h
    exact ⟨.opening :: ps, .opening hdivides, open_opening.mpr hopen⟩
  | case2 => cases h
  | case3 seen cs depth ih =>
    obtain ⟨ps, hdivides, hopen⟩ := ih h
    exact ⟨.closing :: ps, .closing hdivides, open_closing.mpr hopen⟩
  | case4 depth seen c cs hopening hclosing ih =>
    obtain ⟨ps, hdivides, hopen⟩ := ih h
    refine ⟨.other c :: ps, .other ?_ ?_ hdivides, open_other.mpr hopen⟩
    · exact not_prefix_of_forall hopening
    · exact not_prefix_of_forall hclosing
  | case5 => exact ⟨[], .nil, open_nil⟩

end Comment

/-! ## Segments -/

/-- A segment of the form may have the text, if `rest` is what follows it. The last two forms are
for the end of a source only. -/
inductive Lexes : Form → List Char → List Char → Prop
  | blank {c rest} (h : c ∈ [' ', '\r', '\t', '\n']) : Lexes .blank [c] rest
  | lineComment {body rest} (h : Longest (· ≠ '\n') body rest) :
    Lexes .lineComment ('/' :: '/' :: body) rest
  | blockComment {body rest} (h : Comment.Closes body) :
    Lexes .blockComment ('/' :: '*' :: body) rest
  | symbol {s : Symbol} {rest}
    (hlongest : ∀ s' : Symbol, s'.spelling <+: s.spelling ++ rest →
      s'.spelling.length ≤ s.spelling.length)
    (hcomment : s = .slash → ∀ c ∈ rest.head?, c ≠ '/' ∧ c ≠ '*') :
    Lexes (.symbol s) s.spelling rest
  | string {body rest} (h : '"' ∉ body) : Lexes .string ('"' :: (body ++ ['"'])) rest
  | integer {digits rest} (hdigits : digits ≠ []) (h : Longest (·.isDigit) digits rest)
    (hpoint : ∀ d rest', rest = '.' :: d :: rest' → ¬ d.isDigit) : Lexes .number digits rest
  | fraction {digits places rest} (hdigits : digits ≠ []) (h : ∀ c ∈ digits, c.isDigit)
    (hplaces : places ≠ []) (hlongest : Longest (·.isDigit) places rest) :
    Lexes .number (digits ++ '.' :: places) rest
  | word {c body rest} (hstart : c.isAlpha ∨ c = '_')
    (h : Longest (fun c => c.isAlpha ∨ c = '_' ∨ c.isDigit) body rest) :
    Lexes .word (c :: body) rest
  | unexpected {c rest} (hblank : c ∉ [' ', '\r', '\t', '\n'])
    (hsymbol : ∀ s : Symbol, s.spelling.head? ≠ some c) (hquote : c ≠ '"')
    (hdigit : ¬ c.isDigit) (hstart : ¬ (c.isAlpha ∨ c = '_')) : Lexes .unexpected [c] rest
  | openString {body} (h : '"' ∉ body) : Lexes .openString ('"' :: body) []
  | openComment {body} (h : Comment.StaysOpen body) : Lexes .openComment ('/' :: '*' :: body) []

/-! ### What is measured is a segment -/

theorem isBlank_iff {c : Char} : isBlank c = true ↔ c ∈ [' ', '\r', '\t', '\n'] := by
  simp [isBlank, or_assoc]

theorem isWordStart_iff {c : Char} : isWordStart c = true ↔ c.isAlpha ∨ c = '_' := by
  simp [isWordStart]

theorem isWordPart_iff {c : Char} :
    isWordPart c = true ↔ c.isAlpha ∨ c = '_' ∨ c.isDigit := by
  simp [isWordPart, isWordStart, or_assoc]

theorem lexes_measureSlash {cs body rest : List Char} {form : Form} (hcs : cs = body ++ rest)
    (h : measureSlash cs = (form, body.length)) : Lexes form ('/' :: body) rest := by
  unfold measureSlash at h
  split at h
  · rename_i cs'
    obtain ⟨tail, rest', rfl, hlongest⟩ := exists_longest (fun c => decide (c ≠ '\n')) cs'
    rw [hlongest.takeWhile_eq] at h
    obtain ⟨rfl, hlength⟩ := Prod.mk.inj h
    have happend : ('/' :: tail) ++ rest' = body ++ rest := hcs
    obtain ⟨rfl, rfl⟩ := List.append_inj happend (by simp; omega)
    exact .lineComment (hlongest.congr (by simp))
  · rename_i cs'
    split at h
    · rename_i n hn
      obtain ⟨inside, rest', ps, rfl, rfl, hdivides, hclosed⟩ := Comment.closed_of_commentLength hn
      obtain ⟨rfl, hlength⟩ := Prod.mk.inj h
      have happend : ('*' :: inside) ++ rest' = body ++ rest := hcs
      obtain ⟨rfl, rfl⟩ := List.append_inj happend (by simp; omega)
      exact .blockComment ⟨ps, hdivides, hclosed⟩
    · rename_i hnone
      obtain ⟨ps, hdivides, hopen⟩ := Comment.open_of_commentLength hnone
      obtain ⟨rfl, hlength⟩ := Prod.mk.inj h
      have happend : ('*' :: cs') ++ [] = body ++ rest := by rw [List.append_nil, hcs]
      obtain ⟨rfl, rfl⟩ := List.append_inj happend (by simp; omega)
      exact .openComment ⟨ps, hdivides, hopen⟩
  · rename_i hline hblock
    obtain ⟨rfl, hlength⟩ := Prod.mk.inj h
    obtain rfl : body = [] := List.eq_nil_of_length_eq_zero hlength.symm
    subst hcs
    refine .symbol (s := .slash) (fun s' hs' => Symbol.length_le_of_slash hs') fun _ c hc => ?_
    obtain ⟨rest', rfl⟩ := List.head?_eq_some_iff.mp (Option.mem_def.mp hc)
    exact ⟨fun heq => hline rest' (heq ▸ rfl), fun heq => hblock rest' (heq ▸ rfl)⟩

theorem lexes_measureQuote {cs body rest : List Char} {form : Form} (hcs : cs = body ++ rest)
    (h : measureQuote cs = (form, body.length)) : Lexes form ('"' :: body) rest := by
  obtain ⟨inside, rest', rfl, hlongest⟩ := exists_longest (fun c => decide (c ≠ '"')) cs
  have hquote : '"' ∉ inside := fun hmem => by simpa using hlongest.1 _ hmem
  unfold measureQuote at h
  rw [hlongest.takeWhile_eq] at h
  dsimp only at h
  split at h
  · rename_i hlt
    obtain ⟨rfl, hlength⟩ := Prod.mk.inj h
    cases rest' with
    | nil => simp at hlt
    | cons c rest' =>
      obtain rfl : c = '"' := by simpa using hlongest.2 c rfl
      have happend : (inside ++ ['"']) ++ rest' = body ++ rest := by
        rw [← hcs, List.append_assoc]
        rfl
      obtain ⟨rfl, rfl⟩ := List.append_inj happend (by simp; omega)
      exact .string hquote
  · rename_i hge
    obtain ⟨rfl, hlength⟩ := Prod.mk.inj h
    obtain rfl : rest' = [] := by
      cases rest' with
      | nil => rfl
      | cons c rest' => simp at hge
    obtain ⟨rfl, rfl⟩ := List.append_inj hcs hlength
    exact .openString hquote

/-- A number is its digits, or its digits, a point and more digits. -/
theorem numberLength_cases (cs : List Char) :
    (∃ digits rest, cs = digits ++ rest ∧ numberLength cs = digits.length ∧
      Longest (·.isDigit) digits rest ∧ ∀ d rest', rest = '.' :: d :: rest' → ¬ d.isDigit) ∨
    ∃ digits places rest, cs = digits ++ '.' :: places ++ rest ∧
      numberLength cs = (digits ++ '.' :: places).length ∧ (∀ c ∈ digits, c.isDigit) ∧
      places ≠ [] ∧ Longest (·.isDigit) places rest := by
  obtain ⟨digits, rest, rfl, hdigits⟩ := exists_longest Char.isDigit cs
  unfold numberLength
  rw [hdigits.takeWhile_eq]
  dsimp only
  rw [List.drop_left]
  split
  · rename_i places
    obtain ⟨places, rest, rfl, hplaces⟩ := exists_longest Char.isDigit places
    rw [hplaces.takeWhile_eq]
    split
    · rename_i hnone
      obtain rfl := List.eq_nil_of_length_eq_zero hnone
      refine .inl ⟨digits, _, rfl, rfl, hdigits, fun d rest' heq => ?_⟩
      cases heq
      exact hplaces.2 d rfl
    · rename_i n hn
      refine .inr ⟨digits, places, rest, by simp, by simp; omega, hdigits.1, ?_, hplaces⟩
      rintro rfl
      cases hn
  · rename_i hpoint
    exact .inl ⟨digits, rest, rfl, rfl, hdigits, fun d rest' heq => absurd heq (hpoint _)⟩

theorem lexes_number {c : Char} {body rest : List Char} (hc : c.isDigit)
    (h : numberLength (body ++ rest) = body.length) : Lexes .number (c :: body) rest := by
  rcases numberLength_cases (body ++ rest) with
    ⟨digits, rest', heq, hlength, hlongest, hpoint⟩ |
    ⟨digits, places, rest', heq, hlength, hdigits, hplaces, hlongest⟩
  · obtain ⟨rfl, rfl⟩ := List.append_inj heq (h.symm.trans hlength)
    refine .integer (by simp) ⟨?_, hlongest.2⟩ hpoint
    exact List.forall_mem_cons.mpr ⟨hc, hlongest.1⟩
  · obtain ⟨rfl, rfl⟩ := List.append_inj heq (h.symm.trans hlength)
    have hall : ∀ x ∈ c :: digits, x.isDigit := List.forall_mem_cons.mpr ⟨hc, hdigits⟩
    have hfraction : Lexes .number ((c :: digits) ++ '.' :: places) rest :=
      .fraction (by simp) hall hplaces hlongest
    exact hfraction

theorem lexes_measureSymbol {c : Char} {body rest : List Char} {form : Form}
    (hblank : c ∉ [' ', '\r', '\t', '\n']) (hslash : c ≠ '/') (hquote : c ≠ '"')
    (hdigit : ¬ c.isDigit) (hstart : ¬ (c.isAlpha ∨ c = '_'))
    (h : measureSymbol c (body ++ rest) = (form, body.length)) : Lexes form (c :: body) rest := by
  have hnot {s : Symbol} {cs : List Char} (hs : s.spelling = c :: cs) : s ≠ .slash := by
    rintro rfl
    cases hs
    exact hslash rfl
  unfold measureSymbol at h
  cases hlong : (body ++ rest).head?.bind (fun d => Symbol.ofSpelling [c, d]) with
  | some s =>
    rw [hlong] at h
    obtain ⟨rfl, hlength⟩ := Prod.mk.inj h
    obtain ⟨d, rfl⟩ := List.length_eq_one_iff.mp hlength.symm
    obtain ⟨d', hd, hs⟩ := Option.bind_eq_some_iff.mp hlong
    cases hd
    have hspelling := Symbol.spelling_of_ofSpelling hs
    rw [← hspelling]
    refine .symbol (fun s' _ => ?_) fun heq => absurd heq (hnot hspelling)
    rw [hspelling]
    exact (Symbol.length_spelling_le s').2
  | none =>
    rw [hlong] at h
    cases hshort : Symbol.ofSpelling [c] with
    | some s =>
      rw [hshort] at h
      obtain ⟨rfl, hlength⟩ := Prod.mk.inj h
      obtain rfl : body = [] := List.eq_nil_of_length_eq_zero hlength.symm
      have hspelling := Symbol.spelling_of_ofSpelling hshort
      rw [← hspelling]
      refine .symbol (fun s' hs' => ?_) fun heq => absurd heq (hnot hspelling)
      rw [hspelling] at hs' ⊢
      -- a longer symbol would have been found
      rcases List.prefix_cons_iff.mp hs' with hnil | ⟨cs, hcs, hprefix⟩
      · simp [hnil]
      · cases cs with
        | nil => simp [hcs]
        | cons d cs =>
          have hle := (Symbol.length_spelling_le s').2
          rw [hcs] at hle
          obtain rfl : cs = [] := List.eq_nil_of_length_eq_zero (by simpa using hle)
          obtain ⟨rest', rfl⟩ := hprefix
          exact absurd hlong (Symbol.ofSpelling_ne_none hcs)
    | none =>
      rw [hshort] at h
      obtain ⟨rfl, hlength⟩ := Prod.mk.inj h
      obtain rfl : body = [] := List.eq_nil_of_length_eq_zero hlength.symm
      exact .unexpected hblank (fun s hs => Symbol.ofSpelling_head hs hshort) hquote hdigit hstart

/-- What is measured is a segment. -/
theorem lexes_measure {c : Char} {body rest : List Char} {form : Form}
    (h : measure c (body ++ rest) = (form, body.length)) : Lexes form (c :: body) rest := by
  unfold measure at h
  split at h
  · rename_i hblank
    obtain ⟨rfl, hlength⟩ := Prod.mk.inj h
    obtain rfl : body = [] := List.eq_nil_of_length_eq_zero hlength.symm
    exact .blank (isBlank_iff.mp hblank)
  · rename_i hblank
    split at h
    · rename_i hslash
      subst hslash
      exact lexes_measureSlash rfl h
    · rename_i hslash
      split at h
      · rename_i hquote
        subst hquote
        exact lexes_measureQuote rfl h
      · rename_i hquote
        split at h
        · rename_i hdigit
          obtain ⟨rfl, hlength⟩ := Prod.mk.inj h
          exact lexes_number hdigit hlength
        · rename_i hdigit
          split at h
          · rename_i hstart
            obtain ⟨rfl, hlength⟩ := Prod.mk.inj h
            obtain ⟨part, rest', heq, hlongest⟩ := exists_longest isWordPart (body ++ rest)
            rw [heq, hlongest.takeWhile_eq] at hlength
            obtain ⟨rfl, rfl⟩ := List.append_inj heq hlength.symm
            exact .word (isWordStart_iff.mp hstart) (hlongest.congr fun _ => isWordPart_iff)
          · rename_i hstart
            exact lexes_measureSymbol (mt isBlank_iff.mpr hblank) hslash hquote hdigit
              (mt isWordStart_iff.mpr hstart) h

/-! ### A segment is what is measured -/

/-- The characters that decide at once what a segment is. -/
def marks : List Char := [' ', '\r', '\t', '\n', '/', '"']

theorem measure_of_not_mark {c : Char} {cs : List Char} (h : c ∉ marks) :
    measure c cs = if c.isDigit then (.number, numberLength cs)
      else if isWordStart c then (.word, (cs.takeWhile isWordPart).length)
      else measureSymbol c cs := by
  simp only [marks, List.mem_cons, List.not_mem_nil, or_false, not_or] at h
  obtain ⟨hspace, hreturn, htab, hline, hslash, hquote⟩ := h
  simp [measure, isBlank, hspace, hreturn, htab, hline, hslash, hquote]

/-- A class of characters that holds none of the marks. -/
theorem not_mark {p : Char → Bool} (hp : marks.all (! p ·)) {c : Char} (hc : p c = true) :
    c ∉ marks := by
  intro hmem
  have hnot := List.all_eq_true.mp hp c hmem
  simp [hc] at hnot

theorem measure_digit {c : Char} {cs : List Char} (hc : c.isDigit) :
    measure c cs = (.number, numberLength cs) := by
  rw [measure_of_not_mark (not_mark (by decide) hc), if_pos hc]

theorem not_isDigit_of_isWordStart {c : Char} (hc : isWordStart c = true) : ¬ c.isDigit := by
  intro hdigit
  delta isWordStart Char.isAlpha Char.isUpper Char.isLower at hc
  delta Char.isDigit at hdigit
  simp only [Bool.or_eq_true, Bool.and_eq_true, decide_eq_true_eq, UInt32.le_iff_toNat_le]
    at hc hdigit
  rcases hc with (⟨hlow, hhigh⟩ | ⟨hlow, hhigh⟩) | rfl
  · simp at hlow hdigit
    omega
  · simp at hlow hdigit
    omega
  · simp at hdigit

theorem measure_wordStart {c : Char} {cs : List Char} (hc : isWordStart c = true) :
    measure c cs = (.word, (cs.takeWhile isWordPart).length) := by
  rw [measure_of_not_mark (not_mark (by decide) hc), if_neg (not_isDigit_of_isWordStart hc),
    if_pos hc]

theorem measureSymbol_of_long {s : Symbol} {c d : Char} {cs : List Char}
    (h : s.spelling = [c, d]) : measureSymbol c (d :: cs) = (.symbol s, 1) := by
  have hs : Symbol.ofSpelling [c, d] = some s := by rw [← h, Symbol.ofSpelling_spelling]
  simp [measureSymbol, hs]

/-- What no symbol goes on with is left to the character alone. -/
theorem measureSymbol_of_short {c : Char} {cs : List Char}
    (h : ∀ s : Symbol, ∀ d ∈ cs.head?, s.spelling ≠ [c, d]) :
    measureSymbol c cs = match Symbol.ofSpelling [c] with
      | some s => (.symbol s, 0)
      | none => (.unexpected, 0) := by
  have hnone : cs.head?.bind (fun d => Symbol.ofSpelling [c, d]) = none := by
    rw [Option.bind_eq_none_iff]
    intro d hd
    cases hs : Symbol.ofSpelling [c, d] with
    | none => rfl
    | some s => exact absurd (Symbol.spelling_of_ofSpelling hs) (h s d hd)
  cases hshort : Symbol.ofSpelling [c] <;> simp only [measureSymbol, hnone, hshort]

theorem measure_symbol {s : Symbol} {c : Char} {cs rest : List Char} (h : s.spelling = c :: cs) :
    measure c rest = if c = '/' then measureSlash rest else measureSymbol c rest := by
  cases s <;> cases h <;> rfl

theorem measure_slash {cs : List Char} : measure '/' cs = measureSlash cs := rfl

theorem measure_quote {cs : List Char} : measure '"' cs = measureQuote cs := rfl

theorem measureSlash_of_symbol {cs : List Char} (h : ∀ c ∈ cs.head?, c ≠ '/' ∧ c ≠ '*') :
    measureSlash cs = (.symbol .slash, 0) := by
  cases cs with
  | nil => rfl
  | cons c cs =>
    obtain ⟨hline, hblock⟩ := h c rfl
    unfold measureSlash
    split
    · rename_i heq
      exact absurd (List.cons.inj heq).1 hline
    · rename_i heq
      exact absurd (List.cons.inj heq).1 hblock
    · rfl

theorem numberLength_of_integer {digits rest : List Char} (h : Longest (·.isDigit) digits rest)
    (hpoint : ∀ d rest', rest = '.' :: d :: rest' → ¬ d.isDigit) :
    numberLength (digits ++ rest) = digits.length := by
  unfold numberLength
  rw [h.takeWhile_eq]
  dsimp only
  rw [List.drop_left]
  split
  · rename_i places
    cases places with
    | nil => rfl
    | cons d places =>
      rw [List.takeWhile_cons_of_neg (hpoint d places rfl)]
      rfl
  · rfl

theorem numberLength_of_fraction {digits places rest : List Char} (h : ∀ c ∈ digits, c.isDigit)
    (hplaces : places ≠ []) (hlongest : Longest (·.isDigit) places rest) :
    numberLength (digits ++ '.' :: places ++ rest) = (digits ++ '.' :: places).length := by
  have hdigits : Longest (·.isDigit) digits ('.' :: (places ++ rest)) := ⟨h, by simp⟩
  unfold numberLength
  rw [List.append_assoc, List.cons_append, hdigits.takeWhile_eq]
  dsimp only
  rw [List.drop_left]
  split
  · rename_i places' heq
    cases heq
    rw [hlongest.takeWhile_eq]
    split
    · rename_i hnone
      exact absurd (List.eq_nil_of_length_eq_zero hnone) hplaces
    · rename_i n hn
      simp
      omega
  · rename_i hpoint
    exact absurd rfl (hpoint _)

theorem longest_unquoted {body rest : List Char} (hbody : '"' ∉ body)
    (hrest : ∀ c ∈ rest.head?, c = '"') :
    Longest (fun c => decide (c ≠ '"') = true) body rest := by
  refine ⟨fun c hc => ?_, fun c hc => by simpa using hrest c hc⟩
  simpa using fun heq : c = '"' => hbody (heq ▸ hc)

theorem measure_unexpected {c : Char} {rest : List Char} (hblank : c ∉ [' ', '\r', '\t', '\n'])
    (hsymbol : ∀ s : Symbol, s.spelling.head? ≠ some c) (hquote : c ≠ '"') (hdigit : ¬ c.isDigit)
    (hstart : ¬ (c.isAlpha ∨ c = '_')) : measure c rest = (.unexpected, 0) := by
  have hslash : c ≠ '/' := fun heq => hsymbol .slash (heq ▸ rfl)
  have hmark : c ∉ marks := by
    intro hmem
    simp only [marks, List.mem_cons, List.not_mem_nil, or_false] at hmem hblank
    grind
  have hshort : Symbol.ofSpelling [c] = none := by
    cases hs : Symbol.ofSpelling [c] with
    | none => rfl
    | some s =>
      have hspelling := Symbol.spelling_of_ofSpelling hs
      exact absurd (congrArg List.head? hspelling) (hsymbol s)
  rw [measure_of_not_mark hmark, if_neg hdigit, if_neg (mt isWordStart_iff.mp hstart),
    measureSymbol_of_short fun s d _ hs => hsymbol s (congrArg List.head? hs), hshort]

theorem measure_of_symbol {s : Symbol} {c : Char} {cs rest : List Char}
    (hs : s.spelling = c :: cs)
    (hlongest : ∀ s' : Symbol, s'.spelling <+: s.spelling ++ rest →
      s'.spelling.length ≤ s.spelling.length)
    (hcomment : s = .slash → ∀ c ∈ rest.head?, c ≠ '/' ∧ c ≠ '*') :
    measure c (cs ++ rest) = (.symbol s, cs.length) := by
  rw [measure_symbol hs]
  split
  · rename_i hslash
    subst hslash
    obtain rfl := Symbol.eq_slash hs
    cases hs
    exact measureSlash_of_symbol (hcomment rfl)
  · cases cs with
    | nil =>
      have hshort : Symbol.ofSpelling [c] = some s := by rw [← hs, Symbol.ofSpelling_spelling]
      have hlone (s' : Symbol) (d : Char) (hd : d ∈ rest.head?) : s'.spelling ≠ [c, d] := by
        intro hs'
        obtain ⟨rest', rfl⟩ := List.head?_eq_some_iff.mp (Option.mem_def.mp hd)
        have hlonger := hlongest s' (by rw [hs, hs']; simp)
        simp [hs, hs'] at hlonger
      rw [List.nil_append, measureSymbol_of_short hlone, hshort]
      rfl
    | cons d cs =>
      have hle := s.length_spelling_le.2
      rw [hs] at hle
      obtain rfl : cs = [] := List.eq_nil_of_length_eq_zero (by simpa using hle)
      exact measureSymbol_of_long hs

/-- A segment is measured as what it is. -/
theorem Lexes.measure_eq {form : Form} {text rest : List Char} (h : Lexes form text rest) :
    ∃ c body, text = c :: body ∧ measure c (body ++ rest) = (form, body.length) := by
  cases h with
  | @blank c _ hc => exact ⟨c, [], rfl, by rw [measure, if_pos (isBlank_iff.mpr hc)]; rfl⟩
  | @lineComment body _ hlongest =>
    refine ⟨'/', '/' :: body, rfl, ?_⟩
    have htake := (hlongest.congr (q := fun c => decide (c ≠ '\n') = true) (by simp)).takeWhile_eq
    rw [measure_slash, List.cons_append, measureSlash, htake, List.length_cons, Nat.add_comm]
  | @blockComment body _ hcloses =>
    obtain ⟨ps, hdivides, hclosed⟩ := hcloses
    refine ⟨'/', '*' :: body, rfl, ?_⟩
    rw [measure_slash, List.cons_append, measureSlash,
      Comment.commentLength_of_closed hdivides hclosed, List.length_cons, Nat.add_comm]
  | @openComment body hopen =>
    obtain ⟨ps, hdivides, hopen⟩ := hopen
    refine ⟨'/', '*' :: body, rfl, ?_⟩
    rw [List.append_nil, measure_slash, measureSlash, Comment.commentLength_of_open hdivides hopen,
      List.length_cons, Nat.add_comm]
  | @string body _ hquote =>
    refine ⟨'"', body ++ ['"'], rfl, ?_⟩
    have hlongest : Longest (fun c => decide (c ≠ '"') = true) body ('"' :: rest) :=
      longest_unquoted hquote (by simp)
    rw [List.append_assoc, List.singleton_append, measure_quote, measureQuote,
      hlongest.takeWhile_eq]
    simp
  | @openString body hquote =>
    refine ⟨'"', body, rfl, ?_⟩
    have hlongest : Longest (fun c => decide (c ≠ '"') = true) body [] :=
      longest_unquoted hquote (by simp)
    rw [measure_quote, measureQuote, hlongest.takeWhile_eq]
    simp
  | @integer digits _ hdigits hlongest hpoint =>
    obtain ⟨c, digits, rfl⟩ := List.exists_cons_of_ne_nil hdigits
    obtain ⟨hc, htail⟩ := List.forall_mem_cons.mp hlongest.1
    refine ⟨c, digits, rfl, ?_⟩
    rw [measure_digit hc, numberLength_of_integer ⟨htail, hlongest.2⟩ hpoint]
  | @fraction digits places _ hdigits hall hplaces hlongest =>
    obtain ⟨c, digits, rfl⟩ := List.exists_cons_of_ne_nil hdigits
    obtain ⟨hc, htail⟩ := List.forall_mem_cons.mp hall
    refine ⟨c, digits ++ '.' :: places, rfl, ?_⟩
    rw [measure_digit hc, numberLength_of_fraction htail hplaces hlongest]
  | @word c body _ hstart hlongest =>
    refine ⟨c, body, rfl, ?_⟩
    rw [measure_wordStart (isWordStart_iff.mpr hstart),
      (hlongest.congr fun _ => isWordPart_iff.symm).takeWhile_eq]
  | @unexpected c _ hblank hsymbol hquote hdigit hstart =>
    exact ⟨c, [], rfl, measure_unexpected hblank hsymbol hquote hdigit hstart⟩
  | @symbol s _ hlongest hcomment =>
    obtain ⟨c, cs, hs⟩ := List.exists_cons_of_length_pos s.length_spelling_le.1
    exact ⟨c, cs, hs, measure_of_symbol hs hlongest hcomment⟩

/-- At a place of a source there is one segment, and it is what is measured there. -/
theorem lexes_iff {form : Form} {text rest : List Char} :
    Lexes form text rest ↔
      ∃ c body, text = c :: body ∧ measure c (body ++ rest) = (form, body.length) := by
  refine ⟨Lexes.measure_eq, ?_⟩
  rintro ⟨c, body, rfl, h⟩
  exact lexes_measure h

/-- What a text starts with is one segment only. -/
theorem Lexes.unique {form form' : Form} {text text' rest rest' : List Char}
    (h : Lexes form text rest) (h' : Lexes form' text' rest')
    (heq : text ++ rest = text' ++ rest') : form = form' ∧ text = text' ∧ rest = rest' := by
  obtain ⟨c, body, rfl, hmeasure⟩ := h.measure_eq
  obtain ⟨c', body', rfl, hmeasure'⟩ := h'.measure_eq
  obtain rfl : c = c' := (List.cons.inj heq).1
  have htail : body ++ rest = body' ++ rest' := (List.cons.inj heq).2
  rw [htail, hmeasure'] at hmeasure
  obtain ⟨rfl, hlength⟩ := Prod.mk.inj hmeasure
  obtain ⟨rfl, rfl⟩ := List.append_inj htail hlength.symm
  exact ⟨rfl, rfl, rfl⟩

end Source

end ScriptLang
