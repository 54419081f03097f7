import ScriptLang.Token

/-!
# Segments of a source

A source text falls into segments, left to right and without gaps: blanks, comments,
words, and stretches that are no part of the language. Each segment is as long as its form
allows, so the first character and what follows it decide where it ends (`measure`).
`segments` is the whole division. Every segment remembers the line it starts on.
-/

namespace ScriptLang.Source

/-! ## Characters -/

/-- The blanks between words. -/
def isBlank (c : Char) : Bool := c = ' ' || c = '\r' || c = '\t' || c = '\n'

/-- The characters that an identifier or keyword may start with. -/
def isWordStart (c : Char) : Bool := c.isAlpha || c = '_'

/-- The characters that an identifier or keyword may go on with. -/
def isWordPart (c : Char) : Bool := isWordStart c || c.isDigit

/-! ## Forms -/

/-- What a stretch of source text is. The last three forms are faults: a character that
starts no word, and a string or block comment that the source ends before it is closed. -/
inductive Form
  | blank
  | lineComment
  | blockComment
  | symbol (s : Symbol)
  | string
  | number
  | word
  | unexpected
  | openString
  | openComment
  deriving DecidableEq

/-- How many characters of `cs` it takes to close the `depth + 1` comments that are open
before it, on top of the `seen` characters that were passed already. Comments nest. -/
def commentLength (depth seen : Nat) : List Char → Option Nat
  | '/' :: '*' :: cs => commentLength (depth + 1) (seen + 2) cs
  | '*' :: '/' :: cs =>
    match depth with
    | 0 => some (seen + 2)
    | depth + 1 => commentLength depth (seen + 2) cs
  | _ :: cs => commentLength depth (seen + 1) cs
  | [] => none

/-- The form of what starts with a slash, and how many characters of `cs` follow in it. -/
def measureSlash : List Char → Form × Nat
  | '/' :: cs => (.lineComment, 1 + (cs.takeWhile (· ≠ '\n')).length)
  | '*' :: cs =>
    match commentLength 0 1 cs with
    | some n => (.blockComment, n)
    | none => (.openComment, 1 + cs.length)
  | _ => (.symbol .slash, 0)

/-- The form of what starts with a quote, and how many characters of `cs` follow in it. -/
def measureQuote (cs : List Char) : Form × Nat :=
  let n := (cs.takeWhile (· ≠ '"')).length
  if n < cs.length then (.string, n + 1) else (.openString, n)

/-- How many characters of `cs` go on with a number. A point belongs to it only between
two digits. -/
def numberLength (cs : List Char) : Nat :=
  let whole := (cs.takeWhile Char.isDigit).length
  match cs.drop whole with
  | '.' :: places =>
    match (places.takeWhile Char.isDigit).length with
    | 0 => whole
    | n + 1 => whole + 1 + (n + 1)
  | _ => whole

/-- The symbol that starts with `c`, two characters long whenever possible, and how many
characters of `cs` follow in it. -/
def measureSymbol (c : Char) (cs : List Char) : Form × Nat :=
  match cs.head?.bind (fun d => Symbol.ofSpelling [c, d]) with
  | some s => (.symbol s, 1)
  | none =>
    match Symbol.ofSpelling [c] with
    | some s => (.symbol s, 0)
    | none => (.unexpected, 0)

/-- The form of the segment that starts with `c`, and how many characters of `cs`, the
text after `c`, belong to it. -/
def measure (c : Char) (cs : List Char) : Form × Nat :=
  if isBlank c then (.blank, 0)
  else if c = '/' then measureSlash cs
  else if c = '"' then measureQuote cs
  else if c.isDigit then (.number, numberLength cs)
  else if isWordStart c then (.word, (cs.takeWhile isWordPart).length)
  else measureSymbol c cs

/-! ## Segments -/

/-- A stretch of source text: what it is, the line it starts on, and its characters. -/
structure Segment where
  form : Form
  line : Nat
  text : List Char
  deriving DecidableEq

/-- How many lines end in a text. -/
def newlines (cs : List Char) : Nat := cs.count '\n'

/-- The line a segment ends on. -/
def Segment.lastLine (s : Segment) : Nat := s.line + newlines s.text

/-- Adds the segments of `cs`, at most `fuel` of them and the first on line `line`, to those
already `done`, which stand in reverse. A segment is never empty, so `cs.length` of them are
enough. -/
def segmentsFrom : Nat → Nat → List Char → List Segment → List Segment
  | 0, _, _, done => done.reverse
  | _ + 1, _, [], done => done.reverse
  | fuel + 1, line, c :: cs, done =>
    let (form, n) := measure c cs
    let segment : Segment := ⟨form, line, c :: cs.take n⟩
    segmentsFrom fuel segment.lastLine (cs.drop n) (segment :: done)

/-- The segments of a source text. -/
def segments (cs : List Char) : List Segment := segmentsFrom cs.length 1 cs []

end ScriptLang.Source
