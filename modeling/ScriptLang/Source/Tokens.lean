import ScriptLang.Decimal.Read
import ScriptLang.Diagnostic
import ScriptLang.Source.Segment

/-!
# Tokens of a source

Each segment of a source is a token, a fault, or nothing. `scan` collects both in their
order and ends the tokens with the mark of the end of the input, whatever faults there are.
-/

namespace ScriptLang.Source

/-- The token that a word of a given kind makes, or the fault that its text stands for no
constant. The line is the one the word ends on. -/
def Segment.word (s : Segment) (kind : Kind) : Except LexicalFault Token :=
  let lexeme : Lexeme := ⟨String.ofList s.text, s.lastLine⟩
  match kind with
  | .string => .ok ⟨kind, lexeme, .string (String.ofList s.text.tail.dropLast)⟩
  | .number =>
    match Decimal.read s.text with
    | some x => .ok ⟨kind, lexeme, .number x⟩
    | none => .error (.invalidNumber lexeme.text)
  | _ => .ok ⟨kind, lexeme, .nil⟩

/-- What a segment contributes: nothing, a token, or a diagnostic. A comment that is never
closed is reported where it opens, a string where the source ends. -/
def Segment.yield (s : Segment) : Option (Except Diagnostic Token) :=
  let word (kind : Kind) := some ((s.word kind).mapError (.lexical s.lastLine))
  match s.form with
  | .blank | .lineComment | .blockComment => none
  | .symbol symbol => word (.symbol symbol)
  | .string => word .string
  | .number => word .number
  | .word =>
    word (match Keyword.ofSpelling s.text with
      | some keyword => .keyword keyword
      | none => .identifier)
  | .unexpected =>
    some (.error (.lexical s.line (.unexpectedCharacter (s.text.headD ' '))))
  | .openString => some (.error (.lexical s.lastLine .unterminatedString))
  | .openComment => some (.error (.lexical s.line .unterminatedComment))

/-- The token that a segment is. -/
def Segment.token? (s : Segment) : Option Token := s.yield.bind Except.toOption

/-- The diagnostic that a segment gives rise to. -/
def Segment.diagnostic? (s : Segment) : Option Diagnostic :=
  match s.yield with
  | some (.error d) => some d
  | _ => none

/-- The tokens of a source, the mark of its end last. -/
def tokens (source : String) : List Token :=
  let cs := source.toList
  (segments cs).filterMap Segment.token? ++ [.endOfInput (1 + newlines cs)]

/-- The lexical diagnostics of a source. -/
def diagnostics (source : String) : List Diagnostic :=
  (segments source.toList).filterMap Segment.diagnostic?

end ScriptLang.Source
