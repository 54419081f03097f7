/-!
# Transcripts

What a program has printed: a text to which whole lines are added.
-/

namespace ScriptLang

/-- Printed text. -/
structure Transcript where
  contents : String
  deriving DecidableEq

namespace Transcript

/-- Nothing printed yet. -/
def empty : Transcript := ⟨""⟩

/-- The transcript with a text and the end of a line added. -/
def println (t : Transcript) (text : String) : Transcript := ⟨t.contents ++ text ++ "\n"⟩

/-- A line, read from its end, without a carriage return there. -/
def finished : List Char → String
  | '\r' :: cs => String.ofList cs.reverse
  | cs => String.ofList cs.reverse

/-- The lines of a text, where `started` is the line before it, read from its end. A line
without an end counts unless it is empty. -/
def linesFrom (started : List Char) : List Char → List String
  | [] => if started = [] then [] else [String.ofList started.reverse]
  | '\n' :: cs => finished started :: linesFrom [] cs
  | c :: cs => linesFrom (c :: started) cs

/-- The lines of a transcript, without their ends. A carriage return before the end of a
line belongs to the end. -/
def lines (t : Transcript) : List String := linesFrom [] t.contents.toList

end Transcript

end ScriptLang
