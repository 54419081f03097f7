import ScriptLang.Session

/-!
# The command line

A script named by the only argument is run as a whole; without arguments the lines of the
standard input are run one by one, as at a prompt. This module says what is written and
which exit code is left, without doing either.
-/

namespace ScriptLang.CommandLine

/-- What is written to the standard output and the standard error. -/
structure Written where
  out : String := ""
  err : String := ""
  deriving DecidableEq

/-- All that is written, and the exit code. -/
structure Report where
  written : Written
  exitCode : Nat
  deriving DecidableEq

/-- More fuel than any run can spend. -/
def ampleFuel : Nat := Nat.pow 2 60

/-- The exit code for a command line that makes no sense. -/
def usageCode : Nat := 64

/-- The exit code for input that cannot be read. -/
def inputCode : Nat := 74

/-- The report for more than one argument. -/
def usage : Report := ⟨{ out := "Usage: treelox [script]\n" }, usageCode⟩

/-! ## Unreadable input -/

/-- Why input cannot be read. -/
inductive ReadFault
  | missing
  | directory
  | notText
  | other (reason : String)
  deriving DecidableEq

/-- The wording of a reason. -/
def ReadFault.message : ReadFault → String
  | missing => "No such file or directory (os error 2)"
  | directory => "Is a directory (os error 21)"
  | notText => "stream did not contain valid UTF-8"
  | other reason => reason

/-- The text that bytes stand for. -/
def textOf (bytes : ByteArray) : Except ReadFault String :=
  match String.fromUTF8? bytes with
  | some text => .ok text
  | none => .error .notText

/-! ## Runs -/

/-- A text as a line of its own. -/
def asLine (text : String) : String := text ++ "\n"

/-- What is complained about after a run: all its diagnostics, or its error. -/
def complaints (o : Outcome) : String :=
  String.join (o.diagnostics.map (asLine ·.text))
    ++ (match o.error? with
      | some e => asLine e.message
      | none => "")

/-- Run a text in a session, and say what is written. -/
def runText (s : Session) (text : String) (mode : Mode) : Outcome × Written × Session :=
  let (outcome, s) := s.run ampleFuel text mode
  let (printed, s) := s.takePrinted
  let shown := match outcome.value? with
    | some v => asLine v.display
    | none => ""
  (outcome, { out := printed ++ shown, err := complaints outcome }, s)

/-- Run the contents of a script. -/
def script (s : Session) (contents : Except ReadFault ByteArray) : Report :=
  match contents.bind textOf with
  | .error fault =>
    ⟨{ err := asLine ("Error reading file: " ++ fault.message) }, inputCode⟩
  | .ok text =>
    let (outcome, written, _) := runText s text .script
    ⟨written, outcome.exitCode⟩

/-! ## The prompt -/

/-- What stands before each line. -/
def prompt : String := "> "

/-- Run a line typed at the prompt: what is written, and the session after it, or none if
the line cannot be read. -/
def promptLine (s : Session) (line : Except ReadFault ByteArray) : Written × Option Session :=
  match line.bind textOf with
  | .error fault =>
    ({ err := asLine ("Error reading input: " ++ fault.message) }, none)
  | .ok text =>
    let (_, written, s) := runText s text .interactive
    (written, some s)

/-- Run lines typed at the prompt, up to one that cannot be read, and add to what was written
before. -/
def promptFrom (s : Session) (before : Written) : List ByteArray → Report
  | [] => ⟨{ before with out := before.out ++ prompt }, 0⟩
  | line :: lines =>
    let (written, next) := promptLine s (.ok line)
    let after : Written :=
      ⟨before.out ++ prompt ++ written.out, before.err ++ written.err⟩
    match next with
    | some s => promptFrom s after lines
    | none => ⟨after, inputCode⟩

/-- The lines of bytes, with their ends; `started` is the line before, in reverse. -/
def linesFrom (started : List UInt8) : List UInt8 → List ByteArray
  | [] => if started = [] then [] else [⟨started.reverse.toArray⟩]
  | b :: bytes =>
    if b = 10 then ⟨(b :: started).reverse.toArray⟩ :: linesFrom [] bytes
    else linesFrom (b :: started) bytes

/-- Run everything that is typed at the prompt. -/
def prompted (s : Session) (input : ByteArray) : Report :=
  promptFrom s {} (linesFrom [] input.toList)

end ScriptLang.CommandLine
