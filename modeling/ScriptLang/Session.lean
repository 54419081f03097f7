import ScriptLang.Grammar.Program
import ScriptLang.Scoping.Resolve
import ScriptLang.Semantics.Evaluate
import ScriptLang.Source.Tokens

/-!
# Sessions

A session takes source text through every stage and keeps its machine from one run to the
next, as at a prompt. A text with diagnostics is not run at all: lexical and grammatical
faults are reported together, scoping faults only if there are no others.
-/

namespace ScriptLang

/-! ## Outcomes -/

/-- How a run ended. -/
inductive Outcome
  /-- The text has faults, and nothing was run. -/
  | rejected (diagnostics : List Diagnostic)
  /-- The program ran to its end. The value is that of its trailing expression. -/
  | finished (value : Option Value)
  /-- The program stopped for an error. -/
  | failed (error : RunError)
  /-- The fuel was spent. -/
  | unfinished

namespace Outcome

/-- The faults of the text. -/
def diagnostics : Outcome → List Diagnostic
  | rejected ds => ds
  | _ => []

/-- The error that stopped the run. -/
def error? : Outcome → Option RunError
  | failed e => some e
  | _ => none

/-- The value of the trailing expression. -/
def value? : Outcome → Option Value
  | finished v => v
  | _ => none

/-- The exit code that reports an outcome. -/
def exitCode : Outcome → Nat
  | rejected _ => 65
  | finished _ => 0
  | failed _ | unfinished => 70

end Outcome

/-! ## Running programs -/

/-- Run a program on a machine, within the given fuel. -/
def Machine.run (m : Machine) (fuel : Nat) (p : Program) : Outcome × Machine :=
  match Eval.program (.ofFuel fuel) p m with
  | .ok v m' => (.finished v, m')
  | .error (.error e) m' => (.failed e, m')
  | .error .outOfFuel m' => (.unfinished, m')

/-- A machine, and the number of the next reference. -/
structure Session where
  machine : Machine
  nextRef : Nat := 0

namespace Session

/-- A session that has run nothing. -/
def start (maxDepth : Nat := defaultMaxDepth) (clock : Nat → Float := fun _ => 0) : Session :=
  ⟨.start maxDepth clock, 0⟩

/-- Parse a source text: its program, or its lexical faults and then its grammatical ones. The
references are numbered on from those of earlier texts. -/
def parse (s : Session) (source : String) (mode : Mode) :
    Except (List Diagnostic) Program × Session :=
  let parsed := Program.parse (Source.tokens source) mode s.nextRef
  let result :=
    match Source.diagnostics source, parsed.result with
    | [], result => result
    | ds, .ok _ => .error ds
    | ds, .error es => .error (ds ++ es)
  (result, { s with nextRef := parsed.nextRef })

/-- Run a parsed program whose names are known to the session so far. -/
def runProgram (s : Session) (fuel : Nat) (p : Program) : Outcome × Session :=
  match p.resolve s.machine.globalNames with
  | .error ds => (.rejected ds, s)
  | .ok bindings =>
    let (outcome, machine) := (s.machine.learn bindings).run fuel p
    (outcome, { s with machine })

/-- Run a source text, within the given fuel. -/
def run (s : Session) (fuel : Nat) (source : String) (mode : Mode) : Outcome × Session :=
  match s.parse source mode with
  | (.error ds, s) => (.rejected ds, s)
  | (.ok p, s) => s.runProgram fuel p

/-- What was printed since the last time, which is forgotten. -/
def takePrinted (s : Session) : String × Session :=
  (s.machine.printed.contents, { s with machine := s.machine.clearPrinted })

end Session

end ScriptLang
