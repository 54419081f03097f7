import ScriptLang.Frames.Basic
import ScriptLang.Scoping.Bindings
import ScriptLang.Transcript

/-!
# The machine

The state in which programs run: the frames, the fields of instances, the bindings of all
programs run so far, and what was printed. Two parts steer evaluation and are restored by
everything that changes them: the current frame, in which names are looked up, and the depth
of calls.

A computation on the machine (`Eval`) may stop for a runtime error or because its fuel is
spent. The machine survives a stop.
-/

namespace ScriptLang

/-- The state of evaluation. -/
structure Machine where
  frames : Frames
  /-- The fields of each instance made so far. -/
  fields : Array (Slots Value)
  /-- How many functions and classes were made so far. -/
  made : Nat
  /-- The frame of the global variables. -/
  globals : FrameId
  /-- The frame in which names are looked up. -/
  current : FrameId
  /-- How many calls are going on. -/
  depth : Nat
  /-- How many calls may go on at a time. -/
  maxDepth : Nat
  /-- The bindings of every program run so far. -/
  bindings : Bindings
  printed : Transcript
  /-- What the clock says when it is read for the first, second, … time. -/
  clock : Nat → Float
  /-- How often the clock was read. -/
  readings : Nat

/-- The depth of calls that is allowed unless something else is said. -/
def defaultMaxDepth : Nat := 256

namespace Machine

/-- A machine that has run nothing. Its only variables are the native functions. -/
def start (maxDepth : Nat := defaultMaxDepth) (clock : Nat → Float := fun _ => 0) : Machine :=
  let frames := Native.all.foldl
    (fun fs n => fs.define 0 n.name (.callable (.native n))) (Frames.empty.push none)
  { frames, fields := #[], made := 0, globals := 0, current := 0, depth := 0, maxDepth
    bindings := ∅, printed := .empty, clock, readings := 0 }

/-- The value of a global variable. -/
def global? (m : Machine) (name : String) : Option Value := m.frames.lookup? m.globals name

/-- The names of the global variables. -/
def globalNames (m : Machine) : List String := m.frames.names m.globals

/-- Give a global variable a value, whether it exists or not. -/
def defineGlobal (m : Machine) (name : String) (v : Value) : Machine :=
  { m with frames := m.frames.define m.globals name v }

/-- Remove all global variables. -/
def clearGlobals (m : Machine) : Machine :=
  { m with frames := m.frames.clear m.globals }

/-- Add the bindings of a program that is about to run. -/
def learn (m : Machine) (bindings : Bindings) : Machine :=
  { m with bindings := m.bindings.merge bindings }

/-- Forget what was printed. -/
def clearPrinted (m : Machine) : Machine := { m with printed := .empty }

end Machine

/-! ## Computations -/

/-- Why a computation stops without a result. -/
inductive Abort
  | error (e : RunError)
  | outOfFuel

/-- Computations on the machine with results in `α`. -/
abbrev Eval (α : Type) := EStateM Abort Machine α

namespace Eval

variable {α : Type}

/-- Stop for a fault blamed on a word. -/
def fail (word : Lexeme) (fault : RunFault) : Eval α := throw (.error (.at word fault))

/-- Stop for want of fuel. -/
def outOfFuel : Eval α := throw .outOfFuel

/-- The result of an access to frames. -/
def ofExcept : Except RunError α → Eval α
  | .ok a => pure a
  | .error e => throw (.error e)

/-- Do something in another frame. The current frame is restored however it ends. -/
def within (frame : FrameId) (act : Eval α) : Eval α := fun m =>
  match act { m with current := frame } with
  | .ok a m' => .ok a { m' with current := m.current }
  | .error stop m' => .error stop { m' with current := m.current }

/-- Do something one call deeper, unless that is too deep. The depth is restored however it
ends. -/
def deeper (word : Lexeme) (act : Eval α) : Eval α := fun m =>
  if m.maxDepth ≤ m.depth then fail word .stackOverflow m
  else
    match act { m with depth := m.depth + 1 } with
    | .ok a m' => .ok a { m' with depth := m'.depth - 1 }
    | .error stop m' => .error stop { m' with depth := m'.depth - 1 }

/-- A new frame in another one. -/
def newFrame (enclosing : FrameId) : Eval FrameId := fun m =>
  .ok m.frames.nextId { m with frames := m.frames.push (some enclosing) }

/-- Give a name a value in a frame. -/
def defineIn (frame : FrameId) (name : String) (v : Value) : Eval Unit := fun m =>
  .ok () { m with frames := m.frames.define frame name v }

/-- Give a name a value in the current frame. -/
def define (name : String) (v : Value) : Eval Unit := fun m =>
  .ok () { m with frames := m.frames.define m.current name v }

/-- The current frame. -/
def current : Eval FrameId := fun m => .ok m.current m

/-- A number for a new function or class. -/
def identity : Eval Nat := fun m => .ok m.made { m with made := m.made + 1 }

/-- Print a line. -/
def println (text : String) : Eval Unit := fun m =>
  .ok () { m with printed := m.printed.println text }

/-- Read the clock. -/
def readClock : Eval Float := fun m =>
  .ok (m.clock m.readings) { m with readings := m.readings + 1 }

end Eval

end ScriptLang
