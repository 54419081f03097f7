import ScriptLang.Machine.Basic
import ScriptLang.Value.Text

/-!
# References, functions, classes and instances

The parts of evaluation that deal with one node at a time: how a reference finds its
variable, how functions and classes are made, how instances give access to fields and
methods, and how a call checks what it was given.
-/

namespace ScriptLang.Eval

/-! ## Variables -/

/-- The value of the variable that a reference means: the one that it is bound to, or else a
global one. -/
def readVariable (ref : Ref) : Eval Value := fun m =>
  match m.bindings.hops? ref.id with
  | some hops => ofExcept (m.frames.getAt hops m.current ref.word) m
  | none => ofExcept (m.frames.getGlobal m.globals ref.word) m

/-- Give the variable that a reference means a new value. -/
def assignVariable (ref : Ref) (v : Value) : Eval Unit := fun m =>
  let assigned := match m.bindings.hops? ref.id with
    | some hops => m.frames.assignAt hops m.current ref.word v
    | none => m.frames.assignGlobal m.globals ref.word v
  match assigned with
  | .ok frames => .ok () { m with frames }
  | .error e => .error (.error e) m

/-! ## Functions -/

/-- A new function, closed over a frame. -/
def makeFunction (name : Option String) (routine : Routine) (closure : FrameId)
    (isInitializer : Bool) : Eval Function := do
  return ⟨← identity, name, routine, closure, isInitializer⟩

/-- The same function with `this` in a frame of its own around its body. -/
def bindThis (f : Function) (self : Value) : Eval Function := do
  let frame ← newFrame f.closure
  defineIn frame "this" self
  makeFunction f.name f.routine frame f.isInitializer

/-- A new function that is declared in the current frame. -/
def declaredFunction (name : Option String) (routine : Routine) : Eval Value := do
  return .callable (.function (← makeFunction name routine (← current) false))

/-! ## Classes -/

/-- The methods of a class, all closed over one frame. Of several methods of one name the
last counts. -/
def makeMethods (closure : FrameId) : List Method → Slots Function → Eval (Slots Function)
  | [], made => pure made
  | ⟨name, routine⟩ :: rest, made => do
    let f ← makeFunction (some name.text) routine closure (name.text = "init")
    makeMethods closure rest (made.set name.text f)

/-- The class that a reference names as a superclass. -/
def superclassOf (ref : Ref) : Eval Class := do
  match ← readVariable ref with
  | .callable (.class c) => pure c
  | _ => fail ref.word .superclassNotClass

/-- The frame in which the methods of a class are closed: one with `super` if there is a
superclass, else the current one. -/
def methodFrame : Option Class → Eval FrameId
  | none => current
  | some superclass => do
    let frame ← newFrame (← current)
    defineIn frame "super" (.callable (.class superclass))
    pure frame

/-- Declare a class in the current frame. Its name is there, without a value, before its
methods are made. -/
def declareClass (name : Lexeme) (superclass : Option Ref) (members : List Method) :
    Eval Unit := do
  let parent ← match superclass with
    | some ref => some <$> superclassOf ref
    | none => pure none
  define name.text .nil
  let frame ← methodFrame parent
  let methods ← makeMethods frame members .empty
  define name.text (.callable (.class ⟨← identity, name.text, parent, methods⟩))

/-! ## Instances -/

/-- A new instance of a class, without fields. -/
def newInstance (c : Class) : Eval Instance := fun m =>
  .ok ⟨m.fields.size, c⟩ { m with fields := m.fields.push .empty }

/-- The value of a field, if the instance has it. -/
def field? (i : Instance) (name : String) : Eval (Option Value) := fun m =>
  .ok (m.fields[i.id]?.bind (·.get? name)) m

/-- A property of an instance: a field, or else a method bound to the instance. -/
def getProperty (i : Instance) (property : Lexeme) : Eval Value := do
  match ← field? i property.text with
  | some v => pure v
  | none =>
    match i.ofClass.findMethod property.text with
    | some f => return .callable (.function (← bindThis f (.instance i)))
    | none => fail property (.undefinedProperty property.text)

/-- Give a field of an instance a value. -/
def setField (i : Instance) (property : Lexeme) (v : Value) : Eval Unit := fun m =>
  .ok () { m with fields := m.fields.modify i.id (·.set property.text v) }

/-- A property of a value, which has to be an instance. -/
def getOf (v : Value) (property : Lexeme) : Eval Value :=
  match v with
  | .instance i => getProperty i property
  | _ => fail property .propertyOnNonInstance

/-- The instance whose field is to be set. -/
def instanceOf (v : Value) (property : Lexeme) : Eval Instance :=
  match v with
  | .instance i => pure i
  | _ => fail property .fieldOnNonInstance

/-- A method of the superclass, bound to `this`, which lives in the frame just inside the
one with `super`. -/
def superMethod (ref : Ref) (method : Lexeme) : Eval Value := fun m =>
  let missing : Eval Value := fail ref.word (.undefinedVariable ref.word.text)
  match m.bindings.hops? ref.id with
  | none => missing m
  | some hops =>
    match m.frames.nameAt? hops m.current "super" with
    | some (.callable (.class c)) =>
      let self := match hops with
        | 0 => none
        | hops + 1 => m.frames.nameAt? hops m.current "this"
      match c.findMethod method.text with
      | some f =>
        (do return .callable (.function (← bindThis f (self.getD .nil))) : Eval Value) m
      | none => (fail method (.undefinedProperty method.text) : Eval Value) m
    | _ => missing m

/-! ## Calls -/

/-- Run a function: its parameters get the arguments in a new frame in its closure, and its
body runs there. An initializer always gives back `this`. -/
def callFunction (run : List Stmt → Eval Value) (f : Function) (arguments : List Value) :
    Eval Value := do
  let frame ← newFrame f.closure
  fun m => .ok () { m with
    frames := m.frames.defineAll frame (f.routine.params.map (·.text)) arguments }
  let result ← within frame (run f.routine.body)
  if f.isInitializer then
    fun m => .ok ((m.frames.nameAt? 0 f.closure "this").getD .nil) m
  else
    pure result

/-- Make an instance of a class, with its initializer if it has one. -/
def construct (run : List Stmt → Eval Value) (c : Class) (arguments : List Value) :
    Eval Value := do
  let i ← newInstance c
  match c.initializer? with
  | some f =>
    let bound ← bindThis f (.instance i)
    let _ ← callFunction run bound arguments
    pure (.instance i)
  | none => pure (.instance i)

/-- Call something, whatever the number of arguments and the depth. -/
def invoke (run : List Stmt → Eval Value) (c : Callable) (arguments : List Value) :
    Eval Value :=
  match c with
  | .function f => callFunction run f arguments
  | .native .clock => return .number (← readClock)
  | .class c => construct run c arguments

/-- Call a value with arguments. Whether it can be called comes before the number of
arguments, and that before the depth. All three faults are blamed on the closing
parenthesis. -/
def callValue (invoke : Callable → List Value → Eval Value) (callee : Value)
    (arguments : List Value) (closing : Lexeme) : Eval Value :=
  match callee with
  | .callable c =>
    if arguments.length ≠ c.arity then
      fail closing (.arity c.display c.arity arguments.length)
    else
      deeper closing (invoke c arguments)
  | _ => fail closing .notCallable

end ScriptLang.Eval
