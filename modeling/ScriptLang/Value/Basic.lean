import ScriptLang.Program.Tree
import ScriptLang.Slots

/-!
# Values

What expressions evaluate to: nothing, truth values, numbers, texts, and things with an
identity, which are functions, classes and instances. A function is a routine with the frame
it was declared in, a class a table of functions with perhaps a superclass. Both never
change. An instance knows its class; its fields are kept elsewhere.

Two things with an identity are equal exactly when they are the same.
-/

namespace ScriptLang

/-- The number of a frame, which holds the variables of one activation of a scope. -/
abbrev FrameId := Nat

/-- A function of a running program. -/
structure Function where
  id : Nat
  name : Option String
  routine : Routine
  /-- The frame it was declared in. -/
  closure : FrameId
  isInitializer : Bool

/-- The number of arguments that a function takes. -/
def Function.arity (f : Function) : Nat := f.routine.params.length

/-- The functions that every program starts with. -/
inductive Native
  | clock
  deriving DecidableEq

/-- The number of arguments that a native function takes. -/
def Native.arity : Native → Nat
  | clock => 0

/-- The name of a native function. -/
def Native.name : Native → String
  | clock => "clock"

/-- Every native function. -/
def Native.all : List Native := [.clock]

/-- A class of a running program. -/
structure Class where
  id : Nat
  name : String
  superclass : Option Class
  methods : Slots Function

namespace Class

/-- The method of a name, from this class or else from the nearest class above that has
one. -/
def findMethod : Class → String → Option Function
  | ⟨_, _, none, methods⟩, name => methods.get? name
  | ⟨_, _, some superclass, methods⟩, name =>
    match methods.get? name with
    | some f => some f
    | none => superclass.findMethod name

/-- The method that runs when an instance is made. -/
def initializer? (c : Class) : Option Function := c.findMethod "init"

/-- The number of arguments that it takes to make an instance. -/
def arity (c : Class) : Nat :=
  match c.initializer? with
  | some f => f.arity
  | none => 0

end Class

/-- What can be called. -/
inductive Callable
  | function (f : Function)
  | native (n : Native)
  | class (c : Class)

namespace Callable

/-- The number of arguments that a call needs. -/
def arity : Callable → Nat
  | function f => f.arity
  | native n => n.arity
  | «class» c => c.arity

/-- Whether two callables are the same. -/
def same : Callable → Callable → Bool
  | function f, function g => f.id = g.id
  | native m, native n => m = n
  | «class» c, «class» d => c.id = d.id
  | _, _ => false

end Callable

/-- An instance of a class. -/
structure Instance where
  id : Nat
  ofClass : Class

/-- Values. -/
inductive Value
  | nil
  | bool (b : Bool)
  | number (x : Float)
  | text (s : String)
  | callable (c : Callable)
  | instance (i : Instance)

namespace Value

/-- Whether a value counts as true: all do but `nil` and `false`. -/
def isTruthy : Value → Bool
  | nil => false
  | bool b => b
  | _ => true

/-- Whether two values are equal. Values of different kinds never are, and what is no number
is not equal to itself. -/
def equals : Value → Value → Bool
  | nil, nil => true
  | bool a, bool b => a = b
  | number x, number y => x == y
  | text s, text t => s = t
  | callable c, callable d => c.same d
  | .instance i, .instance j => i.id = j.id
  | _, _ => false

end Value

/-- The value of a constant. -/
def Literal.value : Literal → Value
  | nil => .nil
  | bool b => .bool b
  | number x => .number x
  | string s => .text s

end ScriptLang
