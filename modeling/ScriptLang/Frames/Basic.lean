import ScriptLang.RunError
import ScriptLang.Value.Basic

/-!
# Frames

A frame holds the variables of one activation of a scope and is enclosed by another frame,
or by none. All frames of a run live in one store, `Frames`, and are numbered in the order
in which they were made. A frame is enclosed by one that was made before it, so going
outward ends, and needs no more steps than there are frames.

There are three ways outward: by a number of links (`ancestor`), to the outermost frame
(`root`), and to the nearest frame that has a name (`lookup`).
-/

namespace ScriptLang

/-- The variables of one activation of a scope. -/
structure Frame where
  slots : Slots Value
  enclosing : Option FrameId

/-- Every frame made so far. -/
structure Frames where
  all : Array Frame

namespace Frames

/-- No frame at all. -/
def empty : Frames := ⟨#[]⟩

/-- How many frames there are. -/
def count (fs : Frames) : Nat := fs.all.size

/-- A frame, if it was made. -/
def frame? (fs : Frames) (f : FrameId) : Option Frame := fs.all[f]?

/-! ## Making frames -/

/-- The number of the next frame. -/
def nextId (fs : Frames) : FrameId := fs.all.size

/-- The store with one more frame, without variables. -/
def push (fs : Frames) (enclosing : Option FrameId) : Frames :=
  ⟨fs.all.push ⟨.empty, enclosing⟩⟩

/-! ## Going outward -/

/-- The frame around a frame. -/
def outward? (fs : Frames) (f : FrameId) : Option FrameId :=
  match fs.frame? f with
  | some frame => frame.enclosing
  | none => none

/-- The frame a number of links outward. -/
def ancestor? (fs : Frames) : Nat → FrameId → Option FrameId
  | 0, f => some f
  | hops + 1, f =>
    match fs.outward? f with
    | some g => fs.ancestor? hops g
    | none => none

/-- The outermost frame around a frame, if it takes fewer than `fuel` links to get there. -/
def rootFrom (fs : Frames) : Nat → FrameId → FrameId
  | 0, f => f
  | fuel + 1, f =>
    match fs.outward? f with
    | some g => fs.rootFrom fuel g
    | none => f

/-- The outermost frame around a frame. -/
def root (fs : Frames) (f : FrameId) : FrameId := fs.rootFrom fs.count f

/-! ## Reading -/

/-- The value of a name in a frame itself. -/
def here? (fs : Frames) (f : FrameId) (name : String) : Option Value :=
  match fs.frame? f with
  | some frame => frame.slots.get? name
  | none => none

/-- The value of a name in the frame a number of links outward. -/
def nameAt? (fs : Frames) (hops : Nat) (f : FrameId) (name : String) : Option Value :=
  match fs.ancestor? hops f with
  | some g => fs.here? g name
  | none => none

/-- The value of a name in the nearest frame that has it, among the first `fuel`. -/
def lookupFrom (fs : Frames) (name : String) : Nat → FrameId → Option Value
  | 0, _ => none
  | fuel + 1, f =>
    match fs.here? f name with
    | some v => some v
    | none =>
      match fs.outward? f with
      | some g => fs.lookupFrom name fuel g
      | none => none

/-- The value of a name in the nearest frame that has it. -/
def lookup? (fs : Frames) (f : FrameId) (name : String) : Option Value :=
  fs.lookupFrom name fs.count f

/-- The names of a frame itself. -/
def names (fs : Frames) (f : FrameId) : List String :=
  match fs.frame? f with
  | some frame => frame.slots.names
  | none => []

/-! ## Writing -/

/-- The store with the variables of one frame changed. -/
def change (fs : Frames) (f : FrameId) (g : Slots Value → Slots Value) : Frames :=
  ⟨fs.all.modify f fun frame => { frame with slots := g frame.slots }⟩

/-- Give a name a value in a frame, whether it has one there or not. -/
def define (fs : Frames) (f : FrameId) (name : String) (v : Value) : Frames :=
  fs.change f (·.set name v)

/-- Give names values in a frame, in order, as long as there are both. -/
def defineAll (fs : Frames) (f : FrameId) : List String → List Value → Frames
  | name :: names, v :: vs => (fs.define f name v).defineAll f names vs
  | _, _ => fs

/-- Take every name out of a frame. -/
def clear (fs : Frames) (f : FrameId) : Frames := fs.change f fun _ => .empty

/-! ## Access by words

These blame a missing variable on the word that asks for it. -/

/-- The fault that there is no variable of a name. -/
def undefined (word : Lexeme) : RunError := .at word (.undefinedVariable word.text)

/-- The value of a variable, from the frame a number of links outward. -/
def getAt (fs : Frames) (hops : Nat) (f : FrameId) (word : Lexeme) : Except RunError Value :=
  match fs.nameAt? hops f word.text with
  | some v => .ok v
  | none => .error (undefined word)

/-- Give a variable that exists a new value, in the frame a number of links outward. -/
def assignAt (fs : Frames) (hops : Nat) (f : FrameId) (word : Lexeme) (v : Value) :
    Except RunError Frames :=
  match fs.ancestor? hops f with
  | some g =>
    match fs.here? g word.text with
    | some _ => .ok (fs.define g word.text v)
    | none => .error (undefined word)
  | none => .error (undefined word)

/-- The value of a variable of the outermost frame. -/
def getGlobal (fs : Frames) (f : FrameId) (word : Lexeme) : Except RunError Value :=
  match fs.here? (fs.root f) word.text with
  | some v => .ok v
  | none => .error (undefined word)

/-- Give a variable of the outermost frame that exists a new value. -/
def assignGlobal (fs : Frames) (f : FrameId) (word : Lexeme) (v : Value) :
    Except RunError Frames :=
  fs.assignAt 0 (fs.root f) word v

end Frames

end ScriptLang
