import ScriptLang.Frames.Basic
import ScriptLang.Sorting
import ScriptLang.Text.Quoted

/-!
# Frames as text

A frame is described by its names, sorted, and by the frame around it.
-/

namespace ScriptLang.Frames

/-- A list of names as it is described. -/
def describeNames (names : List String) : String :=
  "[" ++ ", ".intercalate (names.map Text.quoted) ++ "]"

/-- A frame and at most `fuel` frames around it, as they are described. -/
def describeFrom (fs : Frames) : Nat → FrameId → String
  | fuel, f =>
    let enclosing :=
      match fuel, fs.outward? f with
      | fuel + 1, some g => "Some(" ++ fs.describeFrom fuel g ++ ")"
      | _, _ => "None"
    "Environment \x7b names: " ++ describeNames (sortNames (fs.names f)) ++ ", enclosing: "
      ++ enclosing ++ " \x7d"

/-- A frame as it is described. -/
def describe (fs : Frames) (f : FrameId) : String := fs.describeFrom fs.count f

end ScriptLang.Frames
