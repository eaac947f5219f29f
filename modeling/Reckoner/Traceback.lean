import Reckoner.Source.Basic

/-!
# Contexts and tracebacks

A `Context` is the chain of frames that an evaluation runs in. Each frame has a name; one that was entered from
another also knows the position it was entered at, unless that is lost. `Context.frames` turns the chain round into
what a traceback prints: the outermost frame first, and each with the position that execution had reached in it.
-/

namespace Reckoner

inductive Context where
  /-- The outermost frame. -/
  | root (name : String)
  /-- A frame entered from `parent`. -/
  | child (parent : Context) (name : String) (entry : Option Position)
deriving DecidableEq, Repr

/-- A line of a traceback. -/
structure Frame where
  name : String
  position : Option Position
deriving DecidableEq, Repr

namespace Context

/-- The name of the innermost frame. -/
def name : Context → String
  | root n => n
  | child _ n _ => n

def parent? : Context → Option Context
  | root _ => none
  | child p _ _ => some p

/-- Where the innermost frame was entered. -/
def entry? : Context → Option Position
  | root _ => none
  | child _ _ at? => at?

/-- The frames from the outermost in, when execution stands at `position` in the innermost. -/
def frames : Context → Option Position → List Frame
  | root n, position => [⟨n, position⟩]
  | child p n at?, position => p.frames at? ++ [⟨n, position⟩]

end Context

/-- The line that shows a frame. -/
def Frame.render (f : Frame) : String :=
  match f.position with
  | some p =>
    "  File \"" ++ p.source.name ++ "\", line " ++ toString p.lineNumber ++ ", in " ++ f.name ++ "\n"
  | none => "  in " ++ f.name ++ "\n"

/-- The heading and the frames, a line each. -/
def renderTraceback (frames : List Frame) : String :=
  frames.foldl (fun text f => text ++ f.render) "Traceback (most recent call last):\n"

end Reckoner
