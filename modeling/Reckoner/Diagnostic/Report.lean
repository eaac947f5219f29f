import Reckoner.Diagnostic.Basic
import Reckoner.Source.Excerpt

/-!
# Reports

The full text of a diagnostic: where it arose, what is wrong, and the excerpt of the source.
-/

namespace Reckoner.Diagnostic

/-- The traceback, or the file and line if there is none. -/
def origin (d : Diagnostic) : String :=
  match d.traceback with
  | some frames => renderTraceback frames
  | none => "File \"" ++ d.span.start.source.name ++ "\", line " ++ toString d.span.start.lineNumber ++ "\n"

def report (d : Diagnostic) : String :=
  d.origin ++ d.problem.title ++ ": " ++ d.problem.message ++ "\n\n" ++ d.span.excerpt

end Reckoner.Diagnostic
