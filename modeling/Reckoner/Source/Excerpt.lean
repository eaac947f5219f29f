import Reckoner.Source.Basic

/-!
# Excerpts

`Span.excerpt` shows the lines that a span touches, each above a row of carets that marks the part inside the span.
Columns count characters of the line as it stands in the source, while a line is shown without its tabs.
-/

namespace Reckoner

/-- The lines of a text: the parts between its line feeds. -/
def lines : List Char → List (List Char)
  | [] => [[]]
  | c :: cs =>
    if c = '\n' then
      [] :: lines cs
    else
      match lines cs with
      | [] => [[c]]
      | line :: rest => (c :: line) :: rest

namespace Span

/-- The columns of line `n`, of `width` characters, that lie inside the span: from the first of the pair up to the
second. A line between the first and the last is covered to its end. -/
def columns (s : Span) (n width : Nat) : Nat × Nat :=
  (if n = s.start.line then s.start.column else 0,
   if n = max s.start.line s.stop.line then s.stop.column else width)

/-- Spaces up to column `a`, then carets up to column `b`. -/
def caretRow (a b : Nat) : List Char :=
  List.replicate a ' ' ++ List.replicate (b - a) '^'

/-- The touched lines in order, each with its row of carets. A line that the text does not have counts as empty. -/
def rows (s : Span) : List (List Char × List Char) :=
  let text := lines s.start.source.text.toList
  (List.range' s.start.line (s.stop.line - s.start.line + 1)).map fun n =>
    let line := text.getD n []
    let (a, b) := s.columns n line.length
    (line.filter (· ≠ '\t'), caretRow a b)

/-- The excerpt as it is printed, row under row. -/
def excerpt (s : Span) : String :=
  "\n".intercalate (s.rows.flatMap fun (line, carets) => [String.ofList line, String.ofList carets])

end Span

end Reckoner
