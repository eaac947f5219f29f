/-!
# Sources, positions and spans

A `Source` is a named text. A `Position` points into one: `index` counts bytes of UTF-8, `line` and `column` count
lines and characters, all three from zero. A `Span` is the half-open range between two positions.

Positions are plain data. Those that a walk over a text visits are got from `Source.start` by `Position.advance`, one
character at a time (`Position.advanceAll`); nothing forces the numbers of another position to fit its text.
-/

namespace Reckoner

/-- A named text. -/
structure Source where
  name : String
  text : String
deriving DecidableEq, Repr

structure Position where
  source : Source
  /-- Bytes before the position. -/
  index : Nat
  /-- Line feeds before the position. -/
  line : Nat
  /-- Characters since the last line feed. -/
  column : Nat
deriving DecidableEq, Repr

/-- The range from `start` up to, and without, `stop`. -/
structure Span where
  start : Position
  stop : Position
deriving DecidableEq, Repr

/-- The position of the first character. -/
def Source.start (source : Source) : Position :=
  ⟨source, 0, 0, 0⟩

/-- The position behind `i` bytes on the first line, with as many columns. -/
def Source.byte (source : Source) (i : Nat) : Position :=
  ⟨source, i, 0, i⟩

/-- The bytes from `i` up to `j` on the first line. -/
def Source.bytes (source : Source) (i j : Nat) : Span :=
  ⟨source.byte i, source.byte j⟩

namespace Position

/-- The position behind `c`, when `c` stands at `p`. -/
def advance (p : Position) (c : Char) : Position :=
  if c = '\n' then
    { p with index := p.index + c.utf8Size, line := p.line + 1, column := 0 }
  else
    { p with index := p.index + c.utf8Size, column := p.column + 1 }

/-- The position behind `cs`, when `cs` stands at `p`. -/
def advanceAll (p : Position) (cs : List Char) : Position :=
  cs.foldl advance p

/-- The position that the end of the text is said to reach: one byte and one column on. -/
def pastEnd (p : Position) : Position :=
  { p with index := p.index + 1, column := p.column + 1 }

/-- Lines are counted from one where they are shown. -/
def lineNumber (p : Position) : Nat :=
  p.line + 1

/-- Columns are counted from one where they are shown. -/
def columnNumber (p : Position) : Nat :=
  p.column + 1

/-- The short form `name:line:column`. -/
def label (p : Position) : String :=
  p.source.name ++ ":" ++ toString p.lineNumber ++ ":" ++ toString p.columnNumber

@[simp] theorem advanceAll_nil (p : Position) : p.advanceAll [] = p := rfl

@[simp] theorem advanceAll_cons (p : Position) (c : Char) (cs : List Char) :
    p.advanceAll (c :: cs) = (p.advance c).advanceAll cs := rfl

theorem advanceAll_append (p : Position) (as bs : List Char) :
    p.advanceAll (as ++ bs) = (p.advanceAll as).advanceAll bs :=
  List.foldl_append

@[simp] theorem source_advance (p : Position) (c : Char) : (p.advance c).source = p.source := by
  unfold advance; split <;> rfl

@[simp] theorem source_advanceAll (p : Position) (cs : List Char) : (p.advanceAll cs).source = p.source := by
  induction cs generalizing p with
  | nil => rfl
  | cons c cs ih => simp [ih]

@[simp] theorem index_advance (p : Position) (c : Char) : (p.advance c).index = p.index + c.utf8Size := by
  unfold advance; split <;> rfl

end Position

namespace Span

/-- The span of the one character `c` at `p`. -/
def single (p : Position) (c : Char) : Span :=
  ⟨p, p.advance c⟩

/-- From the start of `s` to the end of `t`. -/
def through (s t : Span) : Span :=
  ⟨s.start, t.stop⟩

/-- The empty place behind the last character, where the end of the text is reported. -/
def atEnd (p : Position) : Span :=
  ⟨p, p.pastEnd⟩

end Span

end Reckoner
