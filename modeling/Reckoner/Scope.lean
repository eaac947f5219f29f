import Std.Data.ExtTreeMap
import Reckoner.Number.Printer
import Reckoner.Source.Basic

/-!
# Values, tables and scopes

A `Table` binds names to values; two tables with the same bindings are equal. A `Scope` is what an evaluation sees: a
table of its own and those around it. Names are looked up from the inside out, and assigned in the own table only. The
scope also keeps the `journal` of the assignments made in it.

After an assignment the name has the value, and every other name the one it had (`lookup?_assign`), whichever table
that is in.
-/

namespace Reckoner

structure Value where
  number : Number
  /-- The text that the value came from, unless it was given and not computed. -/
  span : Option Span := none
deriving BEq, DecidableEq, Repr

namespace Value

/-- All values are of one type. -/
def typeName (_ : Value) : String :=
  "Number"

def render (v : Value) : String :=
  v.number.render

/-- The value, as that of the text at `span`. -/
def tag (v : Value) (span : Span) : Value :=
  ⟨v.number, some span⟩

end Value

abbrev Table := Std.ExtTreeMap String Value compare

namespace Table

/-- The bindings that every program begins with. -/
def initial : Table :=
  (∅ : Table).insert "null" { number := .int 0 }

/-- The value that a name has in the innermost table that binds it. -/
def lookup? (tables : List Table) (name : String) : Option Value :=
  tables.findSome? (·[name]?)

end Table

structure Scope where
  own : Table
  /-- The tables around the own one, from the inside out. -/
  outer : List Table := []
  /-- The assignments made, the first one first. -/
  journal : List (String × Value) := []

namespace Scope

def lookup? (s : Scope) (name : String) : Option Value :=
  Table.lookup? (s.own :: s.outer) name

def assign (s : Scope) (name : String) (v : Value) : Scope :=
  { s with own := s.own.insert name v, journal := s.journal ++ [(name, v)] }

/-- An empty scope inside `s`. -/
def nested (s : Scope) : Scope where
  own := ∅
  outer := s.own :: s.outer

@[simp] theorem lookup?_assign (s : Scope) (x y : String) (v : Value) :
    (s.assign x v).lookup? y = if x = y then some v else s.lookup? y := by
  simp only [lookup?, assign, Table.lookup?, List.findSome?_cons, Std.ExtTreeMap.getElem?_insert,
    Std.compare_eq_iff_eq]
  by_cases h : x = y <;> simp [h]

@[simp] theorem lookup?_nested (s : Scope) (x : String) : s.nested.lookup? x = s.lookup? x := by
  simp [lookup?, nested, Table.lookup?]

end Scope

end Reckoner
