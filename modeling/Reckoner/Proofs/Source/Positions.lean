import Mathlib.Data.List.DropRight
import Reckoner.Proofs.Source.Carets
import Reckoner.Source.Slice

/-!
# Positions behind characters

The position behind the first characters of a text (`Source.position`) counts their bytes, their line feeds, and the
characters behind the last line feed. What lies between two such positions is cut out of the text exactly
(`Source.text_between`), and a position behind more characters counts more bytes.
-/

namespace Reckoner

theorem utf8Length_eq_utf8ByteSize (cs : List Char) : utf8Length cs = (String.ofList cs).utf8ByteSize := by
  induction cs with
  | nil => rfl
  | cons c cs ih =>
    rw [utf8Length_cons, String.ofList_cons, String.utf8ByteSize_append, String.utf8ByteSize_singleton, ih]

/-- The position behind the first `i` characters. -/
def Source.position (source : Source) (i : Nat) : Position :=
  source.start.advanceAll (source.text.toList.take i)

/-- The position is behind some of the characters, or all. -/
def Source.HasPosition (source : Source) (p : Position) : Prop :=
  ∃ i, i ≤ source.text.toList.length ∧ p = source.position i

/-- The column counts the characters behind the last line feed. -/
theorem Source.column_start_advanceAll (source : Source) (cs : List Char) :
    (source.start.advanceAll cs).column = (cs.rtakeWhile (· ≠ '\n')).length := by
  induction cs using List.reverseRecOn with
  | nil => rfl
  | append_singleton cs c ih =>
    rw [Position.advanceAll_append, Position.advanceAll_cons, Position.advanceAll_nil, Position.advance]
    by_cases hc : c = '\n'
    · rw [if_pos hc, List.rtakeWhile_concat_neg _ _ _ (by simpa using hc)]
      rfl
    · rw [if_neg hc, List.rtakeWhile_concat_pos _ _ _ (by simpa using hc), List.length_append, ← ih]
      rfl

section

variable {source : Source} {i j : Nat}

theorem Source.index_position (source : Source) (i : Nat) :
    (source.position i).index = utf8Length (source.text.toList.take i) :=
  source.index_start_advanceAll _

theorem Source.advance_position {c : Char} (h : source.text.toList[i]? = some c) :
    (source.position i).advance c = source.position (i + 1) := by
  rw [position, position, List.take_add_one, h, Position.advanceAll_append]
  rfl

/-- A walk from one position to another one passes what lies between them. -/
theorem Source.position_add (source : Source) (i n : Nat) :
    source.position (i + n) = (source.position i).advanceAll ((source.text.toList.drop i).take n) := by
  rw [position, position, ← Position.advanceAll_append, List.take_add]

/-- The characters before and between two positions. -/
theorem take_append_between (cs : List Char) (hij : i ≤ j) : cs.take i ++ (cs.take j).drop i = cs.take j := by
  have htake : cs.take i = (cs.take j).take i := by rw [List.take_take, Nat.min_eq_left hij]
  rw [htake, List.take_append_drop]

theorem utf8Length_take_add (cs : List Char) (hij : i ≤ j) :
    utf8Length (cs.take i) + utf8Length ((cs.take j).drop i) = utf8Length (cs.take j) := by
  rw [← utf8Length_append, take_append_between cs hij]

/-- What lies between two positions is the text between them. -/
theorem Source.text_between (hij : i ≤ j) :
    (source.between i j).text = some (String.ofList ((source.text.toList.take j).drop i)) := by
  let cs := source.text.toList
  have hslice := slice_append (cs.take i) ((cs.take j).drop i) (cs.drop j)
  rw [← List.append_assoc, take_append_between cs hij, List.take_append_drop, utf8Length_take_add cs hij] at hslice
  have hsource : (source.between i j).start.source = source := Position.source_advanceAll _ _
  have hstart : (source.between i j).start.index = utf8Length (cs.take i) := source.index_position i
  have hstop : (source.between i j).stop.index = utf8Length (cs.take j) := source.index_position j
  rw [Span.text, hsource, hstart, hstop, hslice]
  rfl

theorem Source.index_position_le (hij : i ≤ j) : (source.position i).index ≤ (source.position j).index := by
  rw [index_position, index_position, ← utf8Length_take_add _ hij]
  exact Nat.le_add_right _ _

theorem Source.index_position_le_utf8Length (source : Source) (i : Nat) :
    (source.position i).index ≤ utf8Length source.text.toList := by
  rw [index_position]
  conv_rhs => rw [← List.take_append_drop i source.text.toList, utf8Length_append]
  exact Nat.le_add_right _ _

theorem Source.index_position_succ {c : Char} (h : source.text.toList[i]? = some c) :
    (source.position (i + 1)).index = (source.position i).index + c.utf8Size := by
  rw [← advance_position h, Position.index_advance]

end

end Reckoner
