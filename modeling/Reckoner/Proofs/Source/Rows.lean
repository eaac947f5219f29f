import Reckoner.Source.Excerpt

/-!
# The rows of an excerpt

The lines of a text are what its line feeds separate (`lines_eq_splitOn`). The rows of an excerpt have no line feeds, so
they are the lines of what is printed: a line of the source and a row of carets, by turns (`lines_excerpt`). A span
inside of one line has two rows, and its carets begin where it does (`rows_of_inLine`).
-/

namespace Reckoner

/-! ## Lines -/

theorem lines_ne_nil (cs : List Char) : lines cs ≠ [] := by
  cases cs with
  | nil => exact List.cons_ne_nil _ _
  | cons c cs =>
    rw [lines]
    split
    · exact List.cons_ne_nil _ _
    · split <;> exact List.cons_ne_nil _ _

theorem lines_lineFeed (cs : List Char) : lines ('\n' :: cs) = [] :: lines cs := by
  rw [lines, if_pos rfl]

/-- Any other character goes in front of the first line. -/
theorem exists_lines_cons {c : Char} (hc : c ≠ '\n') (cs : List Char) :
    ∃ line rest, lines cs = line :: rest ∧ lines (c :: cs) = (c :: line) :: rest := by
  obtain ⟨line, rest, hlines⟩ := List.exists_cons_of_ne_nil (lines_ne_nil cs)
  refine ⟨line, rest, hlines, ?_⟩
  rw [lines, if_neg hc, hlines]

theorem lines_eq_splitOn (cs : List Char) : lines cs = cs.splitOn '\n' := by
  induction cs with
  | nil => rfl
  | cons c cs ih =>
    rw [List.splitOn_cons_eq_if_modifyHead, ← ih]
    by_cases hc : c = '\n'
    · rw [hc, lines_lineFeed]
      rfl
    · obtain ⟨line, rest, hlines, hcons⟩ := exists_lines_cons hc cs
      rw [if_neg (by simpa using hc), hcons, hlines]
      rfl

theorem forall_not_mem_lines (cs : List Char) : ∀ line ∈ lines cs, '\n' ∉ line := by
  induction cs with
  | nil => exact List.forall_mem_singleton.mpr List.not_mem_nil
  | cons c cs ih =>
    by_cases hc : c = '\n'
    · rw [hc, lines_lineFeed]
      exact List.forall_mem_cons.mpr ⟨List.not_mem_nil, ih⟩
    · obtain ⟨line, rest, hlines, hcons⟩ := exists_lines_cons hc cs
      rw [hlines] at ih
      obtain ⟨hline, hrest⟩ := List.forall_mem_cons.mp ih
      rw [hcons]
      exact List.forall_mem_cons.mpr ⟨List.not_mem_cons_of_ne_of_not_mem (Ne.symm hc) hline, hrest⟩

/-- The first line goes up to the first line feed. -/
theorem lines_append_cons {cs : List Char} (h : '\n' ∉ cs) (rest : List Char) :
    lines (cs ++ '\n' :: rest) = cs :: lines rest := by
  rw [lines_eq_splitOn, lines_eq_splitOn, List.splitOn_append_cons_self_of_not_mem h]

/-- A line that the text does not have has no line feed either. -/
theorem not_mem_getD_lines (cs : List Char) (n : Nat) : '\n' ∉ (lines cs).getD n [] := by
  rw [List.getD_eq_getElem?_getD]
  cases h : (lines cs)[n]? with
  | none => exact List.not_mem_nil
  | some line => exact forall_not_mem_lines cs line (List.mem_of_getElem? h)

namespace Span

/-! ## Rows -/

theorem not_mem_caretRow (a b : Nat) : '\n' ∉ caretRow a b := by
  simp [caretRow, List.mem_replicate]

/-- Carets, if there is room for any. -/
theorem mem_caretRow_iff {a b : Nat} : '^' ∈ caretRow a b ↔ a < b := by
  simp [caretRow, List.mem_replicate]
  omega

/-- The row of each touched line. -/
theorem rows_eq (s : Span) : s.rows =
    (List.range' s.start.line (s.stop.line - s.start.line + 1)).map fun n =>
      let line := (lines s.start.source.text.toList).getD n []
      (line.filter (· ≠ '\t'), caretRow (s.columns n line.length).1 (s.columns n line.length).2) :=
  rfl

theorem rows_ne_nil (s : Span) : s.rows ≠ [] := by
  simp [rows]

theorem not_mem_rows {s : Span} {row : List Char × List Char} (h : row ∈ s.rows) : '\n' ∉ row.1 ∧ '\n' ∉ row.2 := by
  rw [rows_eq] at h
  obtain ⟨n, -, rfl⟩ := List.mem_map.mp h
  exact ⟨fun hmem => not_mem_getD_lines _ n (List.mem_filter.mp hmem).1, not_mem_caretRow _ _⟩

/-- What is printed has the rows as its lines. -/
theorem lines_excerpt (s : Span) : lines s.excerpt.toList = s.rows.flatMap fun row => [row.1, row.2] := by
  have hrows : (s.rows.flatMap fun row => [String.ofList row.1, String.ofList row.2]).map String.toList =
      s.rows.flatMap fun row => [row.1, row.2] := by
    simp [List.map_flatMap]
  change lines ("\n".intercalate _).toList = _
  rw [String.toList_intercalate, hrows, lines_eq_splitOn]
  refine List.splitOn_intercalate '\n' ?_ ?_
  · simp only [List.forall_mem_flatMap, List.forall_mem_cons]
    exact fun row hrow => ⟨(not_mem_rows hrow).1, (not_mem_rows hrow).2, by simp⟩
  · obtain ⟨row, rows, hrows⟩ := List.exists_cons_of_ne_nil s.rows_ne_nil
    simp [hrows]

theorem getElem?_flatMap_pair {α : Type} (rows : List (α × α)) (i : Nat) :
    (rows.flatMap fun row => [row.1, row.2])[2 * i]? = (rows.map Prod.fst)[i]? ∧
      (rows.flatMap fun row => [row.1, row.2])[2 * i + 1]? = (rows.map Prod.snd)[i]? := by
  induction rows generalizing i with
  | nil => exact ⟨rfl, rfl⟩
  | cons row rows ih =>
    cases i with
    | zero => exact ⟨rfl, rfl⟩
    | succ i => exact ih i

theorem length_lines_excerpt (s : Span) : (lines s.excerpt.toList).length = 2 * s.rows.length := by
  rw [lines_excerpt, List.length_flatMap]
  simp only [List.length_cons, List.length_nil, List.map_const', List.sum_replicate_nat]
  exact Nat.mul_comm _ _

/-- Every second line is a line of the source. -/
theorem getElem?_lines_excerpt_even (s : Span) (i : Nat) :
    (lines s.excerpt.toList)[2 * i]? = (s.rows.map Prod.fst)[i]? := by
  rw [lines_excerpt]
  exact (getElem?_flatMap_pair s.rows i).1

/-- Every other line is a row of carets. -/
theorem getElem?_lines_excerpt (s : Span) (i : Nat) :
    (lines s.excerpt.toList)[2 * i + 1]? = (s.rows.map Prod.snd)[i]? := by
  rw [lines_excerpt]
  exact (getElem?_flatMap_pair s.rows i).2

/-- A line feed spans no column of its line, and none of the next. -/
theorem rows_single_lineFeed {p : Position} {line : List Char}
    (hline : (lines p.source.text.toList)[p.line]? = some line) (hcolumn : line.length = p.column) :
    (single p '\n').rows.map Prod.snd = [caretRow p.column p.column, caretRow 0 0] := by
  simp [rows_eq, columns, single, Position.advance, hline, hcolumn, List.range'_succ]

/-- A span inside of one line, with a width. -/
structure InLine (s : Span) : Prop where
  line : s.stop.line = s.start.line
  width : s.start.column < s.stop.column

theorem rows_of_inLine {s : Span} (h : s.InLine) :
    ∃ line, s.rows = [(line, caretRow s.start.column s.stop.column)] := by
  simp [rows, columns, h.line]

end Span

end Reckoner
