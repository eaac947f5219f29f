import Reckoner.Proofs.Source.Rows

/-!
# The characters that an excerpt marks

Lines and columns count characters: the offset at which a line begins (`lineStart`) and the column of a position on it
add up to the number of characters that a walk has passed (`Source.exists_line_advanceAll`). For a span between two
characters this tells which columns of a line lie in it (`Span.Between.columns_eq`). So each row of carets has them
under the characters of its line that lie in the span, and there are as many in all as the span has characters that are
no line feeds (`Source.underlines_between`).
-/

namespace Reckoner

/-! ## Where lines begin -/

theorem lines_append_lineFeed (cs rest : List Char) : lines (cs ++ '\n' :: rest) = lines cs ++ lines rest := by
  induction cs with
  | nil => exact lines_lineFeed rest
  | cons c cs ih =>
    by_cases hc : c = '\n'
    · rw [hc, List.cons_append, lines_lineFeed, lines_lineFeed, ih, List.cons_append]
    · obtain ⟨line, more, hlines, hcons⟩ := exists_lines_cons hc cs
      rw [List.cons_append, lines, if_neg hc, ih, hlines, hcons]
      rfl

/-- The first line begins with all that is in front of the first line feed. -/
theorem exists_lines_append {cs : List Char} (h : '\n' ∉ cs) (rest : List Char) :
    ∃ line more, lines (cs ++ rest) = (cs ++ line) :: more := by
  induction cs with
  | nil => exact List.exists_cons_of_ne_nil (lines_ne_nil rest)
  | cons c cs ih =>
    have hc : c ≠ '\n' := (List.ne_of_not_mem_cons h).symm
    obtain ⟨line, more, hlines⟩ := ih (List.not_mem_of_not_mem_cons h)
    refine ⟨line, more, ?_⟩
    rw [List.cons_append, lines, if_neg hc, hlines]
    rfl

theorem length_lines (cs : List Char) : (lines cs).length = cs.count '\n' + 1 := by
  induction cs with
  | nil => rfl
  | cons c cs ih =>
    by_cases hc : c = '\n'
    · rw [hc, lines_lineFeed, List.length_cons, ih, List.count_cons_self]
    · obtain ⟨line, more, hlines, hcons⟩ := exists_lines_cons hc cs
      rw [hcons, List.length_cons, ← List.length_cons (a := line), ← hlines, ih, List.count_cons_of_ne hc]

/-- The lines of a text make it up, with a line feed behind each but the last. -/
theorem flatMap_lines (cs : List Char) : (lines cs).flatMap (· ++ ['\n']) = cs ++ ['\n'] := by
  induction cs with
  | nil => rfl
  | cons c cs ih =>
    by_cases hc : c = '\n'
    · rw [hc, lines_lineFeed, List.flatMap_cons, ih]
      rfl
    · obtain ⟨line, more, hlines, hcons⟩ := exists_lines_cons hc cs
      rw [hlines, List.flatMap_cons] at ih
      rw [hcons, List.flatMap_cons, List.cons_append, List.cons_append, ih, List.cons_append]

/-- The offset of the first character of line `n`: the lines in front of it, each with its line feed. -/
def lineStart (cs : List Char) (n : Nat) : Nat :=
  (((lines cs).take n).flatMap (· ++ ['\n'])).length

section

variable {cs chars : List Char} {m n k : Nat}

theorem lineStart_zero (cs : List Char) : lineStart cs 0 = 0 := rfl

theorem lineStart_succ (h : (lines cs)[n]? = some chars) :
    lineStart cs (n + 1) = lineStart cs n + chars.length + 1 := by
  rw [lineStart, List.take_add_one, h, List.flatMap_append, List.length_append]
  simp [lineStart, Nat.add_assoc]

theorem lineStart_mono (h : m ≤ n) : lineStart cs m ≤ lineStart cs n := by
  obtain ⟨more, hmore⟩ := List.take_prefix_take_left (l := lines cs) h
  rw [lineStart, lineStart, ← hmore, List.flatMap_append, List.length_append]
  exact Nat.le_add_right _ _

/-- The characters of a line stand one behind the other from where it begins. -/
theorem getElem?_lineStart_add (hline : (lines cs)[n]? = some chars) (hk : k < chars.length) :
    cs[lineStart cs n + k]? = chars[k]? := by
  induction cs generalizing n chars k with
  | nil =>
    cases n with
    | zero =>
      cases hline
      cases hk
    | succ n => cases hline
  | cons c cs ih =>
    by_cases hc : c = '\n'
    · -- the line feed is a line of its own
      rw [hc] at hline ⊢
      rw [lines_lineFeed] at hline
      cases n with
      | zero =>
        cases hline
        cases hk
      | succ n =>
        have hstart : lineStart ('\n' :: cs) (n + 1) = lineStart cs n + 1 := by
          simp [lineStart, lines_lineFeed, Nat.add_comm]
        rw [hstart, Nat.add_right_comm, List.getElem?_cons_succ, ih hline hk]
    · obtain ⟨first, more, hlines, hcons⟩ := exists_lines_cons hc cs
      rw [hcons] at hline
      cases n with
      | zero =>
        cases hline
        rw [lineStart_zero, Nat.zero_add]
        cases k with
        | zero => rfl
        | succ k =>
          have hfirst : cs[lineStart cs 0 + k]? = first[k]? := ih (by rw [hlines]; rfl) (Nat.lt_of_succ_lt_succ hk)
          rwa [lineStart_zero, Nat.zero_add] at hfirst
      | succ n =>
        have hstart : lineStart (c :: cs) (n + 1) = lineStart cs (n + 1) + 1 := by
          simp only [lineStart, hcons, hlines, List.take_succ_cons, List.flatMap_cons, List.length_append,
            List.length_cons]
          omega
        rw [hstart, Nat.add_right_comm, List.getElem?_cons_succ]
        exact ih (by rw [hlines]; exact hline) hk

end

/-! ## Lines and columns of a walk -/

namespace Position

theorem line_advanceAll (p : Position) (cs : List Char) : (p.advanceAll cs).line = p.line + cs.count '\n' := by
  induction cs generalizing p with
  | nil => rfl
  | cons c cs ih =>
    rw [advanceAll_cons, ih, advance]
    by_cases hc : c = '\n'
    · rw [if_pos hc, hc, List.count_cons_self]
      exact Nat.add_right_comm _ _ _
    · rw [if_neg hc, List.count_cons_of_ne hc]

/-- Without a line feed, each character is a column. -/
theorem column_advanceAll (p : Position) {cs : List Char} (h : '\n' ∉ cs) :
    (p.advanceAll cs).column = p.column + cs.length := by
  induction cs generalizing p with
  | nil => rfl
  | cons c cs ih =>
    have hc : c ≠ '\n' := (List.ne_of_not_mem_cons h).symm
    rw [advanceAll_cons, ih _ (List.not_mem_of_not_mem_cons h), advance, if_neg hc, List.length_cons]
    exact Nat.add_right_comm _ _ _

end Position

theorem exists_lastLine (cs : List Char) : '\n' ∉ cs ∨ ∃ front last, cs = front ++ '\n' :: last ∧ '\n' ∉ last := by
  induction cs with
  | nil => exact Or.inl List.not_mem_nil
  | cons c cs ih =>
    rcases ih with hcs | ⟨front, last, rfl, hlast⟩
    · by_cases hc : c = '\n'
      · exact Or.inr ⟨[], cs, congrArg (· :: cs) hc, hcs⟩
      · exact Or.inl (List.not_mem_cons_of_ne_of_not_mem (Ne.symm hc) hcs)
    · exact Or.inr ⟨c :: front, last, rfl, hlast⟩

/-- The line that a walk comes to begins as many characters back as the column says. -/
theorem Source.exists_line_advanceAll (source : Source) (as bs : List Char) :
    let p := source.start.advanceAll as
    ∃ line, (lines (as ++ bs))[p.line]? = some line ∧ p.column ≤ line.length ∧
      lineStart (as ++ bs) p.line + p.column = as.length := by
  intro p
  have hline : p.line = as.count '\n' := (source.start.line_advanceAll as).trans (Nat.zero_add _)
  rcases exists_lastLine as with has | ⟨front, last, rfl, hlast⟩
  · have hcolumn : p.column = as.length := (source.start.column_advanceAll has).trans (Nat.zero_add _)
    obtain ⟨line, more, hlines⟩ := exists_lines_append has bs
    rw [hline, List.count_eq_zero_of_not_mem has, hcolumn]
    exact ⟨as ++ line, by rw [hlines]; rfl, by simp, Nat.zero_add _⟩
  · have hcolumn : p.column = last.length := by
      have hp : p = ((source.start.advanceAll front).advance '\n').advanceAll last := Position.advanceAll_append _ _ _
      rw [hp, Position.column_advanceAll _ hlast]
      exact Nat.zero_add _
    obtain ⟨line, more, hlines⟩ := exists_lines_append hlast bs
    have hcount : p.line = (lines front).length := by
      rw [hline, List.count_append, List.count_cons_self, List.count_eq_zero_of_not_mem hlast, length_lines]
    have hall : lines (front ++ '\n' :: last ++ bs) = lines front ++ (last ++ line) :: more := by
      rw [List.append_assoc, List.cons_append, lines_append_lineFeed, hlines]
    rw [hcount, hcolumn, lineStart, hall, List.take_left, flatMap_lines]
    refine ⟨last ++ line, by simp, by simp, ?_⟩
    simp only [List.length_append, List.length_cons, List.length_nil]
    omega

/-! ## Spans by offsets -/

/-- The lines and columns of the span are those of the characters of the text `cs` from offset `i` up to offset `j`. -/
structure Span.Between (s : Span) (cs : List Char) (i j : Nat) : Prop where
  text : s.start.source.text.toList = cs
  le : i ≤ j
  le_length : j ≤ cs.length
  start_eq : lineStart cs s.start.line + s.start.column = i
  start_lt : i < lineStart cs (s.start.line + 1)
  stop_eq : lineStart cs s.stop.line + s.stop.column = j
  stop_lt : j < lineStart cs (s.stop.line + 1)
  stop_line_lt : s.stop.line < (lines cs).length
  stop_line : s.stop.line = s.start.line + ((cs.take j).drop i).count '\n'

/-- The span from the character at offset `i` up to the one at offset `j`. -/
def Source.between (source : Source) (i j : Nat) : Span :=
  ⟨source.start.advanceAll (source.text.toList.take i), source.start.advanceAll (source.text.toList.take j)⟩

section

variable {source : Source} {i j : Nat}

/-- A walk over `i` characters ends on a line of the text, between where this line begins and where the next one
does. -/
theorem Source.lineStart_take (hi : i ≤ source.text.toList.length) :
    let cs := source.text.toList
    let p := source.start.advanceAll (cs.take i)
    p.line < (lines cs).length ∧ lineStart cs p.line + p.column = i ∧ i < lineStart cs (p.line + 1) := by
  intro cs p
  have hwalk := source.exists_line_advanceAll (cs.take i) (cs.drop i)
  rw [List.take_append_drop, List.length_take_of_le hi] at hwalk
  obtain ⟨line, hline, hcolumn, hstart⟩ := hwalk
  change (lines cs)[p.line]? = some line at hline
  change lineStart cs p.line + p.column = i at hstart
  change p.column ≤ line.length at hcolumn
  refine ⟨(List.getElem?_eq_some_iff.mp hline).1, hstart, ?_⟩
  rw [lineStart_succ hline]
  omega

theorem Source.span_between (hij : i ≤ j) (hj : j ≤ source.text.toList.length) :
    (source.between i j).Between source.text.toList i j := by
  obtain ⟨-, hstart, hnext⟩ := source.lineStart_take (Nat.le_trans hij hj)
  obtain ⟨hlength, hstop, hbehind⟩ := source.lineStart_take hj
  refine ⟨?_, hij, hj, hstart, hnext, hstop, hbehind, hlength, ?_⟩
  · exact congrArg (fun source => source.text.toList) (Position.source_advanceAll _ _)
  · -- the walk to the second place goes on from the first one
    have htake := List.take_append_drop i (source.text.toList.take j)
    rw [List.take_take, Nat.min_eq_left hij] at htake
    change (source.start.advanceAll _).line = (source.start.advanceAll _).line + _
    rw [← Position.line_advanceAll, ← Position.advanceAll_append, htake]

end

/-! ## Lines and carets -/

/-- The rows show the lines of the text `cs` from `first` to `last`, without tabs, and under each carets below its
characters with an offset from `i` up to `j`, as many in all as characters there are no line feeds. -/
structure Underlines (rows : List (List Char)) (cs : List Char) (i j first last : Nat) : Prop where
  first_le_last : first ≤ last
  length_rows : rows.length = 2 * (last - first + 1)
  shows : ∀ n, first ≤ n → n ≤ last → ∃ chars width, (lines cs)[n]? = some chars ∧
    rows[2 * (n - first)]? = some (chars.filter (· ≠ '\t')) ∧
    rows[2 * (n - first) + 1]? =
      some (List.replicate (i - lineStart cs n) ' ' ++ List.replicate width '^') ∧
    ∀ k, i - lineStart cs n ≤ k ∧ k < i - lineStart cs n + width ↔
      ∃ c, chars[k]? = some c ∧ cs[lineStart cs n + k]? = some c ∧ i ≤ lineStart cs n + k ∧ lineStart cs n + k < j
  total : ((List.range (last - first + 1)).flatMap fun r => rows.getD (2 * r + 1) []).count '^' =
    ((cs.take j).drop i).countP (· ≠ '\n')

/-- The row of carets under line `r` of those that are printed. -/
def Span.caretsUnder (s : Span) (r : Nat) : List Char :=
  (lines s.excerpt.toList).getD (2 * r + 1) []

theorem Span.count_caretRow (a b : Nat) : (caretRow a b).count '^' = b - a := by
  simp [caretRow, List.count_replicate]

/-- The carets of a row are in the columns of the characters with an offset from `i` up to `j`. -/
theorem column_iff {cs chars : List Char} {i j n : Nat} (hline : (lines cs)[n]? = some chars) (k : Nat) :
    i - lineStart cs n ≤ k ∧
        k < i - lineStart cs n + (min (j - lineStart cs n) chars.length - (i - lineStart cs n)) ↔
      ∃ c, chars[k]? = some c ∧ cs[lineStart cs n + k]? = some c ∧ i ≤ lineStart cs n + k ∧ lineStart cs n + k < j := by
  constructor
  · rintro ⟨hleft, hright⟩
    have hk : k < chars.length := by omega
    refine ⟨chars[k], List.getElem?_eq_getElem hk, ?_, by omega, by omega⟩
    rw [getElem?_lineStart_add hline hk]
    exact List.getElem?_eq_getElem hk
  · rintro ⟨c, hc, -, hi, hj⟩
    have hk : k < chars.length := (List.getElem?_eq_some_iff.mp hc).1
    omega

namespace Span.Between

variable {s : Span} {cs : List Char} {i j n : Nat}

theorem line_le (h : s.Between cs i j) : s.start.line ≤ s.stop.line :=
  Nat.le.intro h.stop_line.symm

/-- The columns of a line that lie in the span are told by where the line begins. -/
theorem columns_eq (h : s.Between cs i j) {line : List Char} (hline : (lines cs)[n]? = some line)
    (hfirst : s.start.line ≤ n) (hlast : n ≤ s.stop.line) :
    s.columns n line.length = (i - lineStart cs n, min (j - lineStart cs n) line.length) := by
  obtain ⟨-, hij, -, hstart, hnext, hstop, hbehind, -, -⟩ := h
  have hsucc : lineStart cs (n + 1) = lineStart cs n + line.length + 1 := lineStart_succ hline
  rw [columns, Nat.max_eq_right (Nat.le_trans hfirst hlast)]
  refine Prod.ext ?_ ?_
  · change (if n = s.start.line then s.start.column else 0) = i - lineStart cs n
    split
    · next hn =>
      subst hn
      omega
    · next hn =>
      have hmono : lineStart cs (s.start.line + 1) ≤ lineStart cs n :=
        lineStart_mono (Nat.lt_of_le_of_ne hfirst (Ne.symm hn))
      omega
  · change (if n = s.stop.line then s.stop.column else line.length) = min (j - lineStart cs n) line.length
    split
    · next hn =>
      subst hn
      omega
    · next hn =>
      have hmono : lineStart cs (n + 1) ≤ lineStart cs s.stop.line := lineStart_mono (Nat.lt_of_le_of_ne hlast hn)
      omega

/-- The row of a line between those of the two places. -/
theorem exists_row (h : s.Between cs i j) (hfirst : s.start.line ≤ n) (hlast : n ≤ s.stop.line) :
    ∃ line, (lines cs)[n]? = some line ∧ s.rows[n - s.start.line]? =
      some (line.filter (· ≠ '\t'), caretRow (i - lineStart cs n) (min (j - lineStart cs n) line.length)) := by
  obtain ⟨line, hline⟩ : ∃ line, (lines cs)[n]? = some line :=
    ⟨_, List.getElem?_eq_getElem (Nat.lt_of_le_of_lt hlast h.stop_line_lt)⟩
  refine ⟨line, hline, ?_⟩
  rw [rows_eq, List.getElem?_map, List.getElem?_range' (by omega), Nat.one_mul, Nat.add_sub_cancel' hfirst, h.text]
  simp only [Option.map_some, List.getD_eq_getElem?_getD, hline, Option.getD_some, h.columns_eq hline hfirst hlast]

theorem exists_count_caretsUnder (h : s.Between cs i j) (hfirst : s.start.line ≤ n) (hlast : n ≤ s.stop.line) :
    ∃ line, (lines cs)[n]? = some line ∧ (s.caretsUnder (n - s.start.line)).count '^' =
      min (j - lineStart cs n) line.length - (i - lineStart cs n) := by
  obtain ⟨line, hline, hrow⟩ := h.exists_row hfirst hlast
  refine ⟨line, hline, ?_⟩
  rw [caretsUnder, List.getD_eq_getElem?_getD, getElem?_lines_excerpt, List.getElem?_map, hrow]
  exact count_caretRow _ _

/-- The carets up to a line, and a line feed for each line, bring one from the first place to where the line begins. -/
theorem count_flatMap_caretsUnder (h : s.Between cs i j) {m : Nat} (hm : s.start.line + m ≤ s.stop.line) :
    ((List.range m).flatMap s.caretsUnder).count '^' + i + m = max i (lineStart cs (s.start.line + m)) := by
  have hstart := h.start_eq
  induction m with
  | zero =>
    simp
    omega
  | succ m ih =>
    obtain ⟨line, hline, hcount⟩ := h.exists_count_caretsUnder (Nat.le_add_right _ m) (Nat.le_of_succ_le hm)
    have hcarets := ih (Nat.le_of_succ_le hm)
    have hsucc : lineStart cs (s.start.line + (m + 1)) = lineStart cs (s.start.line + m) + line.length + 1 :=
      lineStart_succ hline
    have hbehind : lineStart cs (s.start.line + 1) ≤ lineStart cs (s.start.line + (m + 1)) :=
      lineStart_mono (by omega)
    have hbefore : lineStart cs (s.start.line + (m + 1)) ≤ lineStart cs s.stop.line := lineStart_mono hm
    have hnext := h.start_lt
    have hstop := h.stop_eq
    rw [Nat.add_sub_cancel_left] at hcount
    rw [List.range_succ, List.flatMap_append, List.count_append, List.flatMap_singleton, hcount]
    omega

/-- What is no line feed is told from how many characters and line feeds there are. -/
theorem countP_add_count (h : s.Between cs i j) :
    ((cs.take j).drop i).countP (· ≠ '\n') + ((cs.take j).drop i).count '\n' = j - i := by
  let marked := (cs.take j).drop i
  have hlength := List.length_eq_countP_add_countP (· ≠ '\n') (l := marked)
  have hfeeds : marked.countP (fun c => decide ¬ decide (c ≠ '\n') = true) = marked.count '\n' := by
    rw [List.count_eq_countP]
    exact List.countP_congr fun c _ => by simp
  change marked.countP (· ≠ '\n') + marked.count '\n' = j - i
  rw [← hfeeds, ← hlength, List.length_drop, List.length_take_of_le h.le_length]

/-- There are as many carets as characters between the two places that are no line feeds. -/
theorem count_caretsUnder_eq_countP (h : s.Between cs i j) :
    ((List.range (s.stop.line - s.start.line + 1)).flatMap s.caretsUnder).count '^' =
      ((cs.take j).drop i).countP (· ≠ '\n') := by
  have hle := h.line_le
  -- all rows but the last, and the last
  obtain ⟨line, hline, hlast⟩ := h.exists_count_caretsUnder hle (Nat.le_refl _)
  have hcarets := h.count_flatMap_caretsUnder (Nat.le_of_eq (Nat.add_sub_cancel' hle))
  rw [Nat.add_sub_cancel' hle] at hcarets
  have hcount := h.countP_add_count
  obtain ⟨-, hij, -, -, -, hstop, hbehind, -, hlines⟩ := h
  rw [lineStart_succ hline] at hbehind
  rw [List.range_succ, List.flatMap_append, List.count_append, List.flatMap_singleton, hlast]
  omega

theorem underlines (h : s.Between cs i j) : Underlines (lines s.excerpt.toList) cs i j s.start.line s.stop.line := by
  refine ⟨h.line_le, ?_, ?_, h.count_caretsUnder_eq_countP⟩
  · rw [length_lines_excerpt]
    simp [rows_eq]
  · intro n hfirst hlast
    obtain ⟨line, hline, hrow⟩ := h.exists_row hfirst hlast
    refine ⟨line, _, hline, ?_, ?_, column_iff hline⟩
    · rw [getElem?_lines_excerpt_even, List.getElem?_map, hrow]
      rfl
    · rw [getElem?_lines_excerpt, List.getElem?_map, hrow]
      rfl

end Span.Between

/-- **Excerpts mark the span**: what is printed for the span between two characters shows the lines from the one to the
other, without their tabs, and under each of them carets in the columns of its characters that lie in the span. -/
theorem Source.underlines_between (source : Source) {i j : Nat} (hij : i ≤ j) (hj : j ≤ source.text.toList.length) :
    let s := source.between i j
    Underlines (lines s.excerpt.toList) source.text.toList i j s.start.line s.stop.line :=
  (Source.span_between hij hj).underlines

/-- The caret under a tab stays, while the tab itself goes. -/
theorem Source.underlines_between_threeLines :
    let source : Source := ⟨"<stdin>", "ab\ncdéf\n\tgh"⟩
    (1 ≤ 10 ∧ 10 ≤ source.text.toList.length) ∧
      (source.between 1 10).excerpt = "ab\n ^\ncdéf\n^^^^\ngh\n^^" ∧
      Underlines (lines (source.between 1 10).excerpt.toList) source.text.toList 1 10 0 2 := by
  intro source
  have hij : 1 ≤ 10 := by decide
  have hj : 10 ≤ source.text.toList.length := by decide +kernel
  have hlines : (source.between 1 10).start.line = 0 ∧ (source.between 1 10).stop.line = 2 := by decide +kernel
  have hrows := source.underlines_between hij hj
  dsimp only at hrows
  rw [hlines.1, hlines.2] at hrows
  exact ⟨⟨hij, hj⟩, by decide +kernel, hrows⟩

end Reckoner
