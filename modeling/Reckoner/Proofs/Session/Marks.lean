import Reckoner.Diagnostic.Report
import Reckoner.Proofs.Evaluation.Blame
import Reckoner.Proofs.Grammar.Frontier
import Reckoner.Proofs.Grammar.Placement
import Reckoner.Proofs.Session.Journal
import Reckoner.Proofs.Source.Rows
import Reckoner.Proofs.Token.Unreadable

/-!
# What an excerpt marks

Whatever a run reports stands on the first line of its text: a line feed stands for nothing, so nothing behind the first
one is read. The carets of the excerpt begin where the problem does (`Span.InLine.marked`), be it a lexeme that stands
for nothing, a token that does not fit, the end of the text, or a node of the tree.

There is one exception. When it is the line feed itself that is reported, its span goes over to the next line, without a
column on either, and the excerpt has no caret at all (`marked_iff_of_run_eq_error`).
-/

namespace Reckoner

/-- The first row of carets begins with as many spaces as there are columns in front of the span, and goes on with
carets. -/
def Span.Marked (s : Span) : Prop :=
  ∃ n, (lines s.excerpt.toList)[1]? = some (List.replicate s.start.column ' ' ++ List.replicate (n + 1) '^')

/-- There is a caret in a row of carets. These rows are every second line of the excerpt. -/
def Span.HasCaret (s : Span) : Prop :=
  ∃ i row, (lines s.excerpt.toList)[2 * i + 1]? = some row ∧ '^' ∈ row

namespace Span

theorem Marked.hasCaret {s : Span} (h : s.Marked) : s.HasCaret := by
  obtain ⟨n, hrow⟩ := h
  exact ⟨0, _, hrow, List.mem_append_right _ (List.mem_replicate.mpr ⟨Nat.succ_ne_zero n, rfl⟩)⟩

theorem hasCaret_iff {s : Span} : s.HasCaret ↔ ∃ row ∈ s.rows.map Prod.snd, '^' ∈ row := by
  unfold HasCaret
  simp only [getElem?_lines_excerpt]
  constructor
  · rintro ⟨i, row, hrow, hcaret⟩
    exact ⟨row, List.mem_of_getElem? hrow, hcaret⟩
  · rintro ⟨row, hrow, hcaret⟩
    obtain ⟨i, hi⟩ := List.mem_iff_getElem?.mp hrow
    exact ⟨i, row, hi, hcaret⟩

/-- A span with a width inside of one line is marked. -/
theorem InLine.marked {s : Span} (h : s.InLine) : s.Marked := by
  obtain ⟨line, hrows⟩ := rows_of_inLine h
  have hwidth := h.width
  refine ⟨s.stop.column - s.start.column - 1, ?_⟩
  rw [getElem?_lines_excerpt s 0, hrows, Nat.sub_add_cancel (by omega)]
  rfl

end Span

/-! ## The spans of problems -/

section

variable {source : Source} {i j : Nat}

theorem inLine_of_eq_byte {s : Span} (hs : s = source.bytes i j) (h : i < j) : s.InLine := by
  subst hs
  exact ⟨rfl, h⟩

/-- A lexeme that stands for nothing, and is no line feed, has its place on the line. -/
theorem Unreadable.inLine {rest lexeme : List Char} {problem : Problem} (h : Unreadable rest lexeme problem)
    (hproblem : problem ≠ .illegalCharacter '\n') :
    (⟨source.byte i, (source.byte i).advanceAll lexeme⟩ : Span).InLine := by
  cases h with
  | @character c _ _ _ _ =>
    have hc : c ≠ '\n' := fun hc => hproblem (hc ▸ rfl)
    have hstop : (source.byte i).advanceAll [c] = ⟨source, i + c.utf8Size, 0, i + 1⟩ := if_neg hc
    rw [hstop]
    exact ⟨rfl, Nat.lt_succ_self i⟩
  | numeral hne hdigits _ _ =>
    obtain ⟨c, cs, rfl⟩ := List.exists_cons_of_ne_nil hne
    rw [Source.advanceAll_byte fun x hx => plain_of_isDigit (hdigits x hx)]
    exact inLine_of_eq_byte rfl (Nat.lt_add_of_pos_right (Nat.add_pos_left c.utf8Size_pos _))

/-- A line feed behind plain characters has no caret. -/
theorem not_hasCaret_lineFeed {before rest : List Char} (htext : source.text.toList = before ++ '\n' :: rest)
    (hbefore : ∀ c ∈ before, Plain c) : ¬ (Span.single (source.byte (utf8Length before)) '\n').HasCaret := by
  let p : Position := source.byte (utf8Length before)
  have hline : (lines p.source.text.toList)[p.line]? = some before := by
    change (lines source.text.toList)[0]? = some before
    rw [htext, lines_append_cons fun hmem => (hbefore _ hmem).1 rfl]
    rfl
  have hcolumn : before.length = p.column := (utf8Length_of_plain hbefore).symm
  rw [Span.hasCaret_iff, Span.rows_single_lineFeed hline hcolumn]
  simp [Span.mem_caretRow_iff]

/-- A text without tokens is reported at a lexeme of one line, or at a line feed, without a caret. -/
theorem inLine_or_of_scan_eq_error {d : Diagnostic} (h : Token.scan source = .error d) :
    (d.problem ≠ .illegalCharacter '\n' ∧ d.span.InLine) ∨
      (d.problem = .illegalCharacter '\n' ∧ ¬ d.span.HasCaret) := by
  obtain ⟨before, lexeme, rest, htext, hbefore, hunreadable, hd⟩ := Token.exists_unreadable_of_scan h
  rw [hd]
  by_cases hproblem : d.problem = .illegalCharacter '\n'
  · rw [hproblem] at hunreadable
    cases hunreadable
    exact Or.inr ⟨hproblem, not_hasCaret_lineFeed htext hbefore.plain⟩
  · exact Or.inl ⟨hproblem, hunreadable.inLine hproblem⟩

/-- A token that does not fit has its place on the line, and the end has one behind it. -/
theorem inLine_of_ofTokens_eq_error {ts : List Token} {d : Diagnostic} (hscan : Token.scan source = .ok ts)
    (h : Expr.ofTokens ts = .error d) : d.span.InLine ∧ ∃ problem, d.problem = .invalidSyntax problem := by
  obtain ⟨us, rfl, hus, -, hplaces⟩ := Token.exists_inOrder_of_scan hscan
  rw [Expr.ofTokens_append_stop hus rfl] at h
  obtain ⟨vs, rest, problem, rfl, rfl, -⟩ := Expr.exists_refusal_of_ofBody_eq_error h
  refine ⟨?_, problem, rfl⟩
  cases rest with
  | nil => exact inLine_of_eq_byte rfl (Nat.lt_succ_self _)
  | cons t rest =>
    obtain ⟨a, b, hspan, hab, -⟩ := hplaces t (List.mem_append_right vs List.mem_cons_self)
    exact inLine_of_eq_byte hspan hab

/-- The node that is blamed has its place on the line, in whatever scope the tree is evaluated. -/
theorem inLine_of_evaluate_eq_error {ts : List Token} {tree : Expr} {context : Context} {s : Scope} {d : Diagnostic}
    (hscan : Token.scan source = .ok ts) (hread : Expr.ofTokens ts = .ok tree)
    (h : (tree.evaluate context s).1 = .error d) : d.span.InLine ∧ ∃ problem, d.problem = .runtime problem := by
  obtain ⟨node, hnode, problem, place, hblames, rfl⟩ := Expr.exists_failsAt h
  obtain ⟨-, a, b, hspan, hab, -⟩ :=
    Expr.exists_byte_of_mem_nodes hscan hread place (hnode.nodes_subset hblames.mem_nodes)
  exact ⟨inLine_of_eq_byte hspan hab, problem, rfl⟩

end

/-! ## Runs -/

namespace Session

/-- What a run reports lies in one line, or is a line feed, without a caret. -/
theorem inLine_or_of_run_eq_error {session : Session} {source : Source} {d : Diagnostic}
    (h : (session.run source).1.outcome = .error d) :
    (d.problem ≠ .illegalCharacter '\n' ∧ d.span.InLine) ∨
      (d.problem = .illegalCharacter '\n' ∧ ¬ d.span.HasCaret) := by
  -- each stage that may fail has spans of its own
  rcases run_eq_error _ _ _ h with hscan | ⟨ts, hscan, hread | ⟨tree, hread, hevaluate⟩⟩
  · exact inLine_or_of_scan_eq_error hscan
  · obtain ⟨hinLine, problem, hproblem⟩ := inLine_of_ofTokens_eq_error hscan hread
    exact Or.inl ⟨by simp [hproblem], hinLine⟩
  · obtain ⟨hinLine, problem, hproblem⟩ := inLine_of_evaluate_eq_error hscan hread hevaluate
    exact Or.inl ⟨by simp [hproblem], hinLine⟩

/-- **Excerpts mark the problem**: the excerpt of what a run reports has a caret, and the first row of carets begins
where the problem does, if and only if it is not a line feed that is reported. -/
theorem marked_iff_of_run_eq_error {session : Session} {source : Source} {d : Diagnostic}
    (h : (session.run source).1.outcome = .error d) :
    (d.span.HasCaret ↔ d.problem ≠ .illegalCharacter '\n') ∧ (d.span.Marked ↔ d.problem ≠ .illegalCharacter '\n') := by
  rcases inLine_or_of_run_eq_error h with ⟨hproblem, hinLine⟩ | ⟨hproblem, hnone⟩
  · exact ⟨iff_of_true hinLine.marked.hasCaret hproblem, iff_of_true hinLine.marked hproblem⟩
  · exact ⟨iff_of_false hnone (not_not_intro hproblem),
      iff_of_false (fun hmarked => hnone hmarked.hasCaret) (not_not_intro hproblem)⟩

/-- What is missing at the end of `(1+2`. -/
def unclosed : Diagnostic :=
  let source : Source := ⟨"<stdin>", "(1+2"⟩
  .ofSyntax .expectedRightParen (source.bytes 4 5)

/-- The end of a text is marked, one column behind it. -/
theorem marked_unclosed :
    (({} : Session).run ⟨"<stdin>", "(1+2"⟩).1.outcome = .error unclosed ∧ unclosed.span.HasCaret ∧
      unclosed.span.Marked := by
  have hsource : Expr.ofSource ⟨"<stdin>", "(1+2"⟩ = .error unclosed := by decide +kernel
  have h : (({} : Session).run ⟨"<stdin>", "(1+2"⟩).1.outcome = .error unclosed :=
    (run_of_ofSource_eq_error _ _ _ hsource).1
  obtain ⟨hcaret, hmarked⟩ := marked_iff_of_run_eq_error h
  exact ⟨h, hcaret.mpr (by decide), hmarked.mpr (by decide)⟩

/-- What is wrong with the line feed of a text of two lines. -/
def brokenLine : Diagnostic :=
  let source : Source := ⟨"<stdin>", "1\n2"⟩
  ⟨.illegalCharacter '\n', .single (source.byte 1) '\n', none⟩

/-- The line feed is reported, without a caret in the whole report. -/
theorem not_hasCaret_brokenLine :
    (({} : Session).run ⟨"<stdin>", "1\n2"⟩).1.outcome = .error brokenLine ∧ ¬ brokenLine.span.HasCaret ∧
      '^' ∉ brokenLine.report.toList := by
  have hsource : Expr.ofSource ⟨"<stdin>", "1\n2"⟩ = .error brokenLine := by decide +kernel
  have h : (({} : Session).run ⟨"<stdin>", "1\n2"⟩).1.outcome = .error brokenLine :=
    (run_of_ofSource_eq_error _ _ _ hsource).1
  have hnone : ¬ brokenLine.span.HasCaret := by
    rcases inLine_or_of_run_eq_error h with ⟨hproblem, -⟩ | ⟨-, hnone⟩
    · exact absurd rfl hproblem
    · exact hnone
  exact ⟨h, hnone, by decide +kernel⟩

end Session

end Reckoner
