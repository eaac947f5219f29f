import Reckoner.Proofs.Grammar.RoundTrip
import Reckoner.Proofs.Number.Integers
import Reckoner.Proofs.Session.Journal
import Reckoner.Proofs.Token.Unreadable

/-!
# Running printed integers

The text of an integer that is not negative is a literal, and that of a negative one is a literal behind a minus. There
is no literal for `2 ^ 63`, so the least integer is the one whose text is not read. All others have themselves as the
result of running their text, in any session, and leave the session as it is (`Session.run_render_int`).
-/

namespace Reckoner

open Token (Kind)

/-- The span of a text of one line. -/
def Source.whole (source : Source) : Span :=
  source.bytes 0 (utf8Length source.text.toList)

variable {m n : Int64}

/-! ## Negated integers -/

/-- Every integer but the least has its negation in 64 bits. -/
theorem exists_toInt_eq_neg (h : n ≠ Int64.minValue) : ∃ m : Int64, m.toInt = -n.toInt := by
  have hmin : n.toInt ≠ -2 ^ 63 := fun hn => h (Int64.toInt_inj.mp hn)
  have hfits : Fits (-n.toInt) := by
    have hn := fits_iff.mp (fits_toInt n)
    rw [fits_iff]
    omega
  obtain ⟨m, -, hm⟩ := Number.ofInt_of_fits hfits
  exact ⟨m, hm⟩

theorem repr_neg {i : Int} (h : 0 < i) : (-i).repr = "-" ++ i.repr := by
  obtain ⟨k, rfl⟩ := Int.eq_succ_of_zero_lt h
  rfl

/-- Negating the number that is the negation of `n` gives `n`. -/
theorem Sign.evaluate_minus (context : Context) (h : m.toInt = -n.toInt) (span? : Option Span) (operand span : Span) :
    minus.evaluate context ⟨.int m, span?⟩ operand span = .ok ⟨.int n, some span⟩ := by
  have hcomputes := minus.computes_evaluate context m span? operand span
  have hneg : minus.onIntegers m.toInt = n.toInt := by simp [onIntegers, h]
  rw [hneg] at hcomputes
  generalize minus.evaluate context ⟨.int m, span?⟩ operand span = outcome at hcomputes ⊢
  cases hcomputes with
  | value k hk => rw [Int64.toInt_inj.mp hk]
  | overflow hout => exact absurd (fits_toInt n) hout

/-! ## The trees of printed integers -/

namespace Expr

/-- A text whose pieces are derived holds what they are derived with. -/
theorem ofSource_of_split {source : Source} {lead : List Char} {pieces : List Piece} {tree : Expr}
    (h : Split source.text.toList lead pieces)
    (hd : Derives .expression 0 (source.tokensAt (utf8Length lead) pieces) tree) : ofSource source = .ok tree := by
  rw [ofSource_of_scan (Token.scan_eq_ok_iff.mpr ⟨lead, pieces, h, rfl⟩)]
  exact ofTokens_of_derives rfl [] hd

theorem minus_mem_symbols : ('-', Kind.minus) ∈ symbols := by
  simp [symbols]

/-- The text of an integer that is not negative is one lexeme. -/
theorem pieces_repr (hn : 0 ≤ n.toInt) : Pieces n.toInt.repr.toList [⟨n.toInt.repr.toList, .number (.int n), []⟩] := by
  have hblanks : Blanks [] := by decide
  simpa using Pieces.cons (lexeme_repr hn) hblanks (endsAll_nil _) .nil

theorem ofSource_repr (name : String) (hn : 0 ≤ n.toInt) :
    let source : Source := ⟨name, n.toInt.repr⟩
    ofSource source = .ok (literal (.int n) source.whole) := by
  intro source
  have htokens : source.tokensAt 0 [⟨n.toInt.repr.toList, .number (.int n), []⟩] =
      [⟨.number (.int n), source.whole⟩] := by
    simp [Source.tokensAt, Source.whole, source]
  have hsplit : Split source.text.toList [] _ := ⟨by decide, _, rfl, pieces_repr hn⟩
  refine ofSource_of_split hsplit ?_
  rw [utf8Length_nil, htokens]
  exact derives_number .expression 0 _ _

theorem ofSource_minus_repr (name : String) (hm : 0 ≤ m.toInt) :
    let source : Source := ⟨name, "-" ++ m.toInt.repr⟩
    ofSource source = .ok (unary .minus (literal (.int m) ⟨source.byte 1, source.whole.stop⟩) source.whole) := by
  intro source
  have hblanks : Blanks [] := by decide
  have hpieces := Pieces.cons (.symbol minus_mem_symbols) hblanks (ends_of_symbol minus_mem_symbols _) (pieces_repr hm)
  have htext : source.text.toList = ['-'] ++ ([] ++ m.toInt.repr.toList) := by simp [source]
  have htokens : source.tokensAt 0 [⟨['-'], .minus, []⟩, ⟨m.toInt.repr.toList, .number (.int m), []⟩] =
      [⟨.minus, source.bytes 0 1⟩, ⟨.number (.int m), ⟨source.byte 1, source.whole.stop⟩⟩] := by
    rw [Source.whole, htext]
    rfl
  refine ofSource_of_split ⟨hblanks, _, htext, hpieces⟩ ?_
  rw [utf8Length_nil, htokens]
  exact (Derives.signed rfl (by decide) (derives_number .factor 1 (.int m) _)).expression

/-- There is no literal for the negation of the least integer. -/
theorem ofSource_minus_out_of_range (name : String) :
    let source : Source := ⟨name, "-9223372036854775808"⟩
    ofSource source =
      .error (.ofSyntax (.numberOutOfRange "9223372036854775808") (source.bytes 1 20)) := by
  intro source
  have hunreadable : Unreadable [] "9223372036854775808".toList
      (.invalidSyntax (.numberOutOfRange "9223372036854775808")) :=
    .numeral (by decide) (by decide) (fun _ hx => nomatch hx) (by decide +kernel)
  have htext : source.text.toList = ['-'] ++ ("9223372036854775808".toList ++ []) := by
    change "-9223372036854775808".toList = _
    decide
  have hscan : Token.scan source =
      .error (.ofSyntax (.numberOutOfRange "9223372036854775808") (source.bytes 1 20)) := by
    rw [Token.scan, htext, Token.scanAt_lexeme_append (.symbol minus_mem_symbols) (ends_of_symbol minus_mem_symbols _),
      Token.scanAt_append_of_unreadable hunreadable]
    rfl
  unfold ofSource
  rw [hscan]
  rfl

end Expr

/-! ## Their runs -/

namespace Session

/-- The run of a text that is evaluated without an effect. -/
theorem run_of_evaluate {s : Session} {source : Source} {tree : Expr} {outcome : Outcome Value}
    (htree : Expr.ofSource source = .ok tree)
    (h : tree.evaluate (.root s.moduleName) { own := s.globals } = (outcome, { own := s.globals })) :
    (s.run source).2 = s ∧ (s.run source).1.outcome = outcome := by
  obtain ⟨houtcome, -, -⟩ := run_of_ofSource_eq_ok (.root s.moduleName) s.globals [] htree
  have hsession := (run_of_ok (s := s) htree).1
  rw [h] at houtcome hsession
  exact ⟨hsession, houtcome⟩

/-- **Integers are printed and read back.** Whatever has been run in a session, the text of an integer that is not the
least one has that integer as its result, with the span of the text, and changes nothing. If the integer is not
negative, the text is a single literal. The digits of the least integer are refused as out of range. -/
theorem run_render_int (s : Session) (name : String) (n : Int64) :
    let source : Source := ⟨name, (Number.int n).render⟩
    (s.run source).2 = s ∧
    (n ≠ Int64.minValue → (s.run source).1.outcome = .ok ⟨.int n, some source.whole⟩) ∧
    (0 ≤ n → Expr.ofSource source = .ok (.literal (.int n) source.whole)) ∧
    (n = Int64.minValue → (s.run source).1.outcome =
      .error (.ofSyntax (.numberOutOfRange "9223372036854775808") (source.bytes 1 20))) := by
  intro source
  by_cases hmin : n = Int64.minValue
  · subst hmin
    have herror := Expr.ofSource_minus_out_of_range name
    obtain ⟨houtcome, -, -⟩ := run_of_ofSource_eq_error (.root s.moduleName) s.globals [] herror
    exact ⟨(run_of_error herror).1, fun h => absurd rfl h, fun h => absurd h (by decide), fun _ => houtcome⟩
  rcases lt_or_ge n.toInt 0 with hneg | hpos
  · obtain ⟨m, hm⟩ := exists_toInt_eq_neg hmin
    have htext : n.toInt.repr = "-" ++ m.toInt.repr := by
      rw [← repr_neg (show 0 < m.toInt by omega), hm, Int.neg_neg]
    have htree := Expr.ofSource_minus_repr name (show 0 ≤ m.toInt by omega)
    rw [← htext] at htree
    obtain ⟨hsession, houtcome⟩ := run_of_evaluate (s := s) htree
      (congrArg (·, _) (Sign.evaluate_minus _ hm _ _ _))
    refine ⟨hsession, fun _ => houtcome, fun h => ?_, fun h => absurd h hmin⟩
    rw [Int64.le_iff_toInt_le] at h
    exact absurd h (Int.not_le.mpr hneg)
  · have htree := Expr.ofSource_repr name hpos
    obtain ⟨hsession, houtcome⟩ := run_of_evaluate (s := s) htree rfl
    exact ⟨hsession, fun _ => houtcome, fun _ => htree, fun h => absurd h hmin⟩

/-- The least integer that has itself as its result, and the one below. -/
theorem run_render_int_least :
    let s : Session := ⟨"calc", Table.initial.insert "x" ⟨.int 7, none⟩⟩
    let below : Source := ⟨"<stdin>", "-9223372036854775808"⟩
    let least : Source := ⟨"<stdin>", "-9223372036854775807"⟩
    Int64.minValue + 1 ≠ Int64.minValue ∧
    (s.run least).1.outcome = .ok ⟨.int (Int64.minValue + 1), some ⟨least.byte 0, least.byte 20⟩⟩ ∧
    (s.run below).1.outcome =
      .error (.ofSyntax (.numberOutOfRange "9223372036854775808") ⟨below.byte 1, below.byte 20⟩) := by
  intro s below least
  have hne : Int64.minValue + 1 ≠ Int64.minValue := by decide
  have hrender : (Number.int (Int64.minValue + 1)).render = least.text := by decide +kernel
  have hleast := (run_render_int s "<stdin>" (Int64.minValue + 1)).2.1 hne
  have hbelow := (run_render_int s "<stdin>" Int64.minValue).2.2.2 rfl
  have hwhole : least.whole = ⟨least.byte 0, least.byte 20⟩ := by decide +kernel
  rw [hrender] at hleast
  rw [← hwhole]
  exact ⟨hne, hleast, hbelow⟩

end Session

end Reckoner
