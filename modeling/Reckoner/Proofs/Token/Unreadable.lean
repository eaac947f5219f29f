import Reckoner.Proofs.Token.Order

/-!
# Texts without tokens

A text has no tokens when it goes on, behind lexemes and blanks (`Readable`), with a lexeme that stands for nothing: a
character that begins none, or the digits of a number that has no place in 64 bits (`Unreadable`). The scanner reports
the first one, with its place (`exists_unreadable_of_scan`).

The scanner looks one character ahead at most, so what is readable in front of a text is read the same way in front of
another one that begins alike, or with a blank (`Token.exists_scanAt_append_of_readable`), and what is unreadable stays
so (`Unreadable.replace`). In particular nothing behind a character that begins no lexeme makes up for it
(`exists_misreading_of_scan_eq_error`).
-/

namespace Reckoner

open Token (Kind)

/-- The lexeme stands for nothing in front of `rest`, for this problem. -/
inductive Unreadable (rest : List Char) : List Char → Problem → Prop
  | character {c : Char} : isBlank c = false → c.isDigit = false → c.isAlpha = false → (∀ kind, (c, kind) ∉ symbols) →
      Unreadable rest [c] (.illegalCharacter c)
  | numeral {digits : List Char} : digits ≠ [] → Digits digits → (∀ x ∈ rest.head?, x.isDigit = false ∧ x ≠ '.') →
      Int64.maxValue.toInt < Nat.ofDigitChars 10 digits 0 →
      Unreadable rest digits (.invalidSyntax (.numberOutOfRange (String.ofList digits)))

section

variable {c : Char} {cs : List Char} {problem : Problem}

theorem unreadable_of_munch_digit (hc : c.isDigit = true) (h : Kind.ofLexeme c (munch c cs).1 = .error problem) :
    Unreadable (munch c cs).2 (munch c cs).1 problem := by
  rw [Kind.ofLexeme, if_pos hc] at h
  rcases munch_digit hc cs with ⟨ds, fs, rest, hmunch, hwhole, -, -⟩ | ⟨ds, rest, hmunch, hwhole, hends⟩ <;>
    rw [hmunch] at h ⊢
  · -- with a point, there is a double
    rw [ofNumeral_decimal hwhole] at h
    cases h
  · rw [ofNumeral_integer hwhole] at h
    split at h
    · cases h
    · next hlt =>
      cases h
      exact .numeral (List.cons_ne_nil c ds) hwhole hends (Int.not_le.mp hlt)

/-- What is munched and stands for nothing. -/
theorem unreadable_of_munch (hb : ¬ isBlank c = true) (h : Kind.ofLexeme c (munch c cs).1 = .error problem) :
    Unreadable (munch c cs).2 (munch c cs).1 problem := by
  by_cases hd : c.isDigit = true
  · exact unreadable_of_munch_digit hd h
  rw [Kind.ofLexeme, if_neg hd] at h
  by_cases ha : c.isAlpha = true
  · rw [if_pos ha] at h
    cases h
  rw [if_neg ha] at h
  rw [Bool.not_eq_true] at hb hd ha
  rw [munch_single hd ha]
  split at h
  · cases h
  · next hnone =>
    cases h
    refine .character hb hd ha fun kind hmem => ?_
    rw [ofSymbol?_eq_some_iff.mpr hmem] at hnone
    cases hnone

end

/-! ## What is readable -/

/-- The text consists of lexemes and blanks, the last of which ends in front of `rest`. -/
inductive Readable (rest : List Char) : List Char → Prop
  | nil : Readable rest []
  | blank {c : Char} {cs : List Char} : isBlank c = true → Readable rest cs → Readable rest (c :: cs)
  | lexeme {lexeme cs : List Char} {kind : Kind} : Lexeme lexeme kind → kind.Ends (cs ++ rest) → Readable rest cs →
      Readable rest (lexeme ++ cs)

/-- The text `rest'` can stand in the place of `rest`: it begins alike, or with a blank, if it begins with anything. -/
def Replaces (rest' rest : List Char) : Prop :=
  ∀ c ∈ rest'.head?, c ∈ rest.head? ∨ isBlank c = true

section

variable {cs rest rest' : List Char}

theorem replaces_nil (rest : List Char) : Replaces [] rest :=
  fun _ hc => nomatch hc

theorem replaces_cons (c : Char) (rest' rest : List Char) : Replaces (c :: rest') (c :: rest) :=
  fun _ hc => Or.inl hc

theorem replaces_blanks {blanks : List Char} (hne : blanks ≠ []) (h : Blanks blanks) (rest' rest : List Char) :
    Replaces (blanks ++ rest') rest := by
  obtain ⟨b, bs, rfl⟩ := List.exists_cons_of_ne_nil hne
  rintro c ⟨rfl⟩
  exact Or.inr (h b List.mem_cons_self)

theorem Replaces.append (h : Replaces rest' rest) (cs : List Char) : Replaces (cs ++ rest') (cs ++ rest) := by
  cases cs with
  | nil => exact h
  | cons c cs => exact replaces_cons c _ _

/-- No lexeme goes on with a blank. -/
theorem Token.Kind.extends_of_isBlank (kind : Kind) {c : Char} (hc : isBlank c = true) : kind.extends c = false := by
  simp only [isBlank, Bool.or_eq_true, decide_eq_true_eq] at hc
  unfold Kind.extends
  rcases hc with rfl | rfl <;> split <;> rfl

theorem Token.Kind.Ends.replace {kind : Kind} (h : kind.Ends rest) (hrest : Replaces rest' rest) :
    kind.Ends rest' := by
  intro c hc
  rcases hrest c hc with hc | hc
  · exact h c hc
  · exact kind.extends_of_isBlank hc

theorem Unreadable.replace {lexeme : List Char} {problem : Problem} (h : Unreadable rest lexeme problem)
    (hrest : Replaces rest' rest) : Unreadable rest' lexeme problem := by
  cases h with
  | character hb hd ha hsymbol => exact .character hb hd ha hsymbol
  | numeral hne hdigits hends hlt =>
    refine .numeral hne hdigits (fun x hx => ?_) hlt
    rcases hrest x hx with hx | hx
    · exact hends x hx
    · simpa [Kind.extends] using (Kind.number (.int 0)).extends_of_isBlank hx

theorem Readable.plain (h : Readable rest cs) : ∀ c ∈ cs, Plain c := by
  induction h with
  | nil => exact fun _ hc => absurd hc List.not_mem_nil
  | blank hb _ ih => exact List.forall_mem_cons.mpr ⟨plain_of_isBlank hb, ih⟩
  | lexeme hlexeme _ _ ih => exact List.forall_mem_append.mpr ⟨hlexeme.plain, ih⟩

theorem Blanks.readable (h : Blanks cs) (hrest : Readable rest rest') : Readable rest (cs ++ rest') := by
  induction cs with
  | nil => exact hrest
  | cons c cs ih =>
    obtain ⟨hc, hcs⟩ := List.forall_mem_cons.mp h
    exact .blank hc (ih hcs)

/-- A text that splits is readable, with nothing behind it. -/
theorem Split.readable {text lead : List Char} {pieces : List Piece} (h : Split text lead pieces) :
    Readable [] text := by
  obtain ⟨hlead, rest, rfl, hpieces⟩ := h
  refine hlead.readable ?_
  clear hlead
  induction hpieces with
  | nil => exact .nil
  | cons hlexeme hblanks hends _ ih =>
    exact .lexeme hlexeme (by rwa [List.append_nil]) (hblanks.readable ih)

namespace Token

/-- What is readable is read to the same tokens in front of all texts that can stand in the place of `rest`. -/
theorem exists_scanAt_append_of_readable (h : Readable rest cs) (p : Position) : ∃ ts, ∀ rest', Replaces rest' rest →
    scanAt p (cs ++ rest') = (scanAt (p.advanceAll cs) rest').map (ts ++ ·) := by
  induction h generalizing p with
  | nil =>
    refine ⟨[], fun rest' _ => ?_⟩
    rw [List.nil_append, Position.advanceAll_nil]
    cases scanAt p rest' <;> rfl
  | blank hb _ ih =>
    obtain ⟨ts, hts⟩ := ih (p.advance _)
    refine ⟨ts, fun rest' hrest' => ?_⟩
    rw [List.cons_append, scanAt_blank hb, hts rest' hrest', Position.advanceAll_cons]
  | @lexeme lexeme cs kind hlexeme hends _ ih =>
    obtain ⟨ts, hts⟩ := ih (p.advanceAll lexeme)
    refine ⟨⟨kind, ⟨p, p.advanceAll lexeme⟩⟩ :: ts, fun rest' hrest' => ?_⟩
    rw [List.append_assoc, scanAt_lexeme_append hlexeme (hends.replace (hrest'.append cs)), hts rest' hrest',
      Position.advanceAll_append]
    cases scanAt ((p.advanceAll lexeme).advanceAll cs) rest' <;> rfl

/-- What is unreadable is reported where it stands. -/
theorem scanAt_append_of_unreadable {lexeme : List Char} {problem : Problem} (h : Unreadable rest lexeme problem)
    (p : Position) : scanAt p (lexeme ++ rest) = .error ⟨problem, ⟨p, p.advanceAll lexeme⟩, none⟩ := by
  cases h with
  | @character c hb hd ha hsymbol =>
    refine scanAt_problem (by simp [hb]) (munch_single hd ha) ?_
    rw [Kind.ofLexeme, if_neg (by simp [hd]), if_neg (by simp [ha])]
    split
    · next kind hkind => exact absurd (ofSymbol?_eq_some_iff.mp hkind) (hsymbol kind)
    · rfl
  | numeral hne hdigits hends hlt =>
    obtain ⟨c, cs, rfl⟩ := List.exists_cons_of_ne_nil hne
    obtain ⟨hc, hcs⟩ := List.forall_mem_cons.mp hdigits
    refine scanAt_problem (by simp [isBlank_eq_false_of_alnum (Or.inl hc)]) (munch_integer hc hcs hends) ?_
    rw [Kind.ofLexeme, if_pos hc, ofNumeral_integer hdigits, if_neg (Int.not_le.mpr hlt)]

/-! ## The first unreadable lexeme -/

/-- The scanner stops at a lexeme that stands for nothing, and what lies in front of it is readable. -/
theorem exists_unreadable_of_scanAt {p : Position} {d : Diagnostic} (h : scanAt p cs = .error d) :
    ∃ before lexeme rest, cs = before ++ (lexeme ++ rest) ∧ Readable (lexeme ++ rest) before ∧
      Unreadable rest lexeme d.problem ∧
      d = ⟨d.problem, ⟨p.advanceAll before, (p.advanceAll before).advanceAll lexeme⟩, none⟩ := by
  induction p, cs using scanAt.induct with
  | case1 p =>
    rw [scanAt_nil] at h
    cases h
  | case2 p c cs hb ih =>
    rw [scanAt_blank hb] at h
    obtain ⟨before, lexeme, rest, rfl, hbefore, hlexeme, hd⟩ := ih h
    exact ⟨c :: before, lexeme, rest, rfl, hbefore.blank hb, hlexeme, hd⟩
  | case3 p c cs hb lexeme problem =>
    rename_i hl
    rw [scanAt_problem hb rfl hl] at h
    cases h
    exact ⟨[], (munch c cs).1, (munch c cs).2, (append_munch c cs).symm, .nil, unreadable_of_munch hb hl, rfl⟩
  | case4 p c cs hb lexeme rest stop kind =>
    rename_i hl ih
    have hmunch : munch c cs = (lexeme, rest) := rfl
    rw [scanAt_lexeme hb hmunch hl] at h
    obtain ⟨hlexeme, hends⟩ : Lexeme lexeme kind ∧ kind.Ends rest := lexeme_of_munch hl
    obtain ⟨before, unreadable, rest', hrest, hbefore, hunreadable, hd⟩ := ih (Except.map_eq_error_iff.mp h)
    rw [hrest] at hends
    refine ⟨lexeme ++ before, unreadable, rest', ?_, .lexeme hlexeme hends hbefore, hunreadable, ?_⟩
    · rw [List.append_assoc, ← hrest]
      exact (append_munch c cs).symm
    · rw [Position.advanceAll_append]
      exact hd

/-- A text has no tokens because of its first lexeme that stands for nothing. -/
theorem exists_unreadable_of_scan {source : Source} {d : Diagnostic} (h : scan source = .error d) :
    ∃ before lexeme rest, source.text.toList = before ++ (lexeme ++ rest) ∧ Readable (lexeme ++ rest) before ∧
      Unreadable rest lexeme d.problem ∧
      let place := source.byte (utf8Length before)
      d = ⟨d.problem, ⟨place, place.advanceAll lexeme⟩, none⟩ := by
  obtain ⟨before, lexeme, rest, htext, hbefore, hlexeme, hd⟩ := exists_unreadable_of_scanAt h
  have hplace : source.start.advanceAll before = source.byte (utf8Length before) := by
    change (source.byte 0).advanceAll before = _
    rw [Source.advanceAll_byte hbefore.plain, Nat.zero_add]
  rw [hplace] at hd
  exact ⟨before, lexeme, rest, htext, hbefore, hlexeme, hd⟩

end Token

end

/-! ## Misreadings -/

/-- Every text that begins with `before` and `c` is refused at `c`. -/
def RefusedAt (before : List Char) (c : Char) : Prop :=
  ∀ source : Source, before ++ [c] <+: source.text.toList → ∃ d, Token.scan source = .error d ∧
    d.problem = .illegalCharacter c ∧ d.span.start.index = utf8Length before ∧
    d.span.stop.index = utf8Length before + c.utf8Size

/-- Nothing that follows makes up for a character that begins no lexeme. -/
theorem refusedAt_of_readable {before rest : List Char} {c : Char} (hbefore : Readable (c :: rest) before)
    (hc : ∀ rest', Unreadable rest' [c] (.illegalCharacter c)) : RefusedAt before c := by
  rintro source ⟨rest', htext⟩
  obtain ⟨ts, hts⟩ := Token.exists_scanAt_append_of_readable hbefore source.start
  refine ⟨⟨.illegalCharacter c, .single (source.start.advanceAll before) c, none⟩, ?_, rfl, ?_, ?_⟩
  · rw [Token.scan, ← htext, List.append_assoc, hts ([c] ++ rest') (replaces_cons c _ _),
      Token.scanAt_append_of_unreadable (hc rest')]
    rfl
  · exact (Position.index_advanceAll _ _).trans (Nat.zero_add _)
  · change ((source.start.advanceAll before).advance c).index = _
    rw [Position.index_advance, Position.index_advanceAll]
    exact congrArg (· + c.utf8Size) (Nat.zero_add _)

theorem exists_scan_of_readable {cs rest : List Char} (h : Readable rest cs) (name : String) :
    ∃ ts, Token.scan ⟨name, String.ofList cs⟩ = .ok ts := by
  let source : Source := ⟨name, String.ofList cs⟩
  obtain ⟨ts, hts⟩ := Token.exists_scanAt_append_of_readable h source.start
  have hend := hts [] (replaces_nil _)
  rw [List.append_nil, Token.scanAt_nil] at hend
  refine ⟨ts ++ [⟨.eof, .atEnd (source.start.advanceAll cs)⟩], ?_⟩
  rw [Token.scan, String.toList_ofList, hend]
  rfl

/-- **Misreadings are located**: when a text has no tokens, then what stands in front of the span of the diagnostic has
tokens, and in the span there is either a character that begins no lexeme, with which every text that begins like this
is refused, or all the digits of a number that has no place in 64 bits, without a point behind them. -/
theorem exists_misreading_of_scan_eq_error {source : Source} {d : Diagnostic} (h : Token.scan source = .error d) :
    ∃ before lexeme rest, source.text.toList = before ++ (lexeme ++ rest) ∧
      (∃ ts, Token.scan ⟨source.name, String.ofList before⟩ = .ok ts) ∧
      d.span = ⟨source.start.advanceAll before, source.start.advanceAll (before ++ lexeme)⟩ ∧
      d.span.start.index = utf8Length before ∧ d.span.text = some (String.ofList lexeme) ∧
      ((∃ c, lexeme = [c] ∧ d.problem = .illegalCharacter c ∧ c ≠ ' ' ∧ c ≠ '\t' ∧ c.isDigit = false ∧
          c.isAlpha = false ∧ c ∉ symbols.map Prod.fst ∧ RefusedAt before c) ∨
        (d.problem = .invalidSyntax (.numberOutOfRange (String.ofList lexeme)) ∧
          lexeme = (lexeme ++ rest).takeWhile Char.isDigit ∧ rest.head? ≠ some '.' ∧
          Int64.maxValue.toInt < Nat.ofDigitChars 10 lexeme 0)) := by
  obtain ⟨before, lexeme, rest, htext, hbefore, hlexeme, hd⟩ := Token.exists_unreadable_of_scanAt h
  have hspan : d.span = ⟨source.start.advanceAll before, source.start.advanceAll (before ++ lexeme)⟩ := by
    rw [hd, Position.advanceAll_append]
  have hslice : d.span.text = some (String.ofList lexeme) := by
    have hcut := slice_append before lexeme rest
    rw [← htext, ← utf8Length_append, ← source.index_start_advanceAll, ← source.index_start_advanceAll] at hcut
    rw [hspan, Span.text, Position.source_advanceAll]
    exact congrArg (Option.map String.ofList) hcut
  refine ⟨before, lexeme, rest, htext, exists_scan_of_readable hbefore _, hspan, ?_, hslice, ?_⟩
  · rw [hspan]
    exact source.index_start_advanceAll before
  generalize d.problem = problem at hlexeme
  cases hlexeme with
  | @character c hb hdigit halpha hsymbol =>
    simp only [isBlank, Bool.or_eq_false_iff, decide_eq_false_iff_not] at hb
    have hmem : c ∉ symbols.map Prod.fst := by
      rintro hmem
      obtain ⟨⟨_, kind⟩, hkind, rfl⟩ := List.mem_map.mp hmem
      exact hsymbol kind hkind
    refine Or.inl ⟨c, rfl, rfl, hb.1, hb.2, hdigit, halpha, hmem, refusedAt_of_readable hbefore fun rest' => ?_⟩
    exact .character (by simp [isBlank, hb]) hdigit halpha hsymbol
  | numeral _ hdigits hends hlt =>
    refine Or.inr ⟨rfl, ?_, fun hpoint => (hends '.' hpoint).2 rfl, hlt⟩
    exact (span_append rest hdigits fun x hx => (hends x hx).1).1.symm

/-- A second point is refused, whatever follows it. -/
theorem exists_misreading_secondPoint :
    ∃ d, Token.scan ⟨"<stdin>", "1.2.3"⟩ = .error d ∧ d.problem = .illegalCharacter '.' ∧
      (∃ ts, Token.scan ⟨"<stdin>", "1.2"⟩ = .ok ts) ∧ d.span.text = some "." ∧ RefusedAt ['1', '.', '2'] '.' := by
  let source : Source := ⟨"<stdin>", "1.2.3"⟩
  have hscan : Token.scan source = .error ⟨.illegalCharacter '.', .single (source.byte 3) '.', none⟩ := by
    decide +kernel
  obtain ⟨before, lexeme, rest, htext, hbefore, -, hindex, hcut, hlexeme⟩ :=
    exists_misreading_of_scan_eq_error hscan
  -- three bytes of the text stand in front
  have hsplit := splitBytes_append before (lexeme ++ rest)
  rw [← htext, ← hindex] at hsplit
  have hthree : splitBytes 3 source.text.toList = some (['1', '.', '2'], ['.', '3']) := by decide +kernel
  obtain ⟨rfl, -⟩ := Prod.mk.inj (Option.some.inj (hthree.symm.trans hsplit))
  rcases hlexeme with ⟨c, rfl, hproblem, -, -, -, -, -, hrefused⟩ | ⟨hproblem, -⟩
  · cases hproblem
    exact ⟨_, hscan, rfl, hbefore, hcut, hrefused⟩
  · cases hproblem

end Reckoner
