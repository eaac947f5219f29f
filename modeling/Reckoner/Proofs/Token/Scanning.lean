import Reckoner.Token.Scan

/-!
# The scanner, a lexeme at a time

What `scanAt` does at a blank, at a lexeme with a meaning and at one without (`scanAt_blank`, `scanAt_lexeme`,
`scanAt_problem`). The tokens of a text are those of its lexemes, none of which is an end, and behind them the end
(`terminated_of_scan`).
-/

namespace Reckoner.Token

/-- The last token, and no other, is an end. -/
def Terminated (ts : List Token) : Prop :=
  ∃ us stop, ts = us ++ [stop] ∧ stop.isEof = true ∧ ∀ t ∈ us, t.isEof = false

theorem isEof_eq_false_iff {t : Token} : t.isEof = false ↔ t.kind ≠ .eof := by
  rcases t with ⟨kind, s⟩
  cases kind <;> simp [isEof]

theorem terminated_stop {stop : Token} (h : stop.isEof = true) : Terminated [stop] :=
  ⟨[], stop, rfl, h, fun _ ht => absurd ht List.not_mem_nil⟩

theorem Terminated.cons {t : Token} {ts : List Token} (h : Terminated ts) (ht : t.isEof = false) :
    Terminated (t :: ts) := by
  obtain ⟨us, stop, rfl, hstop, hus⟩ := h
  exact ⟨t :: us, stop, rfl, hstop, List.forall_mem_cons.mpr ⟨ht, hus⟩⟩

section

variable {p : Position} {c : Char} {cs : List Char}

theorem scanAt_nil : scanAt p [] = .ok [⟨.eof, .atEnd p⟩] := by
  rw [scanAt]

theorem scanAt_blank (hb : isBlank c = true) : scanAt p (c :: cs) = scanAt (p.advance c) cs := by
  rw [scanAt, if_pos hb]

theorem scanAt_lexeme {lexeme rest : List Char} {kind : Kind} (hb : ¬ isBlank c = true)
    (hm : munch c cs = (lexeme, rest)) (h : Kind.ofLexeme c lexeme = .ok kind) :
    scanAt p (c :: cs) =
      (scanAt (p.advanceAll lexeme) rest).map (⟨kind, ⟨p, p.advanceAll lexeme⟩⟩ :: ·) := by
  rw [scanAt, if_neg hb]
  simp only [hm, h]

theorem scanAt_problem {lexeme rest : List Char} {problem : Problem} (hb : ¬ isBlank c = true)
    (hm : munch c cs = (lexeme, rest)) (h : Kind.ofLexeme c lexeme = .error problem) :
    scanAt p (c :: cs) = .error ⟨problem, ⟨p, p.advanceAll lexeme⟩, none⟩ := by
  rw [scanAt, if_neg hb]
  simp only [hm, h]

end

/-- A lexeme does not stand for an end. -/
theorem Kind.ne_eof_of_ofLexeme {c : Char} {lexeme : List Char} {kind : Kind} (h : ofLexeme c lexeme = .ok kind) :
    kind ≠ eof := by
  rintro rfl
  unfold ofLexeme at h
  split at h
  · simp only [ofNumeral] at h
    split at h
    · cases h
    · split at h <;> cases h
  · split at h
    · have hw := Except.ok.inj h
      unfold ofWord at hw
      split at hw <;> cases hw
    · split at h
      · next k hk =>
        cases h
        unfold ofSymbol? at hk
        split at hk <;> cases hk
      · cases h

theorem terminated_of_scanAt {p : Position} {cs : List Char} {ts : List Token} (h : scanAt p cs = .ok ts) :
    Terminated ts := by
  induction p, cs using scanAt.induct generalizing ts with
  | case1 p =>
    rw [scanAt_nil] at h
    cases h
    exact terminated_stop rfl
  | case2 p c cs hb ih =>
    rw [scanAt_blank hb] at h
    exact ih h
  | case3 p c cs hb lexeme problem =>
    rename_i hl
    rw [scanAt_problem hb rfl hl] at h
    cases h
  | case4 p c cs hb lexeme rest stop kind =>
    rename_i hl ih
    rw [scanAt_lexeme hb rfl hl] at h
    obtain ⟨us, hus, rfl⟩ := Except.map_eq_ok_iff.mp h
    exact (ih hus).cons (isEof_eq_false_iff.mpr (Kind.ne_eof_of_ofLexeme hl))

/-- A text has an end behind its last token, and nowhere else. -/
theorem terminated_of_scan {source : Source} {ts : List Token} (h : scan source = .ok ts) : Terminated ts :=
  terminated_of_scanAt h

end Reckoner.Token
