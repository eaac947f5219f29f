import Reckoner.Proofs.Token.Unreadable

/-!
# Tokens across blanks

It makes no difference to a text where it stands: further along a line, or in another source, it has the same tokens,
or is refused for the same reason, at the places moved there (`Token.scanAt_moved`). And blanks end whatever lexeme is
in front of them. So two texts with blanks between them are scanned one after the other (`Token.scan_join`).
-/

namespace Reckoner

/-! ## Moved places -/

/-- The position in another source and `k` bytes on, and as many columns if it is on the first line. -/
def Position.moved (source : Source) (k : Nat) (p : Position) : Position :=
  ⟨source, p.index + k, p.line, if p.line = 0 then p.column + k else p.column⟩

def Span.moved (source : Source) (k : Nat) (s : Span) : Span :=
  ⟨s.start.moved source k, s.stop.moved source k⟩

def Token.moved (source : Source) (k : Nat) (t : Token) : Token :=
  { t with span := t.span.moved source k }

/-- The diagnostic of a text at the place where the text is moved to. Frames stay what they are. -/
def Diagnostic.moved (source : Source) (k : Nat) (d : Diagnostic) : Diagnostic :=
  { d with span := d.span.moved source k }

namespace Position

variable (source : Source) (k : Nat) (p : Position)

theorem moved_advance (c : Char) : (p.moved source k).advance c = (p.advance c).moved source k := by
  by_cases hc : c = '\n'
  · simp [advance, moved, hc, Nat.add_right_comm]
  · by_cases hline : p.line = 0 <;> simp [advance, moved, hc, hline, Nat.add_right_comm]

theorem moved_advanceAll (cs : List Char) : (p.moved source k).advanceAll cs = (p.advanceAll cs).moved source k := by
  induction cs generalizing p with
  | nil => rfl
  | cons c cs ih => rw [advanceAll_cons, advanceAll_cons, moved_advance, ih]

theorem moved_pastEnd : (p.moved source k).pastEnd = p.pastEnd.moved source k := by
  by_cases hline : p.line = 0 <;> simp [pastEnd, moved, hline, Nat.add_right_comm]

/-- What begins another text is moved to byte `k`. -/
theorem moved_start (other : Source) : other.start.moved source k = source.byte k := by
  simp [moved, Source.start, Source.byte]

end Position

namespace Token

/-- A text that is moved has its tokens moved, or its diagnostic. -/
theorem scanAt_moved (source : Source) (k : Nat) (p : Position) (cs : List Char) : scanAt (p.moved source k) cs =
    ((scanAt p cs).map (List.map (Token.moved source k))).mapError (Diagnostic.moved source k) := by
  induction p, cs using scanAt.induct with
  | case1 p =>
    rw [scanAt_nil, scanAt_nil, Span.atEnd, Position.moved_pastEnd]
    rfl
  | case2 p c cs hb ih => rw [scanAt_blank hb, scanAt_blank hb, Position.moved_advance, ih]
  | case3 p c cs hb lexeme problem =>
    rename_i hl
    rw [scanAt_problem hb rfl hl, scanAt_problem hb rfl hl, Position.moved_advanceAll]
    rfl
  | case4 p c cs hb lexeme rest stop kind =>
    rename_i hl ih
    have hmunch : munch c cs = (lexeme, rest) := rfl
    have hstop : p.advanceAll lexeme = stop := rfl
    rw [scanAt_lexeme hb hmunch hl, scanAt_lexeme hb hmunch hl, Position.moved_advanceAll, hstop, ih]
    cases scanAt stop rest <;> rfl

/-! ## Joined texts -/

section

variable {a b : Source} {blanks : List Char} {ts : List Token} {d : Diagnostic}

/-- What begins two texts alike is scanned alike in both. -/
theorem scanAt_start (whole a : Source) : scanAt whole.start a.text.toList =
    ((scan a).map (List.map (Token.moved whole 0))).mapError (Diagnostic.moved whole 0) := by
  have hstart : a.start.moved whole 0 = whole.start := Position.moved_start whole 0 a
  rw [← hstart, scanAt_moved, scan]

/-- A text that is refused is refused in front of blanks, where it was. -/
theorem scanAt_append_blanks_of_error (whole : Source) (hne : blanks ≠ []) (hblanks : Blanks blanks)
    (h : scan a = .error d) (cs : List Char) :
    scanAt whole.start (a.text.toList ++ (blanks ++ cs)) = .error (d.moved whole 0) := by
  have halone := scanAt_start whole a
  rw [h] at halone
  obtain ⟨before, lexeme, rest, htext, hbefore, hlexeme, hd⟩ := exists_unreadable_of_scanAt halone
  obtain ⟨us, hus⟩ := exists_scanAt_append_of_readable hbefore whole.start
  have hrest : Replaces (rest ++ (blanks ++ cs)) rest := by
    simpa using (replaces_blanks hne hblanks cs []).append rest
  rw [htext, List.append_assoc, List.append_assoc, hus _ (hrest.append lexeme),
    scanAt_append_of_unreadable (hlexeme.replace hrest), hd]
  rfl

/-- Behind the tokens of a text and blanks, what follows is scanned by itself. -/
theorem scanAt_append_blanks_of_ok (whole : Source) (hne : blanks ≠ []) (hblanks : Blanks blanks)
    (h : scan a = .ok ts) (cs : List Char) : scanAt whole.start (a.text.toList ++ (blanks ++ cs)) =
      (scanAt (whole.byte (utf8Length a.text.toList + utf8Length blanks)) cs).map
        ((ts.filter (!·.isEof)).map (Token.moved whole 0) ++ ·) := by
  obtain ⟨lead, pieces, hsplit, -⟩ := scan_eq_ok_iff.mp h
  have hread := hsplit.readable
  obtain ⟨us, hus⟩ := exists_scanAt_append_of_readable hread whole.start
  have hplace : (whole.start.advanceAll a.text.toList).advanceAll blanks =
      whole.byte (utf8Length a.text.toList + utf8Length blanks) := by
    rw [← Position.advanceAll_append, ← utf8Length_append]
    change (whole.byte 0).advanceAll _ = _
    rw [Source.advanceAll_byte (List.forall_mem_append.mpr ⟨hread.plain, hblanks.plain⟩), Nat.zero_add]
  -- in front of nothing the same tokens are read, and these are those of `a`
  have halone := hus [] (replaces_nil [])
  rw [List.append_nil, scanAt_nil, scanAt_start, h] at halone
  have htokens : (ts.filter (!·.isEof)).map (Token.moved whole 0) = us := by
    obtain ⟨vs, stop, rfl, hstop, hvs⟩ := terminated_of_scan h
    have hmap : (vs ++ [stop]).map (Token.moved whole 0) = us ++ [_] := Except.ok.inj halone
    rw [List.map_append] at hmap
    rw [← List.append_inj_left' hmap rfl, List.filter_append, List.filter_eq_self.mpr fun t ht => by simp [hvs t ht]]
    simp [hstop]
  rw [hus _ (replaces_blanks hne hblanks cs []), scanAt_blanks_append hblanks, hplace, htokens]

end

/-- **Blanks part a text**: with blanks between them, two texts are scanned one after the other. If the first is
refused, so is the whole, for the same reason and at the same place. If not, and the second is refused, the whole is
refused for that reason and at that place, moved by what is in front of it. If neither is, the tokens of the whole are
those of the first without its end, where they were, and those of the second, moved. -/
theorem scan_join {a b : Source} {name blanks : String} (hne : blanks ≠ "") (hblanks : Blanks blanks.toList) :
    let whole : Source := ⟨name, a.text ++ blanks ++ b.text⟩
    let k := utf8Length a.text.toList + utf8Length blanks.toList
    (∀ d, scan a = .error d → scan whole = .error (d.moved whole 0)) ∧
    (∀ ts d, scan a = .ok ts → scan b = .error d → scan whole = .error (d.moved whole k)) ∧
    ∀ ts us, scan a = .ok ts → scan b = .ok us →
      scan whole = .ok ((ts.filter (!·.isEof)).map (Token.moved whole 0) ++ us.map (Token.moved whole k)) := by
  intro whole k
  have hne' : blanks.toList ≠ [] := by simpa using hne
  have hwhole : scan whole = scanAt whole.start (a.text.toList ++ (blanks.toList ++ b.text.toList)) := by
    simp [scan, whole]
  have hsecond : scanAt (whole.byte k) b.text.toList =
      ((scan b).map (List.map (Token.moved whole k))).mapError (Diagnostic.moved whole k) := by
    rw [← Position.moved_start whole k b, scanAt_moved, scan]
  rw [hwhole]
  refine ⟨fun d ha => ?_, fun ts d ha hb => ?_, fun ts us ha hb => ?_⟩
  · exact scanAt_append_blanks_of_error whole hne' hblanks ha _
  · rw [scanAt_append_blanks_of_ok whole hne' hblanks ha, hsecond, hb]
    rfl
  · rw [scanAt_append_blanks_of_ok whole hne' hblanks ha, hsecond, hb]
    rfl

/-- The line feed of `x\n` is moved by three columns, while the line behind it begins at the same column as before. -/
theorem scan_join_tab :
    let b : Source := ⟨"b", "x\n"⟩
    let whole : Source := ⟨"<stdin>", "12\tx\n"⟩
    ("\t" ≠ "" ∧ Blanks "\t".toList) ∧
      scan b = .error ⟨.illegalCharacter '\n', ⟨b.byte 1, ⟨b, 2, 1, 0⟩⟩, none⟩ ∧
      scan whole = .error ⟨.illegalCharacter '\n', ⟨whole.byte 4, ⟨whole, 5, 1, 0⟩⟩, none⟩ := by
  intro b whole
  let a : Source := ⟨"a", "12"⟩
  have hne : "\t" ≠ "" := by decide
  have hblanks : Blanks "\t".toList := by decide
  have ha : scan a = .ok [⟨.number (.int 12), ⟨a.byte 0, a.byte 2⟩⟩, a.eofAt 2] := by decide +kernel
  have hb : scan b = .error ⟨.illegalCharacter '\n', ⟨b.byte 1, ⟨b, 2, 1, 0⟩⟩, none⟩ := by decide +kernel
  obtain ⟨-, hrefused, -⟩ := @scan_join a b "<stdin>" "\t" hne hblanks
  have hwhole : (⟨"<stdin>", a.text ++ "\t" ++ b.text⟩ : Source) = whole := by decide +kernel
  have hfront : utf8Length a.text.toList + utf8Length "\t".toList = 3 := by decide +kernel
  have hscan := hrefused _ _ ha hb
  rw [hwhole, hfront] at hscan
  exact ⟨⟨hne, hblanks⟩, hb, hscan⟩

end Token

end Reckoner
